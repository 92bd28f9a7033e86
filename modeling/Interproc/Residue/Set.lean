/-
  Interproc.Residue.Set
  ─────────────────────
  A small finite domain: sets of residues modulo sixteen, ordered by inclusion.
  Its transfer functions are simple enough to follow by hand, and together with
  freely chosen widenings they reach every corner of an analysis.
-/
import Interproc.Abstract.Domain
import Interproc.Collections.SortedSet

namespace Interproc

/-- A set of residues modulo sixteen. -/
structure ResidueSet where
  members : SortedSet (Fin 16)
  deriving DecidableEq

namespace ResidueSet

/-- The set of the residues of some numbers. -/
def ofList (l : List Nat) : ResidueSet := ⟨.ofList (l.map (Fin.ofNat 16))⟩

/-- All residues. -/
def all : ResidueSet := ofList (List.range 16)

/-- The residues of either set. -/
def union (s t : ResidueSet) : ResidueSet := ⟨s.members.union t.members⟩

/-- Whether every residue of `s` is one of `t`. -/
def isSubset (s t : ResidueSet) : Bool := s.members.isSubset t.members

instance : AbstractState ResidueSet where
  isBottom s := s.members.toList.isEmpty
  isBelow := isSubset
  join := union
  tracked _ := 0

instance : ToString ResidueSet :=
  ⟨fun s => "\x7b" ++ ",".intercalate (s.members.toList.map fun x => toString x.val) ++ "\x7d"⟩

instance : Inspect ResidueSet :=
  ⟨fun s => Text.applied "Set" [Text.braced (s.members.toList.map fun x => inspect x.val)]⟩

/-! ## Transfer functions. -/

/-- What an action does to a set of residues. -/
inductive Transfer where
  /-- Nothing. -/
  | identity
  /-- Add a number to every residue. -/
  | add (k : Nat)
  /-- Keep the residues of a set. -/
  | keep (s : ResidueSet)
  /-- Whatever the set, leave a single residue. -/
  | const (k : Nat)
  /-- One state for each residue. -/
  | split
  /-- On leaving a scope, go back to the state before it. -/
  | restore
  /-- On leaving a scope, add the residues from before it. -/
  | union
  /-- Refuse to answer. -/
  | fail (reason : String)
  deriving DecidableEq

/-- The states after an action, given the state before the scope that it leaves, if it leaves
one. -/
def Transfer.apply (f : Transfer) (s : ResidueSet) (before : Option ResidueSet) :
    Except Error (List ResidueSet) :=
  match f with
  | .identity => .ok [s]
  | .add k => .ok [ofList (s.members.toList.map fun x => x.val + k)]
  | .keep t => .ok [⟨s.members.inter t.members⟩]
  | .const k => .ok [ofList [k]]
  | .split => .ok (s.members.toList.map fun x => ofList [x.val])
  | .restore => .ok [before.getD s]
  | .union => .ok [(before.map s.union).getD s]
  | .fail reason => .error (.domain reason)

/-- How sets of residues are widened. -/
inductive Widening where
  /-- To all residues, unless there are no new ones. -/
  | standard
  /-- To a fixed set. -/
  | const (s : ResidueSet)
  /-- To the newer set. -/
  | newer
  /-- To the residues of both sets. -/
  | join
  /-- Refuse to answer. -/
  | fail (reason : String)
  deriving DecidableEq

/-- The state an older state is widened to by a newer one. -/
def Widening.apply (w : Widening) (older newer : ResidueSet) : Except Error ResidueSet :=
  match w with
  | .standard => .ok (if newer.isSubset older then older else all)
  | .const s => .ok s
  | .newer => .ok newer
  | .join => .ok (older.union newer)
  | .fail reason => .error (.domain reason)

/-- The domain of residue sets over actions with given transfer functions. -/
def domain {A : Type} (transfer : A → Transfer) (widening : Widening) : Domain A ResidueSet where
  fresh := ofList [0]
  post s a := (transfer a).apply s none
  postLeaving s before a := (transfer a).apply s (some before)
  widen := widening.apply

end ResidueSet

end Interproc
