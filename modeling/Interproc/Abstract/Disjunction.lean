/-
  Interproc.Abstract.Disjunction
  ──────────────────────────────
  Bounded disjunctions of abstract states.  Adding a disjunct drops what it makes
  superfluous; a disjunction wider than allowed has its two most recent disjuncts
  joined until it fits.  The disjunction without disjuncts is bottom.
-/
import Interproc.Abstract.Domain

namespace Interproc

/-- A disjunction of abstract states, oldest disjunct first. -/
structure Disjunction (S : Type) where
  /-- The disjuncts. -/
  states : List S
  deriving Repr, DecidableEq

namespace Disjunction

variable {S : Type} [AbstractState S]

/-! ## §1. Building and bounding. -/

/-- The disjunction without disjuncts. -/
def bottom : Disjunction S := ⟨[]⟩

instance : Inhabited (Disjunction S) := ⟨bottom⟩

/-- Add a disjunct, unless it is bottom or below a disjunct that is there, and drop the
disjuncts below it. -/
def add (d : Disjunction S) (s : S) : Disjunction S :=
  if isBottom s || d.states.any (isBelow s) then d
  else ⟨d.states.filter (fun t => !isBelow t s) ++ [s]⟩

/-- Add several disjuncts, one after the other. -/
def addAll (d : Disjunction S) (l : List S) : Disjunction S := l.foldl add d

/-- Replace the two most recent disjuncts by their join. -/
def joinLatest (d : Disjunction S) : Disjunction S :=
  match d.states.reverse with
  | last :: secondLast :: earlier => add ⟨earlier.reverse⟩ (join secondLast last)
  | _ => d

/-- Join the most recent disjuncts until at most `width` are left, at most `n` times. -/
def narrow (width : Nat) : Nat → Disjunction S → Disjunction S
  | 0, d => d
  | n + 1, d => if d.states.length ≤ width then d else narrow width n d.joinLatest

/-- Bound the number of disjuncts by `width`, of which at least one is always allowed.  Each join
takes two disjuncts away and adds at most one, so there are never more joins than disjuncts. -/
def reduce (d : Disjunction S) (width : Nat) : Disjunction S :=
  narrow (max width 1) d.states.length d

/-- The disjunction of one state. -/
def single (s : S) : Disjunction S := bottom.add s

/-- The disjunction of several states, bounded by `width`. -/
def ofStates (l : List S) (width : Nat) : Disjunction S := (bottom.addAll l).reduce width

/-- The disjunction of two disjunctions, bounded by `width`. -/
def merge (d e : Disjunction S) (width : Nat) : Disjunction S := (d.addAll e.states).reduce width

/-! ## §2. Questions. -/

/-- Whether every disjunct is bottom. -/
def isBottom (d : Disjunction S) : Bool := d.states.all Interproc.isBottom

/-- Whether every disjunct of `d` is below some disjunct of `e`. -/
def isSubset (d e : Disjunction S) : Bool := d.states.all fun s => e.states.any (isBelow s)

/-- Whether each disjunction is a subset of the other. -/
def isEquivalent (d e : Disjunction S) : Bool := d.isSubset e && e.isSubset d

/-- The largest number of variables that a disjunct says something about. -/
def tracked (d : Disjunction S) : Nat := (d.states.map Interproc.tracked).foldl max 0

/-- The join of all disjuncts; there is none if there are no disjuncts. -/
def collapse (d : Disjunction S) : Option S :=
  match d.states with
  | [] => none
  | s :: rest => some (rest.foldl join s)

/-! ## §3. Transformers. -/

/-- Apply `f` to every disjunct. -/
def mapDisjuncts (d : Disjunction S) (width : Nat) (f : S → Except Error S) :
    Except Error (Disjunction S) := do
  return ofStates (← d.states.mapM f) width

/-- The states after `action`, from every disjunct. -/
def post {A : Type} (d : Disjunction S) (domain : Domain A S) (action : A) (width : Nat) :
    Except Error (Disjunction S) := do
  return ofStates (← d.states.mapM fun s => domain.post s action).flatten width

/-- The pairs of a disjunct of `d` and a disjunct of `e`. -/
def pairs (d e : Disjunction S) : List (S × S) :=
  d.states.flatMap fun s => e.states.map fun t => (s, t)

/-- The states after `action`, which leaves a scope entered from `outer`, from every pair of a
disjunct and a disjunct of `outer`. -/
def postLeaving {A : Type} (d outer : Disjunction S) (domain : Domain A S) (action : A)
    (width : Nat) : Except Error (Disjunction S) := do
  let posts ← (d.pairs outer).mapM fun p => domain.postLeaving p.1 p.2 action
  return ofStates posts.flatten width

/-- Widen `older` by `newer`.  Both are collapsed first, so the result has a single disjunct
unless one of them has none. -/
def widen {A : Type} (older newer : Disjunction S) (domain : Domain A S) :
    Except Error (Disjunction S) :=
  match older.collapse, newer.collapse with
  | some s, some t => do return single (← domain.widen s t)
  | some _, none => .ok older
  | none, _ => .ok newer

end Disjunction

/-! ## §4. Texts. -/

instance {S : Type} [ToString S] : ToString (Disjunction S) :=
  ⟨fun d => if d.states.isEmpty then "⊥" else " ∨ ".intercalate (d.states.map toString)⟩

instance {S : Type} [Inspect S] : Inspect (Disjunction S) :=
  ⟨fun d => Text.record "MultiState" [("states", inspect d.states)]⟩

end Interproc
