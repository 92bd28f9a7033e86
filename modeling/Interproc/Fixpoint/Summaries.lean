/-
  Interproc.Fixpoint.Summaries
  ────────────────────────────
  What is known about calls.  Whenever a scope is left, the state before the call
  and the state after the return are recorded for the call.  Items that stepped
  over a call by such a summary are remembered with it, and handed back once the
  recorded state after the return grows.
-/
import Interproc.Abstract.Disjunction
import Interproc.Collections.Table
import Interproc.Fixpoint.Ids

namespace Interproc

/-- Refers to one recorded summary of a call. -/
structure SummaryRef (A : Type) where
  call : A
  index : Nat
  deriving Repr, DecidableEq

/-- A call entered with `pre` returned with `post`. -/
structure Summary (S : Type) where
  pre : Disjunction S
  post : Disjunction S
  /-- The items that stepped over the call by this summary. -/
  uses : List ItemId
  deriving Repr, DecidableEq

/-- The summaries of each call, in the order in which they were first recorded. -/
structure Summaries (A S : Type) where
  calls : Table A (List (Summary S)) := {}

namespace Summaries

variable {A S : Type} [DecidableEq A] [AbstractState S]

/-- The summaries of a call. -/
def ofCall (m : Summaries A S) (call : A) : List (Summary S) := m.calls.findD call []

/-- Record a pair in the summaries of one call.  A pair with an equivalent state before the call
is merged with the recorded one; if that changes the state after the return, the items that used
the old one are handed back and forgotten. -/
def recordIn (pre post : Disjunction S) (width : Nat) :
    List (Summary S) → List ItemId × List (Summary S)
  | [] => ([], [⟨pre, post, []⟩])
  | s :: rest =>
    if s.pre.isEquivalent pre then
      if post.isSubset s.post then ([], s :: rest)
      else (s.uses, { s with post := s.post.merge post width, uses := [] } :: rest)
    else
      let (stale, rest) := recordIn pre post width rest
      (stale, s :: rest)

/-- Record that `call`, entered with `pre`, returned with `post`; the items to be handed back
come first. -/
def record (m : Summaries A S) (call : A) (pre post : Disjunction S) (width : Nat) :
    List ItemId × Summaries A S :=
  let (stale, summaries) := recordIn pre post width (m.ofCall call)
  (stale, ⟨m.calls.insert call summaries⟩)

/-- The first summary of `call` for a state before the call that covers `state`. -/
def lookup (m : Summaries A S) (call : A) (state : Disjunction S) : Option (SummaryRef A) :=
  ((m.ofCall call).findIdx? fun s => state.isSubset s.pre).map fun i => ⟨call, i⟩

/-- The recorded state after the return. -/
def post? (m : Summaries A S) (r : SummaryRef A) : Option (Disjunction S) :=
  (m.ofCall r.call)[r.index]?.map Summary.post

/-- Remember that an item stepped over a call by a summary. -/
def addUse (m : Summaries A S) (r : SummaryRef A) (item : ItemId) : Summaries A S :=
  match m.calls.find? r.call with
  | none => m
  | some summaries =>
    ⟨m.calls.insert r.call
      (summaries.modify r.index fun s => { s with uses := s.uses ++ [item] })⟩

/-- The recorded pairs of a call. -/
def pairs (m : Summaries A S) (call : A) : List (Disjunction S × Disjunction S) :=
  (m.ofCall call).map fun s => (s.pre, s.post)

/-- The number of recorded pairs. -/
def size (m : Summaries A S) : Nat :=
  m.calls.entries.foldr (fun e n => e.2.length + n) 0

end Summaries

end Interproc
