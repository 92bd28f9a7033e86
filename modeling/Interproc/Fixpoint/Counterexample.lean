/-
  Interproc.Fixpoint.Counterexample
  ─────────────────────────────────
  Abstract executions from a start location to an error location.  They may be
  spurious, since every state on them stands for more than what happens.
-/
import Interproc.Fixpoint.Arena

namespace Interproc

/-- One step of an abstract execution. -/
structure TraceStep (L A S : Type) where
  action : A
  target : L
  /-- The state at the target. -/
  state : Disjunction S
  deriving Repr, DecidableEq

/-- An abstract execution that reaches an error location. -/
structure Counterexample (L A S : Type) where
  start : L
  initial : Disjunction S
  /-- The steps up to the source of the error action, in order. -/
  trace : List (TraceStep L A S)
  errorAction : A
  errorSource : L
  /-- The state at the error location. -/
  errorState : Disjunction S
  deriving Repr, DecidableEq

namespace Counterexample

variable {L A S : Type}

/-- Follow an item's predecessors, at most `n` of them, putting the steps between them before
those already found.  Answers the first item of the chain too. -/
def walkBack (arena : Arena L A S) (target : A → L) :
    Nat → Item L A S → List (TraceStep L A S) →
    Except Error (Item L A S × List (TraceStep L A S))
  | 0, item, steps => .ok (item, steps)
  | n + 1, item, steps =>
    match item.predecessor with
    | none => .ok (item, steps)
    | some id => do
      let predecessor ← arena.get id
      walkBack arena target n predecessor
        (⟨predecessor.action, target predecessor.action, item.pre⟩ :: steps)

/-- The execution that led to an item whose action reached an error location with `errorState`.
A chain of predecessors has no more links than the arena has slots. -/
def ofItem (arena : Arena L A S) (source target : A → L) (id : ItemId)
    (errorState : Disjunction S) : Except Error (Counterexample L A S) := do
  let item ← arena.get id
  let (first, trace) ← walkBack arena target arena.slots.size item []
  return { start := source first.action
           initial := first.pre
           trace := trace
           errorAction := item.action
           errorSource := source item.action
           errorState := errorState }

/-- All actions, the error action last. -/
def actions (c : Counterexample L A S) : List A := c.trace.map TraceStep.action ++ [c.errorAction]

end Counterexample

instance {L A S : Type} [Inspect L] [Inspect A] [ToString S] :
    ToString (Counterexample L A S) :=
  ⟨fun c =>
    let stateAt := fun (location : L) (state : Disjunction S) =>
      inspect location ++ ": " ++ toString state ++ "\n"
    stateAt c.start c.initial ++
    String.join (c.trace.map fun step =>
      "  " ++ inspect step.action ++ "\n" ++ stateAt step.target step.state) ++
    "  " ++ inspect c.errorAction ++ "\nerror: " ++ toString c.errorState⟩

end Interproc
