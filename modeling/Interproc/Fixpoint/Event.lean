/-
  Interproc.Fixpoint.Event
  ────────────────────────
  What a computation reports while it runs.  Events are values; only `Event.summaryAt?`
  puts them into words.
-/
import Interproc.Abstract.Disjunction
import Interproc.Fixpoint.Ids
import Interproc.Fixpoint.Statistics

namespace Interproc

/-- How much attention a log entry asks for. -/
inductive Level where
  | error
  | warn
  | info
  | debug
  | trace
  deriving Repr, DecidableEq

namespace Level

/-- The name of a level in a log. -/
def name : Level → String
  | .error => "ERROR"
  | .warn => "WARN"
  | .info => "INFO"
  | .debug => "DEBUG"
  | .trace => "TRACE"

/-- How much is shown at a level: each level shows what the levels before it show, and more. -/
def verbosity : Level → Nat
  | .error => 1
  | .warn => 2
  | .info => 3
  | .debug => 4
  | .trace => 5

end Level

/-- A line of a log. -/
structure LogEntry where
  level : Level
  text : String
  deriving Repr, DecidableEq

instance : ToString LogEntry := ⟨fun e => e.level.name ++ " " ++ e.text⟩

/-- What a computation reports. -/
inductive Event (L A S : Type) where
  /-- An item was made for an action that leaves a start location. -/
  | seeded (location : L) (item : ItemId)
  /-- The timer stopped the computation. -/
  | cancelled (iterations : Nat)
  /-- An item was taken from the worklist. -/
  | taken (item : ItemId) (action : A)
  /-- The state after the action is bottom. -/
  | infeasible (action : A)
  /-- The state after the action adds nothing to what is known. -/
  | covered (action : A) (target : L)
  | leftScope (call : A)
  | enteredLoop (head : L) (time : Nat)
  | leftLoop (head : L)
  | reachedError (action : A) (target : L)
  | enteredScope (action : A) (layer : LayerId)
  /-- The state after the action did not change the stored one. -/
  | unchanged (action : A) (target : L)
  /-- The state after a return is bottom although the states before it are not. -/
  | lostReturn (action : A)
  /-- The states that a second opinion was asked about. -/
  | checked (action : A) (pre fresh post : List S)
  | widenedLoop (head : L) (state : Disjunction S)
  | loopFixpoint (head : L)
  | widenedEntry (action : A) (state : Disjunction S)
  | scopeFixpoint (action : A)
  /-- A call is stepped over by a summary. -/
  | steppedOver (call : A)
  | enqueued (item after : ItemId)
  | widenedExit (layer : LayerId) (state : Disjunction S)
  /-- A call is not entered because an activation covers it. -/
  | subscribed (call : ItemId) (layer : LayerId)
  | returned (action : A) (call item : ItemId)
  /-- An item that stepped over a call is processed again. -/
  | requeued (stale item : ItemId)
  /-- The number of items that are still live. -/
  | stillLive (items : Nat)
  | finished (statistics : Statistics) (layers counterexamples : Nat)

namespace Event

variable {L A S : Type} [Inspect L] [Inspect A] [Inspect S]

/-- The log entry of an event, if it has one. -/
def summaryAt? : Event L A S → Option LogEntry
  | .seeded location item =>
    some ⟨.trace, "seeding " ++ inspect location ++ " with " ++ inspect item⟩
  | .cancelled iterations =>
    some ⟨.warn, "fixpoint computation cancelled after " ++ toString iterations ++ " iterations"⟩
  | .taken item action => some ⟨.trace, inspect item ++ ": " ++ inspect action⟩
  | .infeasible action => some ⟨.trace, inspect action ++ " is infeasible"⟩
  | .covered action target =>
    some ⟨.trace, inspect action ++ " is covered at " ++ inspect target⟩
  | .leftScope call => some ⟨.debug, "leaving scope of " ++ inspect call⟩
  | .enteredLoop head time =>
    some ⟨.trace, "entering loop at " ++ inspect head ++ " for the " ++ toString time ++ ". time"⟩
  | .leftLoop head => some ⟨.trace, "leaving loop at " ++ inspect head⟩
  | .reachedError action target =>
    some ⟨.debug, inspect action ++ " reaches error location " ++ inspect target⟩
  | .enteredScope action layer =>
    some ⟨.debug, "entering scope of " ++ inspect action ++ " in " ++ toString layer⟩
  | .unchanged action target =>
    some ⟨.trace, inspect action ++ " did not change " ++ inspect target⟩
  | .lostReturn action =>
    some ⟨.warn, inspect action ++
      " has a bottom post-state although its pre-states are not bottom"⟩
  | .checked .. => none
  | .widenedLoop head state =>
    some ⟨.debug, "widening at loop head " ++ inspect head ++ ": " ++ inspect state⟩
  | .loopFixpoint head => some ⟨.debug, "fixpoint at loop head " ++ inspect head⟩
  | .widenedEntry action state =>
    some ⟨.debug, "widening entry of " ++ inspect action ++ ": " ++ inspect state⟩
  | .scopeFixpoint action => some ⟨.debug, "scope fixpoint for " ++ inspect action⟩
  | .steppedOver call => some ⟨.trace, "stepping over " ++ inspect call ++ " with a summary"⟩
  | .enqueued item after =>
    some ⟨.trace, "enqueueing " ++ inspect item ++ " after " ++ inspect after⟩
  | .widenedExit layer state =>
    some ⟨.debug, "widening exit of " ++ toString layer ++ ": " ++ inspect state⟩
  | .subscribed call layer =>
    some ⟨.debug, inspect call ++ " is covered by the activation in " ++ toString layer⟩
  | .returned action call item =>
    some ⟨.trace, "returning " ++ inspect action ++ " to " ++ inspect call ++ " as " ++
      inspect item⟩
  | .requeued stale item =>
    some ⟨.trace, "requeueing " ++ inspect stale ++ " as " ++ inspect item⟩
  | .stillLive items => some ⟨.debug, toString items ++ " items still referenced"⟩
  | .finished statistics layers counterexamples =>
    some ⟨.info, "fixpoint computed: " ++ toString statistics ++ ", " ++ toString layers ++
      " storage layers, " ++ toString counterexamples ++ " counterexamples"⟩

end Event

end Interproc
