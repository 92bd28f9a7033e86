/-
  Interproc.Fixpoint.Options
  ──────────────────────────
  The bounds and choices of an analysis.  Both bounds are positive, which is part
  of the type.
-/
import Interproc.Error

namespace Interproc

/-- The order in which pending items are taken. -/
inductive Order where
  /-- Oldest first. -/
  | fifo
  /-- Newest first. -/
  | lifo
  deriving Repr, DecidableEq, Inhabited

/-- The name of an order in documents. -/
def Order.name : Order → String
  | .fifo => "Fifo"
  | .lifo => "Lifo"

/-- The order of a given name. -/
def Order.ofName? : String → Option Order
  | "Fifo" => some .fifo
  | "Lifo" => some .lifo
  | _ => none

/-- The options of an analysis. -/
structure Options where
  /-- How often a loop is unwound, or a call re-entered, before states are widened. -/
  maxUnwindings : Nat
  /-- How many disjuncts are kept for a location. -/
  maxParallelStates : Nat
  /-- The order in which pending items are taken. -/
  order : Order := .fifo
  /-- Whether calls may be stepped over by what is already known of them. -/
  useSummaries : Bool := false
  unwindings_pos : 0 < maxUnwindings
  parallelStates_pos : 0 < maxParallelStates
  deriving Repr, DecidableEq

namespace Options

/-- Options with the given bounds, if both are positive. -/
def check (maxUnwindings maxParallelStates : Nat) (order : Order) (useSummaries : Bool) :
    Except Error Options :=
  if hu : 0 < maxUnwindings then
    if hp : 0 < maxParallelStates then
      .ok ⟨maxUnwindings, maxParallelStates, order, useSummaries, hu, hp⟩
    else .error (.misconfigured (.zero .parallelStates))
  else .error (.misconfigured (.zero .unwindings))

/-- Options that are still being put together. -/
structure Draft where
  maxUnwindings : Option Nat := none
  maxParallelStates : Option Nat := none
  order : Order := .fifo
  useSummaries : Bool := false
  deriving Repr, DecidableEq

/-- Finish a draft.  Unset bounds are reported before bounds that are zero. -/
def Draft.finish (d : Draft) : Except Error Options :=
  match d.maxUnwindings, d.maxParallelStates with
  | none, _ => .error (.misconfigured (.unset .unwindings))
  | some _, none => .error (.misconfigured (.unset .parallelStates))
  | some u, some p => check u p d.order d.useSummaries

/-- Options with the given bounds, and defaults for everything else. -/
def ofBounds (maxUnwindings maxParallelStates : Nat) : Except Error Options :=
  check maxUnwindings maxParallelStates .fifo false

end Options

end Interproc
