/-
  Interproc.Fixpoint.Report
  ─────────────────────────
  What is left of an analysis once it is over: its answer, or why there is none,
  and what was reported on the way.
-/
import Interproc.Fixpoint.Run

namespace Interproc

variable {L A S : Type}

namespace Halt

/-- The error that a halt amounts to.  A rejected state and a used up budget are no errors of the
analysis. -/
def error? [Inspect A] : Halt A → Option Error
  | .noStartLocations => some .noStartLocations
  | .cancelled iterations => some (.cancelled iterations)
  | .refused cause => some cause
  | .lost cause => some cause
  | .noSummary call => some (.other ("no summary for " ++ inspect call))
  | .unsound _ => none
  | .exhausted => none

/-- The wording of a halt. -/
def message [Inspect A] (h : Halt A) : String :=
  match h with
  | .unsound action => "unsound post-state for " ++ inspect action
  | .exhausted => "out of budget"
  | h => (h.error?.map Error.message).getD ""

end Halt

/-- Why an analysis has no answer. -/
inductive Failure (A : Type) where
  /-- The analysis could not be set up. -/
  | setup (cause : Error)
  /-- The computation ended without an answer. -/
  | halted (halt : Halt A)
  deriving Repr, DecidableEq

/-- What is left of an analysis. -/
structure Report (L A S : Type) where
  /-- What was reported before the computation. -/
  preliminaries : List LogEntry := []
  /-- What the computation reported. -/
  events : List (Event L A S) := []
  outcome : Except (Failure A) (Answer L A S)

namespace Report

/-- The report of an analysis that could not be set up. -/
def ofError (preliminaries : List LogEntry) (cause : Error) : Report L A S where
  preliminaries := preliminaries
  outcome := .error (.setup cause)

/-- The report of a finished computation. -/
def ofResult (preliminaries : List LogEntry) :
    EStateM.Result (Halt A) (RunState L A S) (Answer L A S) → Report L A S
  | .ok answer s =>
    { preliminaries := preliminaries, events := s.events.toList, outcome := .ok answer }
  | .error halt s =>
    { preliminaries := preliminaries
      events := s.events.toList
      outcome := .error (.halted halt) }

/-- The log up to a level. -/
def log [Inspect L] [Inspect A] [Inspect S] (r : Report L A S) (level : Level) :
    List LogEntry :=
  (r.preliminaries ++ r.events.filterMap Event.summaryAt?).filter fun entry =>
    entry.level.verbosity ≤ level.verbosity

/-- The states that a second opinion was asked about: the action, the states before it, the same
with fresh variables, and the states after it. -/
def checkedPosts (r : Report L A S) : List (A × List S × List S × List S) :=
  r.events.filterMap fun
    | .checked action pre fresh post => some (action, pre, fresh, post)
    | _ => none

end Report

end Interproc
