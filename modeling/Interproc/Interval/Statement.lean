/-
  Interproc.Interval.Statement
  ────────────────────────────
  Statements over integer variables, and what they do to abstract stores.  All
  variables are global, so calls and returns pass stores on as they are.
-/
import Interproc.Interval.State
import Interproc.Program.Basic

namespace Interproc

/-- A statement over integer variables. -/
inductive Statement where
  | nop
  | assign (name : String) (k : Int64)
  | add (name : String) (k : Int64)
  /-- Go on only if the variable is less than `k`. -/
  | assumeLessThan (name : String) (k : Int64)
  /-- Go on only if the variable is at least `k`. -/
  | assumeAtLeast (name : String) (k : Int64)
  /-- Never go on. -/
  | assumeFalse
  /-- Give the variable any value. -/
  | havoc (name : String)
  deriving Repr, DecidableEq

instance : Inspect Statement :=
  ⟨fun
    | .nop => "Nop"
    | .assign name k => Text.applied "Assign" [inspect name, inspect k]
    | .add name k => Text.applied "Add" [inspect name, inspect k]
    | .assumeLessThan name k => Text.applied "AssumeLessThan" [inspect name, inspect k]
    | .assumeAtLeast name k => Text.applied "AssumeAtLeast" [inspect name, inspect k]
    | .assumeFalse => "AssumeFalse"
    | .havoc name => Text.applied "Havoc" [inspect name]⟩

namespace IntervalState

/-- The store after a statement that goes on. -/
def after (s : IntervalState) : Statement → IntervalState
  | .nop => s
  | .assign name k => s.setVariable name (.constant k)
  | .add name k => s.setVariable name ((s.interval name).add k)
  | .assumeLessThan name k =>
    s.setVariable name ((s.interval name).meet ⟨Interval.negInfinity, Interval.saturatingSub k 1⟩)
  | .assumeAtLeast name k =>
    s.setVariable name ((s.interval name).meet ⟨k, Interval.posInfinity⟩)
  | .assumeFalse => empty
  | .havoc name => s.forget name

/-- The stores after a statement: one, or none if the statement cannot go on. -/
def post (s : IntervalState) (statement : Statement) : List IntervalState :=
  if s.bottom then []
  else
    let t := s.after statement
    if t.bottom then [] else [t]

/-- The domain of abstract stores. -/
def domain : Domain (Transition Statement) IntervalState where
  fresh := unconstrained
  post s t := .ok (s.post t.statement)
  postLeaving s _ t := .ok (s.post t.statement)
  widen older newer := .ok (older.widen newer)

end IntervalState

end Interproc
