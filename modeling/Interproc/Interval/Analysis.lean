/-
  Interproc.Interval.Analysis
  ───────────────────────────
  Interval analyses of whole programs, set up from documents and rules.
-/
import Interproc.Fixpoint.Report
import Interproc.Interval.Command
import Interproc.Json.Document
import Interproc.Program.Flow

namespace Interproc

/-- Rules for the variables that come into scope with transitions. -/
structure DeclarationRules where
  /-- Transitions for which defining the initial variables is refused. -/
  refuseInitial : List (Arc × String) := []
  /-- Transitions after which defining variables is refused. -/
  refuseAfter : List (Arc × String) := []
  /-- The initial variables. -/
  initial : List (String × Interval) := []
  /-- Variables that are fresh after a transition. -/
  after : List (Arc × String × Interval) := []
  /-- Variables that take over the interval of a variable from before the current scope. -/
  copied : List (Arc × String × String) := []

namespace DeclarationRules

variable {T : Type}

/-- The first refusal for a transition. -/
def refuse (rules : List (Arc × String)) (t : Transition T) : Except Error Unit :=
  match rules.find? fun rule => rule.1 = t.arc with
  | some (_, reason) => .error (.other reason)
  | none => .ok ()

/-- Variables by rules.  Rules apply in order. -/
def declarations (rules : DeclarationRules) : Declarations (Transition T) IntervalState where
  initial t s := do
    refuse rules.refuseInitial t
    return rules.initial.foldl (fun s (name, i) => s.setVariable name i) s
  after t s before := do
    refuse rules.refuseAfter t
    let defined := (rules.after.filter fun rule => rule.1 = t.arc).foldl
      (fun s (_, name, i) => s.setVariable name i) s
    return (rules.copied.filter fun rule => rule.1 = t.arc).foldl
      (fun s (_, name, source) => s.setVariable name (before.interval source)) defined

end DeclarationRules

/-- Where an analysis starts. -/
inductive Start where
  | node (index : Nat)
  /-- The entry of a procedure. -/
  | procedure (name : String)

/-- The location of a start. -/
def Start.location {T : Type} (p : Program T) : Start → Except Error Nat
  | .node index => .ok index
  | .procedure name => do return (← p.procedure name).entry

/-- An interval analysis of a program. -/
structure IntervalAnalysis where
  program : Program Command
  /-- The document that holds the options. -/
  options : Json.Value
  starts : List Start
  /-- The parts that are left out. -/
  omitted : List Part := []
  declarations : Option DeclarationRules := none
  /-- The transitions that enter a loop, if they are not to be found. -/
  loops : Option (List Arc) := none
  timer : Timer := .unbounded
  postCheck : Option (PostCheck (Transition Command) IntervalState) := none

namespace IntervalAnalysis

/-- A part, unless it is left out. -/
def given {α : Type} (a : IntervalAnalysis) (part : Part) (value : α) : Option α :=
  if a.omitted.contains part then none else some value

/-- The engine of an analysis, given the loops of its program. -/
def engine (a : IntervalAnalysis) (table : LoopTable) :
    Except Error (Engine Nat (Transition Command) IntervalState) := do
  let options ← (a.given .options a.options).mapM Json.optionsOf
  let entersLoop := match a.loops with
    | some arcs => fun t => arcs.contains t.arc
    | none => table.isEntered
  EngineParts.assemble
    { transitions := a.given .transitions a.program.transitions
      domain := a.given .domain Command.domain
      declarations :=
        a.given .declarations ((a.declarations.map DeclarationRules.declarations).getD .none)
      entersLoop := a.given .loops entersLoop
      options := options
      postCheck := a.postCheck
      timer := a.timer }

/-- What is left of an analysis, and the options it ran with. -/
abbrev Outcome := Option Options × Report Nat (Transition Command) IntervalState

/-- Find the loops of the program, set up the engine, and compute. -/
def run (a : IntervalAnalysis) (budget : Nat) : Outcome :=
  match a.program.procedureLoops with
  | .error cause => (none, .ofError [] cause)
  | .ok loops =>
    let preliminaries : List LogEntry := loops.map fun (name, l) =>
      ⟨.trace, name ++ " has " ++ toString l⟩
    match a.engine (.ofLoops (loops.map Prod.snd)) with
    | .error cause => (none, .ofError preliminaries cause)
    | .ok engine =>
      match a.starts.mapM (Start.location a.program) with
      | .error cause => (none, .ofError preliminaries cause)
      | .ok starts =>
        (some engine.options, .ofResult preliminaries (engine.run budget starts))

end IntervalAnalysis

end Interproc
