/-
  Interproc.Fixpoint.Engine
  ─────────────────────────
  What an engine is made of.  The engine never looks into locations, actions or
  states; all it has to know about them it asks its parts.
-/
import Interproc.Abstract.Domain
import Interproc.Fixpoint.Options
import Interproc.Fixpoint.Timer

namespace Interproc

/-- The structure of a control-flow graph with scopes. -/
structure Transitions (L A : Type) where
  /-- The actions that leave a location. -/
  actionsFrom : L → List A
  /-- The location an action starts from. -/
  source : A → L
  /-- The location an action leads to. -/
  target : A → L
  /-- The actions that may follow an action, given the action that entered the current scope. -/
  following : A → Option A → List A
  /-- Whether an action enters a scope. -/
  entersScope : A → Bool
  /-- Whether an action leaves the current scope, which the given action entered. -/
  leavesScope : A → Option A → Bool
  /-- Whether reaching a location is an error. -/
  isError : L → Bool
  /-- Whether an action stands for a call whose body is analysed through the call itself. -/
  standsForCall : A → Bool
  /-- The action that stands for a call. -/
  summaryOf : A → Option A

/-- A second opinion on computed states: whether the states after an action are sound, given the
states before it, the same with fresh variables, and the states after it. -/
abbrev PostCheck (A S : Type) := List S → List S → List S → A → Bool

/-- An engine that computes fixpoints. -/
structure Engine (L A S : Type) where
  transitions : Transitions L A
  domain : Domain A S
  declarations : Declarations A S
  /-- Whether an action enters a loop body from the head of the loop. -/
  entersLoop : A → Bool
  options : Options
  postCheck : Option (PostCheck A S) := none
  timer : Timer := .unbounded

/-- The parts of an engine that is still being put together. -/
structure EngineParts (L A S : Type) where
  transitions : Option (Transitions L A) := none
  domain : Option (Domain A S) := none
  declarations : Option (Declarations A S) := none
  entersLoop : Option (A → Bool) := none
  options : Option Options := none
  postCheck : Option (PostCheck A S) := none
  timer : Timer := .unbounded

namespace EngineParts

variable {L A S α : Type}

/-- A part that has to be there. -/
def require (part : Part) : Option α → Except Error α
  | some value => .ok value
  | none => .error (.misconfigured (.missing part))

/-- Put the engine together.  The first missing part is reported. -/
def assemble (parts : EngineParts L A S) : Except Error (Engine L A S) := do
  let transitions ← require .transitions parts.transitions
  let domain ← require .domain parts.domain
  let declarations ← require .declarations parts.declarations
  let entersLoop ← require .loops parts.entersLoop
  let options ← require .options parts.options
  return { transitions, domain, declarations, entersLoop, options,
           postCheck := parts.postCheck, timer := parts.timer }

end EngineParts

end Interproc
