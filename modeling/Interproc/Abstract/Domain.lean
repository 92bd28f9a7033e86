/-
  Interproc.Abstract.Domain
  ─────────────────────────
  What an analysis has to be told about the states it computes with: their order
  and joins (`AbstractState`), the effect of actions on them (`Domain`), and the
  variables that come into scope with an action (`Declarations`).
-/
import Interproc.Error

namespace Interproc

/-- States that stand for sets of concrete states. -/
class AbstractState (S : Type) where
  /-- Whether the state stands for no concrete state at all. -/
  isBottom : S → Bool
  /-- Whether all that the first state stands for, the second stands for too. -/
  isBelow : S → S → Bool
  /-- A state for all that either state stands for. -/
  join : S → S → S
  /-- How many variables the state says something about. -/
  tracked : S → Nat

export AbstractState (isBottom isBelow join tracked)

/-- Whether two states stand for the same concrete states, as far as the order can tell. -/
def isEquivalent {S : Type} [AbstractState S] (s t : S) : Bool := isBelow s t && isBelow t s

/-- The effect of actions of type `A` on states of type `S`. -/
structure Domain (A S : Type) where
  /-- The state every analysis starts from, in which no variable is defined. -/
  fresh : S
  /-- The states after an action; none if the action is infeasible. -/
  post : S → A → Except Error (List S)
  /-- The states after an action that leaves a scope.  The second state held right before the
  scope was entered. -/
  postLeaving : S → S → A → Except Error (List S)
  /-- A state above the older and the newer one, chosen so that repeated widening stabilises. -/
  widen : S → S → Except Error S

/-- The variables that come into scope with an action. -/
structure Declarations (A S : Type) where
  /-- Define the variables live before the first action of an analysis. -/
  initial : A → S → Except Error S
  /-- Define the variables that are fresh after the action.  The second state held right before
  the current scope was entered. -/
  after : A → S → S → Except Error S

/-- No action brings variables into scope. -/
def Declarations.none {A S : Type} : Declarations A S where
  initial _ s := .ok s
  after _ s _ := .ok s

end Interproc
