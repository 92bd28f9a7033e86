/-
  Interproc.Fixpoint.Exits
  ────────────────────────
  The states with which activations leave their scopes.  A call that an activation
  further up its scope stack covers is not entered; it subscribes to the layer of
  that activation, and every state the activation leaves its scope with is handed
  to the call as well.  Such returns can reach the exit again, so a recorded exit
  state is widened once it grew more often than loops are unwound.
-/
import Interproc.Abstract.Disjunction
import Interproc.Collections.Table
import Interproc.Fixpoint.Ids
import Interproc.Fixpoint.Options

namespace Interproc

/-- All states with which an activation left its scope by one action, taken together. -/
structure ScopeExit (A S : Type) where
  action : A
  state : Disjunction S
  /-- The item before the one that first reached the exit. -/
  predecessor : Option ItemId
  /-- How often the state grew. -/
  growths : Nat
  deriving Repr, DecidableEq

/-- The exits of an activation, and the calls that wait for them. -/
structure Activation (A S : Type) where
  exits : List (ScopeExit A S) := []
  calls : List ItemId := []
  deriving Repr, DecidableEq

/-- How an exit changed. -/
structure ExitChange (A S : Type) where
  exit : ScopeExit A S
  /-- The activation was not left by this action before. -/
  first : Bool
  /-- The state was widened. -/
  widened : Bool
  deriving Repr, DecidableEq

/-- The activations, by the layer of their scope. -/
structure Exits (A S : Type) where
  activations : Table LayerId (Activation A S) := {}

namespace Exits

variable {A S : Type} [DecidableEq A] [AbstractState S]

/-- The activation at a layer. -/
def activation (m : Exits A S) (layer : LayerId) : Activation A S := m.activations.findD layer {}

/-- Subscribe a call to the activation at a layer. -/
def subscribe (m : Exits A S) (layer : LayerId) (call : ItemId) : Exits A S :=
  let activation := m.activation layer
  ⟨m.activations.insert layer { activation with calls := activation.calls ++ [call] }⟩

/-- Let an exit grow by a state that it does not cover. -/
def grow (domain : Domain A S) (options : Options) (exit : ScopeExit A S)
    (state : Disjunction S) : Except Error (ExitChange A S) := do
  let growths := exit.growths + 1
  let merged := exit.state.merge state options.maxParallelStates
  if options.maxUnwindings < growths then
    let widened ← exit.state.widen merged domain
    return ⟨{ exit with state := widened, growths := growths }, false, true⟩
  else
    return ⟨{ exit with state := merged, growths := growths }, false, false⟩

/-- Record a state in the exits of one activation.  Nothing changes if the exit by this action
covers the state already. -/
def recordIn (domain : Domain A S) (options : Options) (action : A) (state : Disjunction S)
    (predecessor : Option ItemId) :
    List (ScopeExit A S) → Except Error (Option (ExitChange A S) × List (ScopeExit A S))
  | [] =>
    let exit : ScopeExit A S := ⟨action, state, predecessor, 0⟩
    .ok (some ⟨exit, true, false⟩, [exit])
  | exit :: rest =>
    if exit.action = action then
      if state.isSubset exit.state then .ok (none, exit :: rest)
      else do
        let change ← grow domain options exit state
        return (some change, change.exit :: rest)
    else do
      let (change, rest) ← recordIn domain options action state predecessor rest
      return (change, exit :: rest)

/-- Record that the activation at a layer left its scope by `action` with `state`. -/
def record (m : Exits A S) (domain : Domain A S) (options : Options) (layer : LayerId)
    (action : A) (state : Disjunction S) (predecessor : Option ItemId) :
    Except Error (Option (ExitChange A S) × Exits A S) := do
  let activation := m.activation layer
  let (change, exits) ← recordIn domain options action state predecessor activation.exits
  return (change, ⟨m.activations.insert layer { activation with exits := exits }⟩)

end Exits

end Interproc
