/-
  Interproc.Fixpoint.Layers
  ─────────────────────────
  Layered storage of states.  The root layer holds the states of the outermost
  scope, and every entered scope gets a layer of its own below that of its
  caller.  A state written into a layer is merged with the one already there.
-/
import Interproc.Abstract.Disjunction
import Interproc.Collections.Table
import Interproc.Fixpoint.Ids

namespace Interproc

/-- The states of one scope. -/
structure Layer (L A S : Type) where
  id : LayerId
  /-- The layer of the calling scope; the root layer has none. -/
  parent : Option LayerId
  /-- The layers of the scopes entered from this one, oldest first. -/
  children : List LayerId := []
  states : Table L (Disjunction S) := {}
  /-- The entry states of calls out of this layer for which widening reached a fixpoint. -/
  scopeFixpoints : Table A (Disjunction S) := {}

/-- All layers of a computation. -/
structure Layers (L A S : Type) where
  /-- The layers by position, the root layer first. -/
  layers : Array (Layer L A S)
  /-- How many disjuncts are kept for a location. -/
  width : Nat

namespace Layers

variable {L A S : Type}

/-- The position of the root layer. -/
def root : LayerId := ⟨0⟩

/-- A storage with an empty root layer. -/
def empty (width : Nat) : Layers L A S := ⟨#[{ id := root, parent := none }], width⟩

/-- The layer at a position. -/
def layer (m : Layers L A S) (id : LayerId) : Except Error (Layer L A S) :=
  match m.layers[id.index]? with
  | some layer => .ok layer
  | none => .error (.layerNotFound id.index)

/-- Overwrite the layer at a position. -/
def setLayer (m : Layers L A S) (id : LayerId) (layer : Layer L A S) : Layers L A S :=
  { m with layers := m.layers.setIfInBounds id.index layer }

/-- The number of layers, the root layer included. -/
def size (m : Layers L A S) : Nat := m.layers.size

/-- Create a layer below `parent`. -/
def create (m : Layers L A S) (parent : LayerId) : Except Error (LayerId × Layers L A S) := do
  let caller ← m.layer parent
  let id : LayerId := ⟨m.size⟩
  let m := m.setLayer parent { caller with children := caller.children ++ [id] }
  return (id, { m with layers := m.layers.push { id := id, parent := some parent } })

variable [DecidableEq L] [DecidableEq A] [AbstractState S]

/-- The state stored for a location in a layer, if any. -/
def state? (m : Layers L A S) (id : LayerId) (location : L) :
    Except Error (Option (Disjunction S)) := do
  return (← m.layer id).states.find? location

/-- Merge a state into the one stored for a location; also answers the stored state. -/
def addState (m : Layers L A S) (id : LayerId) (location : L) (candidate : Disjunction S) :
    Except Error (Disjunction S × Layers L A S) := do
  let layer ← m.layer id
  let stored := (layer.states.findD location .bottom).merge candidate m.width
  return (stored, m.setLayer id { layer with states := layer.states.insert location stored })

/-- Record that entering the scope of `action` from a layer reached a fixpoint at `state`. -/
def addScopeFixpoint (m : Layers L A S) (id : LayerId) (action : A) (state : Disjunction S) :
    Except Error (Layers L A S) := do
  let layer ← m.layer id
  let recorded := match layer.scopeFixpoints.find? action with
    | some previous => previous.merge state m.width
    | none => state
  return m.setLayer id
    { layer with scopeFixpoints := layer.scopeFixpoints.insert action recorded }

/-- Whether a fixpoint that covers `state` was recorded for entering the scope of `action`. -/
def isScopeFixpoint (m : Layers L A S) (id : LayerId) (action : A) (state : Disjunction S) :
    Except Error Bool := do
  return ((← m.layer id).scopeFixpoints.find? action).any state.isSubset

end Layers

end Interproc
