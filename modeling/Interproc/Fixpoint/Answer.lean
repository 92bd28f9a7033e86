/-
  Interproc.Fixpoint.Answer
  ─────────────────────────
  The outcome of a finished computation: the states of every layer, what is known
  about calls, and the errors that were reached.
-/
import Interproc.Fixpoint.Counterexample
import Interproc.Fixpoint.Layers
import Interproc.Fixpoint.Statistics

namespace Interproc

/-- The outcome of a finished computation. -/
structure Answer (L A S : Type) where
  layers : Layers L A S
  summaries : Summaries A S
  /-- One execution for each action that reached an error location, oldest first. -/
  counterexamples : List (Counterexample L A S)
  statistics : Statistics

namespace Answer

variable {L A S : Type} [DecidableEq L] [AbstractState S]

/-- Whether an error location was reached. -/
def reachedError (r : Answer L A S) : Bool := !r.counterexamples.isEmpty

/-- The state at a location in the root layer. -/
def rootState (r : Answer L A S) (location : L) : Option (Disjunction S) :=
  r.layers.layers[Layers.root.index]?.bind fun layer => layer.states.find? location

/-- The state at a location in each layer that has one, by position of the layer. -/
def statesAt (r : Answer L A S) (location : L) : List (LayerId × Disjunction S) :=
  r.layers.layers.toList.filterMap fun layer =>
    (layer.states.find? location).map fun state => (layer.id, state)

/-- The join of the states at a location in all layers. -/
def joinedState (r : Answer L A S) (location : L) : Option S :=
  match (r.statesAt location).filterMap fun e => e.2.collapse with
  | [] => none
  | s :: rest => some (rest.foldl join s)

end Answer

end Interproc
