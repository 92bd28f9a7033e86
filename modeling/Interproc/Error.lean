/-
  Interproc.Error
  ───────────────
  What can go wrong, each cause a constructor of its own, and the one place where
  a cause is put into words (`Error.message`).
-/
import Interproc.Text.Inspect

namespace Interproc

/-- The parts an engine cannot do without. -/
inductive Part where
  | transitions
  | domain
  | declarations
  | loops
  | options
  deriving Repr, DecidableEq

/-- The name of a part in messages. -/
def Part.name : Part → String
  | .transitions => "transition provider"
  | .domain => "abstract domain"
  | .declarations => "variable provider"
  | .loops => "loop detector"
  | .options => "options"

/-- The two bounds of an analysis that have no default. -/
inductive Limit where
  | unwindings
  | parallelStates
  deriving Repr, DecidableEq

/-- The name of a bound in messages and documents. -/
def Limit.name : Limit → String
  | .unwindings => "max_unwindings"
  | .parallelStates => "max_parallel_states"

/-- Why a configuration is refused. -/
inductive Misconfiguration where
  /-- A part was not given. -/
  | missing (part : Part)
  /-- A bound was not set. -/
  | unset (limit : Limit)
  /-- A bound was set to zero. -/
  | zero (limit : Limit)
  deriving Repr, DecidableEq

/-- The wording of a refused configuration. -/
def Misconfiguration.message : Misconfiguration → String
  | .missing part => "no " ++ part.name ++ " given"
  | .unset limit => limit.name ++ " is not set"
  | .zero limit => limit.name ++ " must be greater than zero"

/-- Causes of failure. -/
inductive Error where
  /-- The configuration is refused. -/
  | misconfigured (cause : Misconfiguration)
  /-- The timer stopped the computation. -/
  | cancelled (iterations : Nat)
  /-- A computation was asked for without a location to start from. -/
  | noStartLocations
  /-- The abstract domain refused to answer. -/
  | domain (reason : String)
  /-- No layer has this position. -/
  | layerNotFound (index : Nat)
  /-- No live item has this position. -/
  | itemNotFound (index : Nat)
  /-- The graph has no such vertex. -/
  | vertexNotFound (index : Nat)
  /-- The graph has no such edge. -/
  | edgeNotFound (head tail : Nat)
  /-- The graph has a vertex of this index already. -/
  | duplicateVertex
  /-- The graph has an edge between these vertices already. -/
  | duplicateEdge
  /-- The program has a procedure of this name already. -/
  | duplicateProcedure (name : String)
  /-- The program has no procedure of this name. -/
  | unknownProcedure (name : String)
  /-- A transition may not cross from one procedure into another. -/
  | differentProcedures (head tail : Nat)
  /-- A document is no JSON, or not of the shape asked for. -/
  | malformedJson
  /-- Any other reason, given by a client. -/
  | other (reason : String)
  deriving Repr, DecidableEq

/-- The wording of a failure. -/
def Error.message : Error → String
  | .misconfigured cause => "Invalid configuration: " ++ cause.message
  | .cancelled iterations =>
    "Fixpoint computation cancelled after " ++ toString iterations ++ " iterations"
  | .noStartLocations => "No start locations given"
  | .domain reason => "Abstract domain error: " ++ reason
  | .layerNotFound index => "Storage layer " ++ toString index ++ " does not exist"
  | .itemNotFound index => "Worklist item " ++ toString index ++ " does not exist"
  | .vertexNotFound index => "Graph vertex " ++ toString index ++ " not found"
  | .edgeNotFound head tail =>
    "Graph edge (" ++ toString head ++ ", " ++ toString tail ++ ") not found"
  | .duplicateVertex => "duplicate vertex index"
  | .duplicateEdge => "duplicate edge"
  | .duplicateProcedure name => "duplicate procedure " ++ name
  | .unknownProcedure name => "unknown procedure " ++ name
  | .differentProcedures head tail =>
    Text.hex head ++ " and " ++ Text.hex tail ++ " belong to different procedures"
  | .malformedJson => "malformed JSON"
  | .other reason => reason

end Interproc
