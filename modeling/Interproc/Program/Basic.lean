/-
  Interproc.Program.Basic
  ───────────────────────
  Programs as interprocedural control-flow graphs.  Nodes belong to named
  procedures, each with one entry and one exit.  A call connects its call site to
  the callee by three transitions:

  * a call from the call site to the callee's entry,
  * a return from the callee's exit to the return site,
  * a summary from the call site straight to the return site.

  A callee without a body is stepped over by a summary alone.
-/
import Interproc.Digraph.Basic

namespace Interproc

/-- A program location. -/
structure Node where
  index : Nat
  /-- The procedure the node belongs to. -/
  procedure : String
  /-- Whether reaching the node is an error. -/
  isError : Bool := false
  comment : Option String := none
  deriving Repr, DecidableEq

instance : ToString Node :=
  ⟨fun n =>
    n.procedure ++ ":" ++ Text.hex n.index ++ (if n.isError then " (error)" else "") ++
    (n.comment.map (" // " ++ ·)).getD ""⟩

/-- How a transition moves between procedures. -/
inductive Kind where
  /-- Within a procedure. -/
  | internal
  /-- From a call site to the callee's entry. -/
  | call
  /-- From a callee's exit to the return site that belongs to a call site. -/
  | ret (callSite : Nat)
  /-- Over a call, from the call site to the return site.  Without an implementation this is the
  only way past the call. -/
  | summary (hasImplementation : Bool)
  deriving Repr, DecidableEq

instance : Inspect Kind :=
  ⟨fun
    | .internal => "Internal"
    | .call => "Call"
    | .ret callSite => Text.record "Return" [("call_site", inspect callSite)]
    | .summary hasImplementation =>
      Text.record "Summary" [("has_implementation", inspect hasImplementation)]⟩

/-- A step from one node to another. -/
structure Transition (T : Type) where
  head : Nat
  tail : Nat
  kind : Kind
  statement : T
  deriving Repr, DecidableEq

namespace Transition

variable {T : Type}

/-- The place of the transition in the graph. -/
def arc (t : Transition T) : Arc := ⟨t.head, t.tail⟩

/-- Whether the transition enters a procedure. -/
def isCall (t : Transition T) : Bool := t.kind = .call

/-- Whether the transition is the return that belongs to a call. -/
def returnsFrom (t call : Transition T) : Bool :=
  match t.kind with
  | .ret callSite => call.isCall && call.head = callSite
  | _ => false

/-- Whether the transition stays inside its procedure. -/
def isIntraprocedural (t : Transition T) : Bool :=
  match t.kind with
  | .internal => true
  | .summary _ => true
  | _ => false

/-- Whether the transition stands for a call whose body is part of the program. -/
def standsForCall (t : Transition T) : Bool := t.kind = .summary true

end Transition

instance {T : Type} [Inspect T] : ToString (Transition T) :=
  ⟨fun t =>
    let kind := match t.kind with
      | .internal => ""
      | .call => "call "
      | .ret callSite => "return@" ++ Text.hex callSite ++ " "
      | .summary _ => "summary "
    "(" ++ Text.hex t.head ++ "->" ++ Text.hex t.tail ++ ") " ++ kind ++ inspect t.statement⟩

instance {T : Type} [Inspect T] : Inspect (Transition T) :=
  ⟨fun t => Text.record "Transition"
    [("head", inspect t.head), ("tail", inspect t.tail), ("kind", inspect t.kind),
      ("statement", inspect t.statement)]⟩

/-- The entry and the exit of a procedure. -/
structure Procedure where
  name : String
  entry : Nat
  exit : Nat
  deriving Repr, DecidableEq

/-- A program whose transitions carry statements of type `T`. -/
structure Program (T : Type) where
  graph : Digraph Node (Transition T) := .empty
  procedures : SortedMap String Procedure := .empty
  /-- The index of the next node. -/
  nextIndex : Nat := 0
  deriving DecidableEq

namespace Program

variable {T : Type}

/-- The program without procedures. -/
def empty : Program T := {}

/-! ## §1. Looking things up. -/

/-- A procedure by name. -/
def procedure (p : Program T) (name : String) : Except Error Procedure :=
  match p.procedures.find? name with
  | some procedure => .ok procedure
  | none => .error (.unknownProcedure name)

/-- A node by index. -/
def node (p : Program T) (index : Nat) : Except Error Node := p.graph.vertex index

/-- All nodes, by index. -/
def nodes (p : Program T) : List Node := p.graph.vertices.values

/-- A transition by the nodes it connects. -/
def transition (p : Program T) (head tail : Nat) : Except Error (Transition T) :=
  p.graph.edge ⟨head, tail⟩

/-- All transitions, by the nodes they connect. -/
def allTransitions (p : Program T) : List (Transition T) := p.graph.edges.values

/-- The transitions out of a node; none if there is no such node. -/
def outOf (p : Program T) (index : Nat) : List (Transition T) :=
  (p.graph.edgesOut index).toOption.getD []

/-- Check that two nodes belong to one procedure. -/
def sameProcedure (p : Program T) (head tail : Nat) : Except Error Unit := do
  let headNode ← p.node head
  let tailNode ← p.node tail
  if headNode.procedure = tailNode.procedure then
    return ()
  else
    throw (.differentProcedures head tail)

end Program

/-! ## §2. Building programs. -/

/-- Steps that build a program.  A step that fails keeps what it did before. -/
abbrev Build (T α : Type) := EStateM Error (Program T) α

namespace Build

variable {T α : Type}

/-- A question to the program built so far. -/
def ask (question : Program T → Except Error α) : Build T α := fun p =>
  match question p with
  | .ok value => .ok value p
  | .error cause => .error cause p

/-- A change of the program's graph. -/
def changeGraph
    (change : Digraph Node (Transition T) → Except Error (Digraph Node (Transition T))) :
    Build T Unit := fun p =>
  match change p.graph with
  | .ok graph => .ok () { p with graph := graph }
  | .error cause => .error cause p

/-- Insert a transition. -/
def insertTransition (t : Transition T) : Build T Unit :=
  changeGraph fun g => g.insertEdge t.arc t

/-- Create the next node. -/
def insertNode (procedure : String) : Build T Nat := do
  let index := (← get).nextIndex
  modify fun p => { p with nextIndex := index + 1 }
  changeGraph fun g => g.insertVertex index { index := index, procedure := procedure }
  return index

/-- Create a procedure with an entry and an exit of its own. -/
def addProcedure (name : String) : Build T Procedure := do
  if (← get).procedures.contains name then
    throw (.duplicateProcedure name)
  else
    let entry ← insertNode name
    let exit ← insertNode name
    let procedure : Procedure := ⟨name, entry, exit⟩
    modify fun p => { p with procedures := p.procedures.insert name procedure }
    return procedure

/-- Create a node of a procedure. -/
def addNode (procedure : String) : Build T Nat := do
  let _ ← ask fun p => p.procedure procedure
  insertNode procedure

/-- Change the data of a node. -/
def changeNode (index : Nat) (change : Node → Node) : Build T Unit := do
  let node ← ask fun p => p.node index
  changeGraph fun g => g.setVertex index (change node)

/-- Mark or unmark a node as an error. -/
def setError (index : Nat) (isError : Bool) : Build T Unit :=
  changeNode index fun node => { node with isError := isError }

/-- Create a node of a procedure that is an error. -/
def addErrorNode (procedure : String) : Build T Nat := do
  let index ← addNode procedure
  setError index true
  return index

/-- Comment on a node. -/
def setComment (index : Nat) (comment : Option String) : Build T Unit :=
  changeNode index fun node => { node with comment := comment }

/-- Connect two nodes of a procedure. -/
def internal (head tail : Nat) (statement : T) : Build T Unit := do
  ask fun p => p.sameProcedure head tail
  insertTransition ⟨head, tail, .internal, statement⟩

/-- Connect a call site and its return site through a call of a procedure. -/
def call (callSite returnSite : Nat) (callee : String) (statement : T) : Build T Unit := do
  ask fun p => p.sameProcedure callSite returnSite
  let procedure ← ask fun p => p.procedure callee
  insertTransition ⟨callSite, procedure.entry, .call, statement⟩
  insertTransition ⟨procedure.exit, returnSite, .ret callSite, statement⟩
  insertTransition ⟨callSite, returnSite, .summary true, statement⟩

/-- Connect a call site and its return site over a call of a procedure without a body. -/
def externalCall (callSite returnSite : Nat) (statement : T) : Build T Unit := do
  ask fun p => p.sameProcedure callSite returnSite
  insertTransition ⟨callSite, returnSite, .summary false, statement⟩

end Build

end Interproc
