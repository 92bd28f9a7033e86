/-
  Interproc.Program.Flow
  ──────────────────────
  How control flows through a program: calls enter scopes, matching returns leave
  them, and loops are the natural loops of each procedure, in which calls are
  stepped over by their summaries.
-/
import Interproc.Digraph.NaturalLoop
import Interproc.Fixpoint.Engine
import Interproc.Program.Basic

namespace Interproc

variable {T : Type}

/-! ## §1. Scopes. -/

namespace Program

/-- The transitions that may follow one.  A return follows only if it belongs to the call that
entered the current scope. -/
def following (p : Program T) (t : Transition T) (scope : Option (Transition T)) :
    List (Transition T) :=
  (p.outOf t.tail).filter fun next =>
    match next.kind with
    | .ret _ => scope.any next.returnsFrom
    | _ => true

/-- Whether a location is an error; an unknown location is none. -/
def isErrorLocation (p : Program T) (index : Nat) : Bool :=
  (p.node index).toOption.any Node.isError

/-- The transition that stands for a call: the first one out of the call site that stands for
some call. -/
def summaryOf (p : Program T) (t : Transition T) : Option (Transition T) :=
  if t.isCall then (p.outOf t.head).find? Transition.standsForCall else none

/-- The control-flow graph of a program. -/
def transitions (p : Program T) : Transitions Nat (Transition T) where
  actionsFrom := p.outOf
  source := Transition.head
  target := Transition.tail
  following := p.following
  entersScope := Transition.isCall
  leavesScope t scope := scope.any t.returnsFrom
  isError := p.isErrorLocation
  standsForCall := Transition.standsForCall
  summaryOf := p.summaryOf

/-! ## §2. Loops. -/

/-- The graph of all nodes with the transitions that stay inside a procedure. -/
def intraprocedural (p : Program T) : Except Error (Digraph Unit Unit) := do
  let nodes ← p.nodes.foldlM (fun g n => g.insertVertex n.index ()) .empty
  (p.allTransitions.filter Transition.isIntraprocedural).foldlM
    (fun g t => g.insertEdge t.arc ()) nodes

/-- The natural loops of each procedure, by name of the procedure. -/
def procedureLoops (p : Program T) : Except Error (List (String × NaturalLoop)) := do
  let g ← p.intraprocedural
  let loops ← p.procedures.values.mapM fun procedure => do
    return (← g.naturalLoops procedure.entry).map fun l => (procedure.name, l)
  return loops.flatten

end Program

/-- The natural loops of a program, by header. -/
structure LoopTable where
  loops : SortedMap Nat NaturalLoop
  deriving DecidableEq

namespace LoopTable

/-- The table of given loops. -/
def ofLoops (loops : List NaturalLoop) : LoopTable :=
  ⟨loops.foldl (fun table l => table.insert l.header l) .empty⟩

/-- Whether a node is the header of a loop. -/
def isHead (table : LoopTable) (index : Nat) : Bool := table.loops.contains index

/-- Whether a transition leaves the header of a loop for a node inside the loop. -/
def isEntered (table : LoopTable) (t : Transition T) : Bool :=
  t.isIntraprocedural && (table.loops.find? t.head).any fun l => l.contains t.tail

end LoopTable

/-- The natural loops of a program. -/
def Program.loopTable (p : Program T) : Except Error LoopTable := do
  return .ofLoops ((← p.procedureLoops).map Prod.snd)

end Interproc
