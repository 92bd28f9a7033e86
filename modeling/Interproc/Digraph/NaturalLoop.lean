/-
  Interproc.Digraph.NaturalLoop
  ─────────────────────────────
  Back edges, and the natural loops they close.
-/
import Interproc.Digraph.Dominators

namespace Interproc

/-- A natural loop: a header, and every vertex that can reach a back edge into the header without
passing through it. -/
structure NaturalLoop where
  header : Nat
  /-- The vertices of the loop, the header included. -/
  nodes : SortedSet Nat
  deriving DecidableEq

/-- Whether a vertex belongs to the loop. -/
def NaturalLoop.contains (l : NaturalLoop) (index : Nat) : Bool := l.nodes.contains index

instance : ToString NaturalLoop :=
  ⟨fun l => "Loop " ++ Text.hex l.header ++ ": " ++ Text.braced (l.nodes.toList.map Text.hex)⟩

namespace Digraph

variable {V E : Type}

/-- The edges from a reachable vertex to one that dominates it, in order. -/
def backEdges (g : Digraph V E) (root : Nat) : Except Error (List Arc) := do
  let doms ← g.dominators root
  return doms.entries.flatMap fun (v, above) =>
    ((g.successorsOf v).toList.filter above.contains).map fun header => ⟨v, header⟩

/-- Add the vertices of the loop that a back edge closes to those found for its header.  The
search goes against the edges and stops at what was found before, the header first of all. -/
def loopNodes (g : Digraph V E) (found : SortedSet Nat) (arc : Arc) : SortedSet Nat :=
  let withHeader := found.insert arc.tail
  if withHeader.contains arc.head then withHeader
  else absorb g.predecessorsOf g.vertices.size [arc.head] (withHeader.insert arc.head)

/-- The natural loops of the part of the graph that `root` reaches, by increasing header.  Back
edges into one header make one loop. -/
def naturalLoops (g : Digraph V E) (root : Nat) : Except Error (List NaturalLoop) := do
  let arcs ← g.backEdges root
  let loops : SortedMap Nat (SortedSet Nat) := arcs.foldl
    (fun loops arc =>
      loops.insert arc.tail (g.loopNodes ((loops.find? arc.tail).getD .empty) arc)) .empty
  return loops.entries.map fun (header, nodes) => ⟨header, nodes⟩

end Digraph

end Interproc
