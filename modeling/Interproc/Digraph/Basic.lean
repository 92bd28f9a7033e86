/-
  Interproc.Digraph.Basic
  ───────────────────────
  Directed graphs with numbered vertices and at most one edge from a vertex to
  another.  Besides its edges a graph keeps the neighbours of every vertex in both
  directions, so that walks need no search.
-/
import Interproc.Collections.SortedMap
import Interproc.Collections.SortedSet
import Interproc.Error

namespace Interproc

/-- The place of an edge: it leads from `head` to `tail`. -/
structure Arc where
  head : Nat
  tail : Nat
  deriving Repr, DecidableEq

namespace Arc

/-- Arcs are ordered by where they start, then by where they lead. -/
instance : Ord Arc := ⟨compareLex (compareOn Arc.head) (compareOn Arc.tail)⟩

instance : Std.TransOrd Arc :=
  inferInstanceAs (Std.TransCmp (compareLex (compareOn Arc.head) (compareOn Arc.tail)))

instance : Std.LawfulEqOrd Arc where
  eq_of_compare {a b} h := by
    obtain ⟨hhead, htail⟩ := compareLex_eq_eq.mp h
    cases a
    cases b
    simp only [compareOn, Nat.compare_eq_eq] at hhead htail
    simp [hhead, htail]

end Arc

/-- A directed graph with data of type `V` on vertices and of type `E` on edges. -/
structure Digraph (V E : Type) where
  vertices : SortedMap Nat V := .empty
  edges : SortedMap Arc E := .empty
  /-- Where the edges out of each vertex lead. -/
  successors : SortedMap Nat (SortedSet Nat) := .empty
  /-- Where the edges into each vertex start. -/
  predecessors : SortedMap Nat (SortedSet Nat) := .empty
  deriving DecidableEq

namespace Digraph

variable {V E : Type}

/-- The graph without vertices. -/
def empty : Digraph V E := {}

/-- Whether there is a vertex of this index. -/
def hasVertex (g : Digraph V E) (index : Nat) : Bool := g.vertices.contains index

/-- The successors of a vertex. -/
def successorsOf (g : Digraph V E) (index : Nat) : SortedSet Nat :=
  (g.successors.find? index).getD .empty

/-- The predecessors of a vertex. -/
def predecessorsOf (g : Digraph V E) (index : Nat) : SortedSet Nat :=
  (g.predecessors.find? index).getD .empty

/-- Insert a vertex, which must not be there yet. -/
def insertVertex (g : Digraph V E) (index : Nat) (v : V) : Except Error (Digraph V E) :=
  if g.hasVertex index then .error .duplicateVertex
  else .ok
    { g with
      vertices := g.vertices.insert index v
      successors := g.successors.insert index .empty
      predecessors := g.predecessors.insert index .empty }

/-- Insert an edge, which must not be there yet, between two vertices that are. -/
def insertEdge (g : Digraph V E) (arc : Arc) (e : E) : Except Error (Digraph V E) :=
  if g.edges.contains arc then .error .duplicateEdge
  else if !g.hasVertex arc.head then .error (.vertexNotFound arc.head)
  else if !g.hasVertex arc.tail then .error (.vertexNotFound arc.tail)
  else .ok
    { g with
      edges := g.edges.insert arc e
      successors := g.successors.insert arc.head ((g.successorsOf arc.head).insert arc.tail)
      predecessors :=
        g.predecessors.insert arc.tail ((g.predecessorsOf arc.tail).insert arc.head) }

/-- The data of a vertex. -/
def vertex (g : Digraph V E) (index : Nat) : Except Error V :=
  match g.vertices.find? index with
  | some v => .ok v
  | none => .error (.vertexNotFound index)

/-- Replace the data of a vertex. -/
def setVertex (g : Digraph V E) (index : Nat) (v : V) : Except Error (Digraph V E) :=
  if g.hasVertex index then .ok { g with vertices := g.vertices.insert index v }
  else .error (.vertexNotFound index)

/-- The data of an edge. -/
def edge (g : Digraph V E) (arc : Arc) : Except Error E :=
  match g.edges.find? arc with
  | some e => .ok e
  | none => .error (.edgeNotFound arc.head arc.tail)

/-- The edges out of a vertex, by increasing tail. -/
def edgesOut (g : Digraph V E) (index : Nat) : Except Error (List E) :=
  match g.successors.find? index with
  | some tails => .ok (tails.toList.filterMap fun tail => g.edges.find? ⟨index, tail⟩)
  | none => .error (.vertexNotFound index)

end Digraph

end Interproc
