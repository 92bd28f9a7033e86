/-
  Interproc.Digraph.Dominators
  ────────────────────────────
  Reachable vertices and dominators.  A vertex dominates another if every walk
  from the root to the latter passes through it; dominators solve the equations
  `dom v = {v} ∪ ⋂ dom p` over the reachable predecessors `p` of `v`, and are
  found by iterating these equations from above.
-/
import Interproc.Digraph.Basic

namespace Interproc.Digraph

variable {V E : Type}

/-! ## §1. Closures. -/

/-- Add to `seen` whatever the vertices on the stack lead to, visiting at most `n` vertices.
Vertices are put on the stack when they are first seen. -/
def absorb (next : Nat → SortedSet Nat) : Nat → List Nat → SortedSet Nat → SortedSet Nat
  | 0, _, seen => seen
  | _, [], seen => seen
  | n + 1, v :: stack, seen =>
    let fresh := (next v).toList.filter fun w => !seen.contains w
    absorb next n (fresh ++ stack) (fresh.foldl .insert seen)

/-- The vertices that walks from `root` reach, `root` included.  Each vertex is visited once. -/
def reachable (g : Digraph V E) (root : Nat) : Except Error (SortedSet Nat) :=
  if g.hasVertex root then
    .ok (absorb g.successorsOf g.vertices.size [root] (.ofList [root]))
  else .error (.vertexNotFound root)

/-! ## §2. Dominators. -/

/-- Candidates for the dominators of each reachable vertex. -/
abbrev DominatorMap := SortedMap Nat (SortedSet Nat)

/-- The right-hand side of the equation for a vertex. -/
def equation (g : Digraph V E) (doms : DominatorMap) (v : Nat) : SortedSet Nat :=
  match (g.predecessorsOf v).toList.filterMap doms.find? with
  | [] => .ofList [v]
  | d :: rest => (rest.foldl .inter d).insert v

/-- Apply the equation of each vertex once, in increasing order.  The root is dominated by
itself alone. -/
def sweep (g : Digraph V E) (root : Nat) (doms : DominatorMap) : DominatorMap :=
  doms.keys.foldl
    (fun doms v => if v = root then doms else doms.insert v (g.equation doms v)) doms

/-- Sweep until nothing changes, at most `n` times. -/
def settle (g : Digraph V E) (root : Nat) : Nat → DominatorMap → DominatorMap
  | 0, doms => doms
  | n + 1, doms =>
    let swept := g.sweep root doms
    if swept = doms then doms else settle g root n swept

/-- The dominators of every vertex reachable from `root`.  A sweep that changes something makes
a set smaller, which can happen at most once for each pair of vertices. -/
def dominators (g : Digraph V E) (root : Nat) : Except Error DominatorMap := do
  let vertices ← g.reachable root
  let above : DominatorMap := vertices.toList.foldl
    (fun doms v => doms.insert v (if v = root then .ofList [root] else vertices)) .empty
  return g.settle root (above.size * above.size + 1) above

end Interproc.Digraph
