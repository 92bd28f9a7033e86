/-
  Interproc.Proofs.Digraphs
  ─────────────────────────
  Graphs put together by insertions, and the search through them.  The neighbours
  that a graph keeps for each vertex are those its edges give, so a search along them
  follows the paths of the graph.  The search keeps a bound on its length; here it is
  also given without one, and the bound turns out never to cut it short.

    * `Built.consistent` — neighbours and edges agree;
    * `absorbs_absorb` — the bounded search runs to its end;
    * `reachable_eq` — it finds just what paths reach.
-/
import Mathlib
import Interproc.Digraph.NaturalLoop
import Interproc.Proofs.Dominance

namespace Interproc.Digraph

variable {V E : Type} {g g' : Digraph V E} {root u v w index : Nat} {arc : Arc}

/-! ## §1. Insertions. -/

/-- An edge leads from one vertex to another. -/
def Adj (g : Digraph V E) (u v : Nat) : Prop := g.edges.contains ⟨u, v⟩ = true

instance (g : Digraph V E) (u v : Nat) : Decidable (g.Adj u v) :=
  inferInstanceAs (Decidable (g.edges.contains ⟨u, v⟩ = true))

/-- The graph with one more vertex. -/
def withVertex (g : Digraph V E) (index : Nat) (v : V) : Digraph V E :=
  { g with
    vertices := g.vertices.insert index v
    successors := g.successors.insert index .empty
    predecessors := g.predecessors.insert index .empty }

/-- The graph with one more edge. -/
def withEdge (g : Digraph V E) (arc : Arc) (e : E) : Digraph V E :=
  { g with
    edges := g.edges.insert arc e
    successors := g.successors.insert arc.head ((g.successorsOf arc.head).insert arc.tail)
    predecessors :=
      g.predecessors.insert arc.tail ((g.predecessorsOf arc.tail).insert arc.head) }

theorem insertVertex_eq_ok {v : V} :
    g.insertVertex index v = .ok g' ↔ g.hasVertex index = false ∧ g.withVertex index v = g' := by
  unfold insertVertex
  cases g.hasVertex index with
  | true => simp
  | false => simp [withVertex]

theorem insertEdge_eq_ok {e : E} : g.insertEdge arc e = .ok g' ↔ ¬g.Adj arc.head arc.tail ∧
    g.hasVertex arc.head = true ∧ g.hasVertex arc.tail = true ∧ g.withEdge arc e = g' := by
  unfold insertEdge Adj
  cases g.edges.contains arc <;> cases g.hasVertex arc.head <;> cases g.hasVertex arc.tail <;>
    simp [withEdge]

theorem setVertex_eq_ok {v : V} : g.setVertex index v = .ok g' ↔ g.hasVertex index = true ∧
    { g with vertices := g.vertices.insert index v } = g' := by
  unfold setVertex
  cases g.hasVertex index <;> simp

theorem hasVertex_withVertex {v : V} :
    (g.withVertex index v).hasVertex u = true ↔ u = index ∨ g.hasVertex u = true := by
  unfold hasVertex withVertex SortedMap.contains
  rw [SortedMap.find?_insert]
  by_cases hu : u = index <;> simp [hu]

theorem adj_withEdge {e : E} :
    (g.withEdge arc e).Adj u v ↔ (u = arc.head ∧ v = arc.tail) ∨ g.Adj u v := by
  unfold Adj withEdge SortedMap.contains
  rw [SortedMap.find?_insert]
  by_cases harc : (⟨u, v⟩ : Arc) = arc
  · simp [← harc]
  · have hends : ¬(u = arc.head ∧ v = arc.tail) := fun ⟨hu, hv⟩ => harc (by rw [hu, hv])
    simp [harc, hends]

/-- The neighbours that a graph keeps for each vertex are those that its edges give, and edges have
both their ends. -/
structure Consistent (g : Digraph V E) : Prop where
  mem_successorsOf : ∀ {u v}, v ∈ g.successorsOf u ↔ g.Adj u v
  mem_predecessorsOf : ∀ {u v}, u ∈ g.predecessorsOf v ↔ g.Adj u v
  source : ∀ {u v}, g.Adj u v → g.hasVertex u = true
  target : ∀ {u v}, g.Adj u v → g.hasVertex v = true

theorem consistent_empty : (empty : Digraph V E).Consistent := by
  constructor <;> simp [Adj, successorsOf, predecessorsOf, empty, SortedMap.contains]

theorem Consistent.withVertex (hg : g.Consistent) (hnew : g.hasVertex index = false) (v : V) :
    (g.withVertex index v).Consistent := by
  -- No edge of the old graph meets the new vertex, which has no neighbours.
  have hsource : ∀ w, ¬g.Adj index w := fun w h =>
    Bool.false_ne_true (hnew.symm.trans (hg.source h))
  have htarget : ∀ w, ¬g.Adj w index := fun w h =>
    Bool.false_ne_true (hnew.symm.trans (hg.target h))
  have hadj : ∀ u w, (g.withVertex index v).Adj u w ↔ g.Adj u w := fun u w => Iff.rfl
  constructor
  · intro u w
    rw [hadj, successorsOf]
    show w ∈ ((g.successors.insert index .empty).find? u).getD .empty ↔ _
    rw [SortedMap.find?_insert]
    split
    · rename_i hu
      simp [hu, hsource]
    · exact hg.mem_successorsOf
  · intro u w
    rw [hadj, predecessorsOf]
    show u ∈ ((g.predecessors.insert index .empty).find? w).getD .empty ↔ _
    rw [SortedMap.find?_insert]
    split
    · rename_i hw
      simp [hw, htarget]
    · exact hg.mem_predecessorsOf
  · exact fun h => hasVertex_withVertex.mpr (.inr (hg.source h))
  · exact fun h => hasVertex_withVertex.mpr (.inr (hg.target h))

theorem Consistent.withEdge (hg : g.Consistent) (hhead : g.hasVertex arc.head = true)
    (htail : g.hasVertex arc.tail = true) (e : E) : (g.withEdge arc e).Consistent := by
  constructor
  · intro u w
    rw [adj_withEdge, successorsOf]
    show w ∈ ((g.successors.insert arc.head _).find? u).getD .empty ↔ _
    rw [SortedMap.find?_insert]
    split
    · rename_i hu
      simp [hu, hg.mem_successorsOf]
    · rename_i hu
      rw [or_iff_right fun h => hu h.1]
      exact hg.mem_successorsOf
  · intro u w
    rw [adj_withEdge, predecessorsOf]
    show u ∈ ((g.predecessors.insert arc.tail _).find? w).getD .empty ↔ _
    rw [SortedMap.find?_insert]
    split
    · rename_i hw
      simp [hw, hg.mem_predecessorsOf]
    · rename_i hw
      rw [or_iff_right fun h => hw h.2]
      exact hg.mem_predecessorsOf
  · intro u w h
    obtain ⟨rfl, -⟩ | h := adj_withEdge.mp h
    · exact hhead
    · exact hg.source h
  · intro u w h
    obtain ⟨-, rfl⟩ | h := adj_withEdge.mp h
    · exact htail
    · exact hg.target h

/-! ## §2. Graphs. -/

/-- A change of a graph. -/
inductive Change (V E : Type) where
  | vertex (index : Nat) (v : V)
  | edge (arc : Arc) (e : E)
  | replacement (index : Nat) (v : V)

/-- What a change makes of a graph. -/
def Change.apply (g : Digraph V E) : Change V E → Except Error (Digraph V E)
  | .vertex index v => g.insertVertex index v
  | .edge arc e => g.insertEdge arc e
  | .replacement index v => g.setVertex index v

/-- The graph after a change, which stays as it is if the change fails. -/
def after (g : Digraph V E) (change : Change V E) : Digraph V E :=
  (change.apply g).toOption.getD g

/-- The graph that a sequence of changes puts together. -/
def ofChanges (changes : List (Change V E)) : Digraph V E := changes.foldl after empty

/-- Graphs put together by changes. -/
def Built (g : Digraph V E) : Prop := ∃ changes, g = ofChanges changes

theorem Consistent.after (hg : g.Consistent) (change : Change V E) :
    (g.after change).Consistent := by
  unfold Digraph.after
  cases hchange : change.apply g with
  | error cause => exact hg
  | ok g' =>
    show g'.Consistent
    cases change with
    | vertex index v =>
      obtain ⟨hnew, rfl⟩ := insertVertex_eq_ok.mp hchange
      exact hg.withVertex hnew v
    | edge arc e =>
      obtain ⟨-, hhead, htail, rfl⟩ := insertEdge_eq_ok.mp hchange
      exact hg.withEdge hhead htail e
    | replacement index v =>
      obtain ⟨-, rfl⟩ := setVertex_eq_ok.mp hchange
      -- Replacing the data of a vertex takes no vertex away.
      have hkeeps : ∀ u, g.hasVertex u = true →
          hasVertex { g with vertices := g.vertices.insert index v } u = true :=
        fun u hu => hasVertex_withVertex.mpr (.inr hu)
      exact ⟨hg.mem_successorsOf, hg.mem_predecessorsOf, fun h => hkeeps _ (hg.source h),
        fun h => hkeeps _ (hg.target h)⟩

/-- What holds of the graph without vertices, and is kept by every change, holds of graphs put
together by changes. -/
theorem Built.induct {P : Digraph V E → Prop} (h : g.Built) (hempty : P empty)
    (hafter : ∀ g change, P g → P (g.after change)) : P g := by
  obtain ⟨changes, rfl⟩ := h
  unfold ofChanges
  induction changes using List.reverseRecOn with
  | nil => exact hempty
  | append_singleton changes change ih =>
    rw [List.foldl_append]
    exact hafter _ change ih

/-- The neighbours and the edges of a graph agree. -/
theorem Built.consistent (h : g.Built) : g.Consistent :=
  h.induct consistent_empty fun _ change hg => hg.after change

/-! ## §3. The search. -/

variable {next : Nat → SortedSet Nat} {stack : List Nat} {seen result : SortedSet Nat}

/-- The neighbours of a vertex that were not seen before. -/
def unseen (next : Nat → SortedSet Nat) (seen : SortedSet Nat) (v : Nat) : List Nat :=
  (next v).toList.filter fun w => !seen.contains w

/-- The search that visits what is on the stack until the stack is empty. -/
inductive Absorbs (next : Nat → SortedSet Nat) :
    List Nat → SortedSet Nat → SortedSet Nat → Prop where
  | done (seen : SortedSet Nat) : Absorbs next [] seen seen
  | visit {v : Nat} {stack : List Nat} {seen result : SortedSet Nat}
      (rest : Absorbs next (unseen next seen v ++ stack) ((unseen next seen v).foldl .insert seen)
        result) : Absorbs next (v :: stack) seen result

theorem mem_unseen : w ∈ unseen next seen v ↔ w ∈ next v ∧ w ∉ seen := by
  simp [unseen, SortedSet.mem_toList, ← SortedSet.contains_iff]

theorem mem_foldl_unseen :
    w ∈ (unseen next seen v).foldl .insert seen ↔ (w ∈ next v ∧ w ∉ seen) ∨ w ∈ seen := by
  rw [SortedSet.mem_foldl_insert, mem_unseen]

/-- What a visit puts on the stack is no longer to be seen. -/
theorem card_unseen (seen : SortedSet Nat) {range : Finset Nat} (hnext : ∀ w ∈ next v, w ∈ range) :
    (unseen next seen v).length +
      (range.filter fun w => w ∉ (unseen next seen v).foldl .insert seen).card ≤
        (range.filter fun w => w ∉ seen).card := by
  have hnodup : (unseen next seen v).Nodup := (next v).nodup.filter _
  have hdisjoint : Disjoint (unseen next seen v).toFinset
      (range.filter fun w => w ∉ (unseen next seen v).foldl .insert seen) := by
    refine Finset.disjoint_left.mpr fun w hw hrest => ?_
    rw [List.mem_toFinset, mem_unseen] at hw
    exact (Finset.mem_filter.mp hrest).2 (mem_foldl_unseen.mpr (.inl hw))
  rw [← List.toFinset_card_of_nodup hnodup, ← Finset.card_union_of_disjoint hdisjoint]
  refine Finset.card_le_card fun w hw => ?_
  rw [Finset.mem_filter]
  obtain hw | hw := Finset.mem_union.mp hw
  · rw [List.mem_toFinset, mem_unseen] at hw
    exact ⟨hnext w hw.1, hw.2⟩
  · obtain ⟨hrange, hrest⟩ := Finset.mem_filter.mp hw
    exact ⟨hrange, fun hseen => hrest (mem_foldl_unseen.mpr (.inr hseen))⟩

/-- The bounded search runs to its end if it may visit all that is on the stack and all that can
still be seen. -/
theorem absorbs_absorb {range : Finset Nat} (hnext : ∀ v, ∀ w ∈ next v, w ∈ range) {n : Nat}
    (hn : stack.length + (range.filter fun w => w ∉ seen).card ≤ n) :
    Absorbs next stack seen (absorb next n stack seen) := by
  induction n generalizing stack seen with
  | zero =>
    obtain rfl : stack = [] := List.eq_nil_of_length_eq_zero (by omega)
    exact .done seen
  | succ n ih =>
    cases stack with
    | nil => exact .done seen
    | cons v stack =>
      refine .visit (ih ?_)
      -- What the visit puts on the stack was counted as unseen, and one vertex is off the stack.
      have hcard := card_unseen seen (hnext v)
      rw [List.length_append]
      rw [List.length_cons] at hn
      omega

/-- What was seen before is part of the result, and the result can be left by a step only at
vertices that `exempt` holds of. -/
theorem Absorbs.closed (h : Absorbs next stack seen result) (exempt : Nat → Prop)
    (hseen : ∀ v ∈ seen, v ∈ stack ∨ exempt v ∨ ∀ w ∈ next v, w ∈ seen) :
    (∀ v ∈ seen, v ∈ result) ∧ ∀ v ∈ result, exempt v ∨ ∀ w ∈ next v, w ∈ result := by
  induction h with
  | done seen => exact ⟨fun _ hv => hv, fun v hv => (hseen v hv).resolve_left List.not_mem_nil⟩
  | @visit v stack seen result _ ih =>
    have hgrows : ∀ w ∈ seen, w ∈ (unseen next seen v).foldl .insert seen :=
      fun w hw => mem_foldl_unseen.mpr (.inr hw)
    have hvisited : ∀ w ∈ next v, w ∈ (unseen next seen v).foldl .insert seen := by
      intro w hw
      by_cases hold : w ∈ seen
      · exact hgrows w hold
      · exact mem_foldl_unseen.mpr (.inl ⟨hw, hold⟩)
    -- The visited vertex is off the stack, but now all its neighbours were seen.
    obtain ⟨hkept, hclosed⟩ := ih fun u hu => by
      obtain hu | hu := mem_foldl_unseen.mp hu
      · exact .inl (List.mem_append_left _ (mem_unseen.mpr hu))
      · obtain hstack | hexempt | hnext := hseen u hu
        · obtain rfl | hstack := List.mem_cons.mp hstack
          · exact .inr (.inr hvisited)
          · exact .inl (List.mem_append_right _ hstack)
        · exact .inr (.inl hexempt)
        · exact .inr (.inr fun w hw => hgrows w (hnext w hw))
    exact ⟨fun w hw => hkept w (hgrows w hw), hclosed⟩

/-- What the search adds has every property that the stack has and that steps to unseen vertices
keep. -/
theorem Absorbs.sound {P : Nat → Prop} (h : Absorbs next stack seen result)
    (hstack : ∀ v ∈ stack, P v) (hstep : ∀ v w, P v → w ∈ next v → w ∉ seen → P w) :
    ∀ v ∈ result, v ∈ seen ∨ P v := by
  induction h with
  | done seen => exact fun v hv => .inl hv
  | @visit v stack seen result _ ih =>
    have hfresh : ∀ w ∈ unseen next seen v, P w := fun w hw =>
      hstep v w (hstack v List.mem_cons_self) (mem_unseen.mp hw).1 (mem_unseen.mp hw).2
    have hstack' : ∀ w ∈ unseen next seen v ++ stack, P w := fun w hw =>
      (List.mem_append.mp hw).elim (hfresh w) fun hw => hstack w (List.mem_cons_of_mem v hw)
    intro u hu
    obtain hu | hu := ih hstack' (fun w x hw hx hnew =>
      hstep w x hw hx fun hold => hnew (mem_foldl_unseen.mpr (.inr hold))) u hu
    · obtain hu | hu := mem_foldl_unseen.mp hu
      · exact .inr (hfresh u (mem_unseen.mpr hu))
      · exact .inl hu
    · exact .inr hu

/-! ## §4. What is reached. -/

theorem card_keys {κ β : Type} [Ord κ] [Std.TransOrd κ] [DecidableEq κ] (m : SortedMap κ β) :
    m.keys.toFinset.card = m.size := by
  rw [List.toFinset_card_of_nodup m.nodup_keys, SortedMap.keys, List.length_map]
  rfl

theorem mem_keys_vertices : v ∈ g.vertices.keys.toFinset ↔ g.hasVertex v = true := by
  rw [List.mem_toFinset, SortedMap.mem_keys]
  rfl

/-- One vertex that was seen, and the vertices that were not, are no more than there are. -/
theorem card_unseen_vertices (hv : g.hasVertex v = true) (hseen : v ∈ seen) :
    [v].length + (g.vertices.keys.toFinset.filter fun w => w ∉ seen).card ≤ g.vertices.size := by
  have hless : (g.vertices.keys.toFinset.filter fun w => w ∉ seen).card <
      g.vertices.keys.toFinset.card :=
    Finset.card_lt_card
      (Finset.filter_ssubset.mpr ⟨v, mem_keys_vertices.mpr hv, not_not.mpr hseen⟩)
  rw [card_keys] at hless
  show 1 + _ ≤ _
  omega

/-- A search for neighbours in a graph may be bounded by the number of vertices if it starts from
one vertex. -/
theorem absorbs_vertices (hnext : ∀ v, ∀ w ∈ next v, g.hasVertex w = true)
    (hv : g.hasVertex v = true) (hseen : v ∈ seen) :
    Absorbs next [v] seen (absorb next g.vertices.size [v] seen) :=
  absorbs_absorb (fun u w hw => mem_keys_vertices.mpr (hnext u w hw))
    (card_unseen_vertices hv hseen)

/-- The search runs to its end, and finds just what paths from the root reach. -/
theorem reachable_eq (hg : g.Consistent) (hroot : g.hasVertex root = true) :
    ∃ vertices, g.reachable root = .ok vertices ∧
      Absorbs g.successorsOf [root] (.ofList [root]) vertices ∧
      ∀ v, v ∈ vertices ↔ Reaches g.Adj root v := by
  have hnext : ∀ u, ∀ w ∈ g.successorsOf u, g.hasVertex w = true :=
    fun u w hw => hg.target (hg.mem_successorsOf.mp hw)
  have hseen : root ∈ SortedSet.ofList [root] := by simp
  have hsearch := absorbs_vertices hnext hroot hseen
  refine ⟨_, if_pos hroot, hsearch, fun v => ⟨fun hv => ?_, ?_⟩⟩
  · obtain hv | hv := hsearch.sound (P := Reaches g.Adj root)
      (fun w hw => (List.mem_singleton.mp hw).symm ▸ .refl root)
      (fun u w hu hw _ => hu.concat (hg.mem_successorsOf.mp hw)) v hv
    · simp only [SortedSet.mem_ofList, List.mem_singleton] at hv
      exact hv.symm ▸ .refl root
    · exact hv
  · rintro ⟨l, p⟩
    obtain ⟨hkept, hclosed⟩ := hsearch.closed (fun _ => False)
      fun u hu => .inl (SortedSet.mem_ofList.mp hu)
    refine p.forall_mem (fun u w hstep hu => ?_) (hkept root hseen) v p.target_mem
    exact (hclosed u hu).resolve_left id w (hg.mem_successorsOf.mpr hstep)

end Interproc.Digraph
