/-
  Interproc.Proofs.NaturalLoops
  ─────────────────────────────
  Back edges and natural loops are found as paths define them.  All back edges to one
  header add to one set, and the search for the next one stops at whatever the ones
  before it have found.  Nothing is lost by that: such a set can be left against the
  edges at the header only (`mem_loopNodes`).

  Main results: `backEdges_eq` and `naturalLoops_eq`.
-/
import Mathlib
import Interproc.Proofs.Dominators

namespace Interproc.Digraph

variable {V E : Type} {g : Digraph V E} {root u v w h t : Nat} {arcs : List Arc}

/-! ## §1. Back edges. -/

theorem compare_eq_lt {a b : Arc} :
    compare a b = .lt ↔ a.head < b.head ∨ a.head = b.head ∧ a.tail < b.tail := by
  show (compare a.head b.head).then (compare a.tail b.tail) = .lt ↔ _
  rw [Ordering.then_eq_lt, Nat.compare_eq_lt, Nat.compare_eq_eq, Nat.compare_eq_lt]

/-- The back edges are those of the paths, each listed once and in order. -/
theorem backEdges_eq (hg : g.Consistent) (hroot : g.hasVertex root = true) :
    ∃ arcs, g.backEdges root = .ok arcs ∧ arcs.Pairwise (fun a b => compare a b = .lt) ∧
      ∀ arc, arc ∈ arcs ↔ BackEdge g.Adj root arc.head arc.tail := by
  obtain ⟨-, doms, -, -, hdoms, hlists⟩ := dominators_eq hg hroot
  refine ⟨_, by rw [backEdges, hdoms]; rfl, ?_, fun arc => ?_⟩
  · refine List.pairwise_flatMap.mpr ⟨fun entry _ => ?_, doms.increasing.imp fun {a b} hab => ?_⟩
    · refine List.pairwise_map.mpr (((g.successorsOf entry.1).increasing.filter _).imp ?_)
      intro a b hab
      exact compare_eq_lt.mpr (.inr ⟨rfl, Nat.compare_eq_lt.mp hab⟩)
    · intro x hx y hy
      obtain ⟨_, _, rfl⟩ := List.mem_map.mp hx
      obtain ⟨_, _, rfl⟩ := List.mem_map.mp hy
      exact compare_eq_lt.mpr (.inl (Nat.compare_eq_lt.mp hab))
  · obtain ⟨t, h⟩ := arc
    simp only [List.mem_flatMap, List.mem_map, List.mem_filter, Prod.exists, Arc.mk.injEq,
      SortedSet.contains_iff, SortedSet.mem_toList, hg.mem_successorsOf]
    constructor
    · rintro ⟨v, above, hentry, w, ⟨hstep, hw⟩, rfl, rfl⟩
      have hfind := SortedMap.find?_eq_some_iff.mpr hentry
      have hv := (hlists.contains_iff v).mp (Option.isSome_iff_exists.mpr ⟨above, hfind⟩)
      exact ⟨hstep, hv, (hlists.mem_iff v above hfind w).mp hw⟩
    · rintro ⟨hstep, ht, hdominates⟩
      have hfind := find?_eq_listed ((hlists.contains_iff t).mpr ht)
      exact ⟨t, _, SortedMap.find?_eq_some_iff.mp hfind, h,
        ⟨hstep, (hlists.mem_iff t _ hfind h).mpr hdominates⟩, rfl, rfl⟩

/-! ## §2. The vertices of a loop. -/

/-- A set can be left against the edges at the header only. -/
def ClosedBut (g : Digraph V E) (h : Nat) (found : SortedSet Nat) : Prop :=
  ∀ u w, g.Adj u w → w ∈ found → w ≠ h → u ∈ found

theorem ClosedBut.mem {found : SortedSet Nat} (hclosed : g.ClosedBut h found) (ht : t ∈ found)
    (hv : Bypasses g.Adj h v t) : v ∈ found := by
  obtain ⟨l, p, hl⟩ := hv
  exact p.mem_source hclosed hl ht

/-- The search against the edges adds what reaches its start without passing through the header. -/
theorem mem_absorb_predecessors (hg : g.Consistent) {found : SortedSet Nat}
    (ht : g.hasVertex t = true) (hth : h ≠ t) (hh : h ∈ found) (hclosed : g.ClosedBut h found) :
    v ∈ absorb g.predecessorsOf g.vertices.size [t] (found.insert t) ↔
      v ∈ found ∨ Bypasses g.Adj h v t := by
  have hnext : ∀ u, ∀ w ∈ g.predecessorsOf u, g.hasVertex w = true :=
    fun u w hw => hg.source (hg.mem_predecessorsOf.mp hw)
  have hseen : t ∈ found.insert t := by simp
  have hsearch := absorbs_vertices hnext ht hseen
  have hstart : Bypasses g.Adj h t t := ⟨[t], .here t, by simpa using hth⟩
  constructor
  · intro hv
    have hadded := hsearch.sound (P := fun v => Bypasses g.Adj h v t)
      (fun w hw => (List.mem_singleton.mp hw).symm ▸ hstart)
      (fun w u hw hu hunseen => hw.cons (hg.mem_predecessorsOf.mp hu) ?_) v hv
    · rw [SortedSet.mem_insert] at hadded
      obtain (rfl | hv) | hv := hadded
      · exact .inr hstart
      · exact .inl hv
      · exact .inr hv
    -- The header was found before the search, which therefore never steps on it.
    · rintro rfl
      exact hunseen (by simp [hh])
  · obtain ⟨hkept, hresult⟩ := hsearch.closed (· = h) fun w hw => by
      obtain rfl | hw := SortedSet.mem_insert.mp hw
      · exact .inl List.mem_cons_self
      · by_cases hwh : w = h
        · exact .inr (.inl hwh)
        · refine .inr (.inr fun u hu => SortedSet.mem_insert.mpr (.inr ?_))
          exact hclosed u w (hg.mem_predecessorsOf.mp hu) hw hwh
    rintro (hv | hv)
    · exact hkept v (by simp [hv])
    · refine ClosedBut.mem (fun u w hstep hw hwh => ?_) (hkept t hseen) hv
      exact (hresult w hw).resolve_left hwh u (hg.mem_predecessorsOf.mpr hstep)

/-- A back edge adds the header, and what reaches its source without passing through the header. -/
theorem mem_loopNodes (hg : g.Consistent) {found : SortedSet Nat} (ht : g.hasVertex t = true)
    (hclosed : g.ClosedBut h (found.insert h)) :
    v ∈ g.loopNodes found ⟨t, h⟩ ↔ v ∈ found.insert h ∨ Bypasses g.Adj h v t := by
  unfold loopNodes
  dsimp only
  split
  -- The source was found before, so everything that reaches it was.
  · rename_i hfound
    rw [SortedSet.contains_iff] at hfound
    exact ⟨.inl, fun hv => hv.elim id (hclosed.mem hfound)⟩
  · rename_i hnew
    rw [SortedSet.contains_iff] at hnew
    refine mem_absorb_predecessors hg ht ?_ (by simp) hclosed
    rintro rfl
    exact hnew (by simp)

/-- Some back edges to a header give the header, and what reaches one of their sources without
passing through the header. -/
def Closes (g : Digraph V E) (arcs : List Arc) (h v : Nat) : Prop :=
  v = h ∨ ∃ t, ⟨t, h⟩ ∈ arcs ∧ Bypasses g.Adj h v t

theorem Closes.before (hstep : g.Adj u w) (hw : g.Closes arcs h w) (hwh : w ≠ h) :
    g.Closes arcs h u := by
  by_cases huh : u = h
  · exact .inl huh
  · obtain ⟨t, ht, hw⟩ := hw.resolve_left hwh
    exact .inr ⟨t, ht, hw.cons hstep (Ne.symm huh)⟩

theorem closes_concat :
    g.Closes (arcs ++ [⟨t, h⟩]) h v ↔ g.Closes arcs h v ∨ Bypasses g.Adj h v t := by
  simp [Closes, or_and_right, exists_or, or_assoc]

/-- The loops that some of the back edges close, by header. -/
def loopsOf (g : Digraph V E) (arcs : List Arc) : SortedMap Nat (SortedSet Nat) :=
  arcs.foldl
    (fun loops arc =>
      loops.insert arc.tail (g.loopNodes ((loops.find? arc.tail).getD .empty) arc)) .empty

/-- What was found for a header after some back edges is what those back edges give. -/
theorem find?_loopsOf (hg : g.Consistent) (harcs : ∀ arc ∈ arcs, g.hasVertex arc.head = true)
    (h : Nat) : ((g.loopsOf arcs).contains h = true ↔ ∃ t, ⟨t, h⟩ ∈ arcs) ∧
      (∀ v, v ∈ (((g.loopsOf arcs).find? h).getD .empty).insert h ↔ g.Closes arcs h v) ∧
      ∀ nodes, (g.loopsOf arcs).find? h = some nodes → h ∈ nodes := by
  -- The last back edge adds to what the ones before it gave for its header, and leaves all other
  -- headers alone.
  induction arcs using List.reverseRecOn with
  | nil => simp [loopsOf, SortedMap.contains, Closes]
  | append_singleton arcs arc ih =>
    obtain ⟨t, k⟩ := arc
    have hlast : g.loopsOf (arcs ++ [⟨t, k⟩]) = (g.loopsOf arcs).insert k
        (g.loopNodes (((g.loopsOf arcs).find? k).getD .empty) ⟨t, k⟩) := by
      unfold loopsOf
      rw [List.foldl_append]
      rfl
    obtain ⟨hcontains, hmem, hheader⟩ := ih fun arc harc => harcs arc (List.mem_append_left _ harc)
    rw [hlast, SortedMap.contains, SortedMap.find?_insert]
    by_cases hk : h = k
    · subst hk
      have hnodes : ∀ v, v ∈ g.loopNodes (((g.loopsOf arcs).find? h).getD .empty) ⟨t, h⟩ ↔
          g.Closes (arcs ++ [⟨t, h⟩]) h v := by
        intro v
        rw [mem_loopNodes hg (harcs ⟨t, h⟩ (by simp)), hmem, closes_concat]
        intro u w hstep hw hwh
        rw [hmem] at hw ⊢
        exact hw.before hstep hwh
      rw [if_pos rfl, Option.getD_some]
      refine ⟨by simp, fun v => ?_, fun nodes hsome => ?_⟩
      · rw [SortedSet.mem_insert, hnodes]
        exact or_iff_right_of_imp .inl
      · cases hsome
        exact (hnodes h).mpr (.inl rfl)
    · have hother : ∀ s, ⟨s, h⟩ ∈ arcs ++ [⟨t, k⟩] ↔ (⟨s, h⟩ : Arc) ∈ arcs := by
        intro s
        simp [hk]
      rw [if_neg hk]
      simp only [Closes, hother]
      exact ⟨hcontains, hmem, hheader⟩

/-! ## §3. Natural loops. -/

/-- The loops that were found are the natural loops, by increasing header. -/
structure ListsLoops (R : Nat → Nat → Prop) (root : Nat) (loops : List NaturalLoop) : Prop where
  increasing : (loops.map NaturalLoop.header).Pairwise (· < ·)
  header_iff : ∀ h, (∃ l ∈ loops, l.header = h) ↔ ∃ t, BackEdge R root t h
  mem_nodes_iff : ∀ l ∈ loops, ∀ v, v ∈ l.nodes ↔ InLoop R root l.header v

theorem naturalLoops_eq (hg : g.Consistent) (hroot : g.hasVertex root = true) :
    ∃ loops, g.naturalLoops root = .ok loops ∧ ListsLoops g.Adj root loops := by
  obtain ⟨arcs, hbackEdges, -, harcs⟩ := backEdges_eq hg hroot
  have hloops := find?_loopsOf hg fun arc harc => hg.source ((harcs arc).mp harc).step
  have hsources : ∀ h, (∃ t, ⟨t, h⟩ ∈ arcs) ↔ ∃ t, BackEdge g.Adj root t h :=
    fun h => exists_congr fun t => harcs ⟨t, h⟩
  refine ⟨(g.loopsOf arcs).entries.map fun entry => ⟨entry.1, entry.2⟩, ?_, ?_, fun h => ?_, ?_⟩
  · rw [naturalLoops, hbackEdges]
    rfl
  · rw [List.map_map]
    refine List.pairwise_map.mpr ((g.loopsOf arcs).increasing.imp fun {a b} hab => ?_)
    exact Nat.compare_eq_lt.mp hab
  · rw [← hsources, ← (hloops h).1, ← SortedMap.mem_keys, SortedMap.keys]
    simp
  · intro l hl v
    obtain ⟨⟨h, nodes⟩, hentry, rfl⟩ := List.mem_map.mp hl
    have hfind := SortedMap.find?_eq_some_iff.mpr hentry
    obtain ⟨-, hmem, hheader⟩ := hloops h
    have hmem := hmem v
    rw [hfind, Option.getD_some, SortedSet.mem_insert,
      or_iff_right_of_imp fun hv => hv.symm ▸ hheader nodes hfind] at hmem
    exact hmem.trans (or_congr_right (exists_congr fun t => and_congr_left fun _ => harcs ⟨t, h⟩))

theorem naturalLoops_eq_error (hroot : g.hasVertex root = false) :
    g.naturalLoops root = .error (.vertexNotFound root) := by
  unfold naturalLoops backEdges
  rw [dominators_eq_error hroot]
  rfl

theorem ListsLoops.eq_of_header_eq {R : Nat → Nat → Prop} {loops : List NaturalLoop}
    {l l' : NaturalLoop} (hloops : ListsLoops R root loops) (hl : l ∈ loops) (hl' : l' ∈ loops)
    (hheader : l.header = l'.header) : l = l' :=
  List.inj_on_of_nodup_map (hloops.increasing.imp Nat.ne_of_lt) hl hl' hheader

/-- In a graph put together by changes, for a root that is there,

* the back edges are the edges from what the root reaches to what dominates it, each listed once;
* there is one loop for each target of back edges, by increasing header;
* the vertices of a loop are the header, and what has a path to the source of a back edge to the
  header that does not pass through the header. -/
theorem naturalLoops_iff_paths (hg : g.Built) (hroot : g.hasVertex root = true) :
    ∃ arcs loops, g.backEdges root = .ok arcs ∧ g.naturalLoops root = .ok loops ∧
      arcs.Pairwise (fun a b => compare a b = .lt) ∧
      (∀ t h, ⟨t, h⟩ ∈ arcs ↔
        g.Adj t h ∧ Reaches g.Adj root t ∧ Dominates g.Adj root h t) ∧
      (loops.map NaturalLoop.header).Pairwise (· < ·) ∧
      (∀ h, (∃ l ∈ loops, l.header = h) ↔ ∃ t, ⟨t, h⟩ ∈ arcs) ∧
      ∀ l ∈ loops, ∀ v, v ∈ l.nodes ↔ v = l.header ∨
        ∃ t, ⟨t, l.header⟩ ∈ arcs ∧ ∃ visited, Path g.Adj v visited t ∧ l.header ∉ visited := by
  obtain ⟨arcs, hbackEdges, hordered, harcs⟩ := backEdges_eq hg.consistent hroot
  obtain ⟨loops, hnaturalLoops, hloops⟩ := naturalLoops_eq hg.consistent hroot
  refine ⟨arcs, loops, hbackEdges, hnaturalLoops, hordered, fun t h => ?_, hloops.increasing,
    fun h => ?_, fun l hl v => ?_⟩
  · rw [harcs]
    exact ⟨fun hback => ⟨hback.step, hback.reached, hback.dominates⟩,
      fun ⟨hstep, hreached, hdominates⟩ => ⟨hstep, hreached, hdominates⟩⟩
  · rw [hloops.header_iff]
    exact exists_congr fun t => (harcs ⟨t, h⟩).symm
  · rw [hloops.mem_nodes_iff l hl]
    exact or_congr_right (exists_congr fun t => and_congr_left fun _ => (harcs ⟨t, _⟩).symm)

/-- Two back edges to vertex 1, of which the second goes round an inner loop, a vertex 4 with an
edge to itself, and a vertex 6 that nothing leads to. -/
def innerLoops : List (Change Unit Unit) :=
  [.vertex 0 (), .vertex 1 (), .vertex 2 (), .vertex 3 (), .vertex 4 (), .vertex 5 (), .vertex 6 (),
    .edge ⟨0, 1⟩ (), .edge ⟨1, 2⟩ (), .edge ⟨2, 1⟩ (), .edge ⟨2, 3⟩ (), .edge ⟨3, 4⟩ (),
    .edge ⟨4, 3⟩ (), .edge ⟨4, 4⟩ (), .edge ⟨4, 1⟩ (), .edge ⟨4, 5⟩ (), .edge ⟨6, 4⟩ ()]

/-- The loops of `innerLoops`. -/
def innerLoopsFound : List NaturalLoop :=
  [⟨1, .ofList [1, 2, 3, 4, 6]⟩, ⟨3, .ofList [3, 4, 6]⟩, ⟨4, .ofList [4]⟩]

set_option maxRecDepth 100000 in
/-- Vertex 6 leads to the source of a back edge to vertex 1 past that vertex, although it is not
reached.  Vertex 5 does not. -/
theorem naturalLoops_iff_paths_innerLoops :
    (ofChanges innerLoops).backEdges 0 = .ok [⟨2, 1⟩, ⟨4, 1⟩, ⟨4, 3⟩, ⟨4, 4⟩] ∧
    (ofChanges innerLoops).naturalLoops 0 = .ok innerLoopsFound ∧
    Dominates (ofChanges innerLoops).Adj 0 3 4 ∧
    (∃ t ∈ [2, 4], ∃ visited, Path (ofChanges innerLoops).Adj 6 visited t ∧ 1 ∉ visited) ∧
    ¬∃ t ∈ [2, 4], ∃ visited, Path (ofChanges innerLoops).Adj 5 visited t ∧ 1 ∉ visited := by
  have hroot : (ofChanges innerLoops).hasVertex 0 = true := by decide +kernel
  obtain ⟨arcs, loops, hbackEdges, hloops, -, harcs, -, -, hnodes⟩ :=
    naturalLoops_iff_paths ⟨innerLoops, rfl⟩ hroot
  have harcs' : (ofChanges innerLoops).backEdges 0 = .ok [⟨2, 1⟩, ⟨4, 1⟩, ⟨4, 3⟩, ⟨4, 4⟩] := by
    decide +kernel
  have hloops' : (ofChanges innerLoops).naturalLoops 0 = .ok innerLoopsFound := by decide +kernel
  cases hbackEdges.symm.trans harcs'
  cases hloops.symm.trans hloops'
  have hone := hnodes ⟨1, .ofList [1, 2, 3, 4, 6]⟩ List.mem_cons_self
  refine ⟨harcs', hloops', ((harcs 4 3).mp (by decide)).2.2, ?_, ?_⟩
  · obtain heq | ⟨t, ht, hpath⟩ := (hone 6).mp (by decide)
    · cases heq
    · exact ⟨t, by simpa using ht, hpath⟩
  · rintro ⟨t, ht, hpath⟩
    have hfive := (hone 5).mpr (.inr ⟨t, by simpa using ht, hpath⟩)
    revert hfive
    decide

/-- In a graph put together by changes, natural loops are refused for a root that is not there.
Otherwise the header of each loop dominates all vertices of the loop that the root reaches, and two
loops that share a vertex that the root reaches are nested, as a whole. -/
theorem naturalLoops_nested (hg : g.Built) (root : Nat) :
    (g.hasVertex root = false → g.naturalLoops root = .error (.vertexNotFound root)) ∧
    (g.hasVertex root = true → ∃ loops, g.naturalLoops root = .ok loops ∧
      (∀ l ∈ loops, ∀ v ∈ l.nodes, Reaches g.Adj root v → Dominates g.Adj root l.header v) ∧
      ∀ l ∈ loops, ∀ l' ∈ loops, l ≠ l' →
        (∃ v, v ∈ l.nodes ∧ v ∈ l'.nodes ∧ Reaches g.Adj root v) →
          (∀ w ∈ l.nodes, w ∈ l'.nodes) ∨ ∀ w ∈ l'.nodes, w ∈ l.nodes) := by
  refine ⟨naturalLoops_eq_error, fun hroot => ?_⟩
  obtain ⟨loops, hnaturalLoops, hloops⟩ := naturalLoops_eq hg.consistent hroot
  refine ⟨loops, hnaturalLoops, fun l hl v hv _ => ((hloops.mem_nodes_iff l hl v).mp hv).dominates,
    ?_⟩
  rintro l hl l' hl' hne ⟨v, hv, hv', hreaches⟩
  have hheaders : l.header ≠ l'.header := fun heq => hne (hloops.eq_of_header_eq hl hl' heq)
  rw [hloops.mem_nodes_iff l hl] at hv
  rw [hloops.mem_nodes_iff l' hl'] at hv'
  simp only [hloops.mem_nodes_iff l hl, hloops.mem_nodes_iff l' hl']
  exact hv.nested hv' hreaches hheaders

set_option maxRecDepth 100000 in
/-- Vertices 1 and 3 dominate vertex 4, which their loops share; the loop of vertex 3 is the inner
one, with the vertex 6 that is not reached. -/
theorem naturalLoops_nested_innerLoops :
    (ofChanges innerLoops).naturalLoops 0 = .ok innerLoopsFound ∧
    Dominates (ofChanges innerLoops).Adj 0 1 4 ∧ Dominates (ofChanges innerLoops).Adj 0 3 4 ∧
    ∀ w ∈ SortedSet.ofList [3, 4, 6], w ∈ SortedSet.ofList [1, 2, 3, 4, 6] := by
  obtain ⟨loops, hloops, hdominates, hnested⟩ :=
    (naturalLoops_nested ⟨innerLoops, rfl⟩ 0).2 (by decide +kernel)
  have hloops' : (ofChanges innerLoops).naturalLoops 0 = .ok innerLoopsFound := by decide +kernel
  cases hloops.symm.trans hloops'
  have hone : ⟨1, .ofList [1, 2, 3, 4, 6]⟩ ∈ innerLoopsFound := by simp [innerLoopsFound]
  have hthree : ⟨3, .ofList [3, 4, 6]⟩ ∈ innerLoopsFound := by simp [innerLoopsFound]
  have hfour : Reaches (ofChanges innerLoops).Adj 0 4 := by
    refine ⟨[0, 1, 2, 3, 4], .step (w := 1) ?_ (.step (w := 2) ?_ (.step (w := 3) ?_
      (.step (w := 4) ?_ (.here 4))))⟩ <;> decide +kernel
  refine ⟨hloops', hdominates _ hone 4 (by decide) hfour, hdominates _ hthree 4 (by decide) hfour,
    ?_⟩
  obtain houter | hinner := hnested _ hone _ hthree (by decide)
    ⟨4, by decide, by decide, hfour⟩
  · have := houter 1 (by decide)
    revert this
    decide
  · exact hinner

end Interproc.Digraph
