/-
  Interproc.Proofs.Dominators
  ───────────────────────────
  The equations for dominators have their solution in the sets of places that lie on
  every path.  Sweeps start above this solution and come down to it:

    * no sweep takes away a vertex that lies on every path (`Candidates.complete`);
    * a sweep only ever takes vertices away, since what an equation gives is below
      what is there (`Candidates.descending`), so at last nothing changes;
    * once nothing changes, every equation holds, and along each path from the root
      what is listed at its end is found on it (`mem_of_path`).

  Main result: `dominators_eq`.
-/
import Mathlib
import Interproc.Proofs.Digraphs

namespace Interproc.Digraph

variable {V E : Type} {g : Digraph V E} {root u v w d : Nat} {doms doms' : DominatorMap}

/-! ## §1. Equations. -/

/-- The candidates for the dominators of a vertex. -/
def listed (doms : DominatorMap) (v : Nat) : SortedSet Nat := (doms.find? v).getD .empty

theorem listed_of_find? {above : SortedSet Nat} (h : doms.find? v = some above) :
    listed doms v = above := by
  simp [listed, h]

theorem find?_eq_listed (h : doms.contains v = true) : doms.find? v = some (listed doms v) := by
  obtain ⟨above, habove⟩ := Option.isSome_iff_exists.mp h
  rw [listed_of_find? habove, habove]

theorem contains_of_listed (h : d ∈ listed doms v) : doms.contains v = true := by
  by_contra hnone
  simp only [SortedMap.contains, Bool.not_eq_true, Option.isSome_eq_false_iff,
    Option.isNone_iff_eq_none] at hnone
  simp [listed, hnone] at h

theorem mem_foldl_inter {a : Nat} (sets : List (SortedSet Nat)) (s : SortedSet Nat) :
    a ∈ sets.foldl .inter s ↔ a ∈ s ∧ ∀ t ∈ sets, a ∈ t := by
  induction sets generalizing s with
  | nil => simp
  | cons t rest ih => simp [ih, and_assoc]

/-- The equation of a vertex lists the vertex, and what all its predecessors that have candidates
list. -/
theorem mem_equation : d ∈ g.equation doms v ↔ d = v ∨
    ((∃ u ∈ g.predecessorsOf v, doms.contains u = true) ∧
      ∀ u ∈ g.predecessorsOf v, doms.contains u = true → d ∈ listed doms u) := by
  -- The equation meets the sets of those predecessors that have one.
  have hsets : ∀ s, s ∈ (g.predecessorsOf v).toList.filterMap doms.find? ↔
      ∃ u ∈ g.predecessorsOf v, doms.contains u = true ∧ listed doms u = s := by
    intro s
    rw [List.mem_filterMap]
    refine exists_congr fun u => and_congr_right fun _ => ⟨fun h => ?_, ?_⟩
    · exact ⟨Option.isSome_iff_exists.mpr ⟨s, h⟩, listed_of_find? h⟩
    · rintro ⟨hu, rfl⟩
      exact find?_eq_listed hu
  unfold equation
  cases hlist : (g.predecessorsOf v).toList.filterMap doms.find? with
  | nil =>
    have hnone : ¬∃ u ∈ g.predecessorsOf v, doms.contains u = true := by
      rintro ⟨u, hu, hcontains⟩
      have := (hsets _).mpr ⟨u, hu, hcontains, rfl⟩
      rw [hlist] at this
      cases this
    simp [hnone]
  | cons s rest =>
    have hsome : ∃ u ∈ g.predecessorsOf v, doms.contains u = true := by
      obtain ⟨u, hu, hcontains, -⟩ := (hsets s).mp (hlist ▸ List.mem_cons_self)
      exact ⟨u, hu, hcontains⟩
    have hall : (∀ t ∈ s :: rest, d ∈ t) ↔
        ∀ u ∈ g.predecessorsOf v, doms.contains u = true → d ∈ listed doms u := by
      rw [← hlist]
      exact ⟨fun h u hu hcontains => h _ ((hsets _).mpr ⟨u, hu, hcontains, rfl⟩),
        fun h t ht => by
          obtain ⟨u, hu, hcontains, rfl⟩ := (hsets t).mp ht
          exact h u hu hcontains⟩
    rw [SortedSet.mem_insert, mem_foldl_inter, ← List.forall_mem_cons (p := (d ∈ ·)), hall]
    exact or_congr_right ⟨fun h => ⟨hsome, h⟩, fun h => h.2⟩

/-! ## §2. Maps from above the dominators. -/

/-- Two maps list candidates for the same vertices, and the first one lists no others. -/
structure Below (doms' doms : DominatorMap) : Prop where
  contains_eq : ∀ v, doms'.contains v = doms.contains v
  subset : ∀ v, ∀ d ∈ listed doms' v, d ∈ listed doms v

theorem Below.refl (doms : DominatorMap) : Below doms doms := ⟨fun _ => rfl, fun _ _ h => h⟩

theorem Below.trans {doms'' : DominatorMap} (h' : Below doms'' doms') (h : Below doms' doms) :
    Below doms'' doms :=
  ⟨fun v => (h'.contains_eq v).trans (h.contains_eq v),
    fun v d hd => h.subset v d (h'.subset v d hd)⟩

theorem Below.antisymm (h : Below doms' doms) (h' : Below doms doms') : doms' = doms := by
  refine SortedMap.ext_find? fun v => ?_
  have hlisted : listed doms' v = listed doms v :=
    SortedSet.ext_mem fun d => ⟨h.subset v d, h'.subset v d⟩
  cases hcontains : doms.contains v with
  | true =>
    rw [find?_eq_listed hcontains, find?_eq_listed ((h.contains_eq v).trans hcontains), hlisted]
  | false =>
    have hnone := (h.contains_eq v).trans hcontains
    simp only [SortedMap.contains, Option.isSome_eq_false_iff, Option.isNone_iff_eq_none]
      at hcontains hnone
    rw [hcontains, hnone]

/-- The equations of smaller maps list less. -/
theorem Below.equation (h : Below doms' doms) (hd : d ∈ g.equation doms' v) :
    d ∈ g.equation doms v := by
  rw [mem_equation] at hd ⊢
  refine hd.imp_right fun ⟨hsome, hall⟩ => ?_
  simp only [h.contains_eq] at hsome hall
  exact ⟨hsome, fun u hu hcontains => h.subset u d (hall u hu hcontains)⟩

/-- A map from above the dominators. -/
structure Candidates (g : Digraph V E) (root : Nat) (doms : DominatorMap) : Prop where
  keys : ∀ v, doms.contains v = true ↔ Reaches g.Adj root v
  /-- The root is dominated by itself alone. -/
  root_only : ∀ d ∈ listed doms root, d = root
  /-- Whatever is listed is reached. -/
  reached : ∀ v, ∀ d ∈ listed doms v, Reaches g.Adj root d
  /-- Every dominator is listed. -/
  complete : ∀ v, Reaches g.Adj root v → ∀ d, Dominates g.Adj root d v → d ∈ listed doms v
  /-- No equation lists more than is there. -/
  descending : ∀ v, v ≠ root → Reaches g.Adj root v → ∀ d ∈ g.equation doms v, d ∈ listed doms v

theorem listed_insert (above : SortedSet Nat) :
    listed (doms.insert v above) w = if w = v then above else listed doms w := by
  unfold listed
  rw [SortedMap.find?_insert]
  split <;> rfl

/-- Applying the equation of one vertex leads down. -/
theorem Candidates.below_insert (h : Candidates g root doms) (hv : Reaches g.Adj root v)
    (hroot : v ≠ root) : Below (doms.insert v (g.equation doms v)) doms := by
  constructor
  · intro w
    unfold SortedMap.contains
    rw [SortedMap.find?_insert]
    split
    · rename_i hw
      exact (hw ▸ (h.keys v).mpr hv).symm
    · rfl
  · intro w d hd
    rw [listed_insert] at hd
    split at hd
    · rename_i hw
      exact hw ▸ h.descending v hroot hv d hd
    · exact hd

/-- Applying the equation of one vertex takes no dominator away. -/
theorem Candidates.insert (hg : g.Consistent) (h : Candidates g root doms)
    (hv : Reaches g.Adj root v) (hroot : v ≠ root) :
    Candidates g root (doms.insert v (g.equation doms v)) := by
  have hbelow := h.below_insert hv hroot
  constructor
  case keys =>
    intro w
    rw [hbelow.contains_eq, h.keys]
  case root_only => exact fun d hd => h.root_only d (hbelow.subset root d hd)
  case reached => exact fun w d hd => h.reached w d (hbelow.subset w d hd)
  case complete =>
    intro w hw d hd
    rw [listed_insert]
    split
    · rename_i hwv
      subst hwv
      rw [mem_equation]
      by_cases hdw : d = w
      · exact .inl hdw
      -- The vertex is not the root, so some path comes to it through a predecessor, and its
      -- dominators dominate all predecessors that are reached.
      · refine .inr ⟨?_, fun u hu hcontains => ?_⟩
        · obtain ⟨l, p⟩ := hw
          obtain ⟨heq, -⟩ | ⟨u, m, q, hstep, -⟩ := p.last_cases
          · exact absurd heq.symm hroot
          · exact ⟨u, hg.mem_predecessorsOf.mpr hstep, (h.keys u).mpr ⟨m, q⟩⟩
        · exact h.complete u ((h.keys u).mp hcontains) d
            (hd.of_step hdw (hg.mem_predecessorsOf.mp hu))
    · exact h.complete w hw d hd
  case descending =>
    intro w hwroot hw d hd
    have hold := hbelow.equation hd
    rw [listed_insert]
    split
    · rename_i hwv
      exact hwv ▸ hold
    · exact h.descending w hwroot hw d hold

/-! ## §3. Sweeps. -/

/-- A sweep over some of the vertices. -/
def sweepOver (g : Digraph V E) (root : Nat) (vertices : List Nat) (doms : DominatorMap) :
    DominatorMap :=
  vertices.foldl (fun doms v => if v = root then doms else doms.insert v (g.equation doms v)) doms

/-- A sweep leads down to a map that is still above the dominators.  If it changes nothing, all
equations hold. -/
theorem Candidates.sweepOver (hg : g.Consistent) {vertices : List Nat}
    (hvertices : ∀ v ∈ vertices, Reaches g.Adj root v) (h : Candidates g root doms) :
    Candidates g root (g.sweepOver root vertices doms) ∧
      Below (g.sweepOver root vertices doms) doms ∧
      (g.sweepOver root vertices doms = doms →
        ∀ v ∈ vertices, v ≠ root → g.equation doms v = listed doms v) := by
  induction vertices generalizing doms with
  | nil => exact ⟨h, .refl doms, fun _ v hv => absurd hv List.not_mem_nil⟩
  | cons v rest ih =>
    obtain ⟨hv, hrest⟩ := List.forall_mem_cons.mp hvertices
    by_cases hroot : v = root
    · have hskip : g.sweepOver root (v :: rest) doms = g.sweepOver root rest doms :=
        congrArg (g.sweepOver root rest) (if_pos hroot)
      rw [hskip]
      obtain ⟨hcandidates, hbelow, hfixed⟩ := ih hrest h
      refine ⟨hcandidates, hbelow, fun hsame => List.forall_mem_cons.mpr ⟨?_, hfixed hsame⟩⟩
      exact fun hne => absurd hroot hne
    · have hstep : g.sweepOver root (v :: rest) doms =
          g.sweepOver root rest (doms.insert v (g.equation doms v)) :=
        congrArg (g.sweepOver root rest) (if_neg hroot)
      rw [hstep]
      have hdown := h.below_insert hv hroot
      obtain ⟨hcandidates, hbelow, hfixed⟩ := ih hrest (h.insert hg hv hroot)
      refine ⟨hcandidates, hbelow.trans hdown, fun hsame => ?_⟩
      -- The maps in between lie between two equal maps.
      have hinsert : doms.insert v (g.equation doms v) = doms := by
        rw [hsame] at hbelow
        exact hdown.antisymm hbelow
      rw [hinsert] at hsame hfixed
      refine List.forall_mem_cons.mpr ⟨fun _ => ?_, hfixed hsame⟩
      conv_rhs => rw [← hinsert]
      rw [listed_insert, if_pos rfl]

/-- The sweeps of a search for dominators, until nothing changes. -/
inductive Settles (g : Digraph V E) (root : Nat) : DominatorMap → DominatorMap → Prop where
  | done {doms : DominatorMap} (same : g.sweep root doms = doms) : Settles g root doms doms
  | again {doms result : DominatorMap} (changed : g.sweep root doms ≠ doms)
      (rest : Settles g root (g.sweep root doms) result) : Settles g root doms result

/-- The pairs of vertices of which the second is listed for the first. -/
def pairs (vertices : Finset Nat) (doms : DominatorMap) : Finset (Nat × Nat) :=
  (vertices ×ˢ vertices).filter fun pair => pair.2 ∈ listed doms pair.1

/-- There are no more pairs than two keys can be chosen. -/
theorem card_pairs_lt (doms : DominatorMap) :
    (pairs doms.keys.toFinset doms).card < doms.size * doms.size + 1 := by
  refine Nat.lt_succ_of_le ((Finset.card_filter_le _ _).trans ?_)
  rw [Finset.card_product, card_keys]

theorem Candidates.mem_keys (h : Candidates g root doms) (v : Nat) (hv : Reaches g.Adj root v) :
    v ∈ doms.keys.toFinset :=
  List.mem_toFinset.mpr (SortedMap.mem_keys.mpr ((h.keys v).mpr hv))

theorem Candidates.sweep (hg : g.Consistent) (h : Candidates g root doms) :
    Candidates g root (g.sweep root doms) ∧ Below (g.sweep root doms) doms ∧
      (g.sweep root doms = doms → ∀ v, Reaches g.Adj root v → v ≠ root →
        g.equation doms v = listed doms v) := by
  have hkeys : ∀ v, v ∈ doms.keys ↔ Reaches g.Adj root v := fun v => by
    rw [SortedMap.mem_keys, h.keys]
  obtain ⟨hcandidates, hbelow, hfixed⟩ := h.sweepOver hg fun v hv => (hkeys v).mp hv
  exact ⟨hcandidates, hbelow, fun hsame v hv => hfixed hsame v ((hkeys v).mpr hv)⟩

/-- A sweep that changes something takes a pair away. -/
theorem Candidates.pairs_ssubset (hg : g.Consistent) (h : Candidates g root doms)
    {vertices : Finset Nat} (hvertices : ∀ v, Reaches g.Adj root v → v ∈ vertices)
    (hchanged : g.sweep root doms ≠ doms) :
    pairs vertices (g.sweep root doms) ⊂ pairs vertices doms := by
  obtain ⟨-, hbelow, -⟩ := h.sweep hg
  refine Finset.ssubset_iff_subset_ne.mpr ⟨fun pair hpair => ?_, fun heq => hchanged ?_⟩
  · obtain ⟨hmem, hlisted⟩ := Finset.mem_filter.mp hpair
    exact Finset.mem_filter.mpr ⟨hmem, hbelow.subset _ _ hlisted⟩
  · refine hbelow.antisymm ⟨fun v => (hbelow.contains_eq v).symm, fun v d hd => ?_⟩
    have hv : Reaches g.Adj root v := (h.keys v).mp (contains_of_listed hd)
    have hpair : (v, d) ∈ pairs vertices doms := Finset.mem_filter.mpr
      ⟨Finset.mk_mem_product (hvertices v hv) (hvertices d (h.reached v d hd)), hd⟩
    rw [← heq] at hpair
    exact (Finset.mem_filter.mp hpair).2

/-- The bounded sweeps run until nothing changes, if the bound exceeds the number of pairs that are
listed. -/
theorem Candidates.settles (hg : g.Consistent) {vertices : Finset Nat}
    (hvertices : ∀ v, Reaches g.Adj root v → v ∈ vertices) {n : Nat} (h : Candidates g root doms)
    (hn : (pairs vertices doms).card < n) : Settles g root doms (g.settle root n doms) := by
  induction n generalizing doms with
  | zero => exact absurd hn (Nat.not_lt_zero _)
  | succ n ih =>
    unfold settle
    by_cases hsame : g.sweep root doms = doms
    · rw [if_pos hsame]
      exact .done hsame
    · rw [if_neg hsame]
      -- One sweep is spent, and at least one pair is gone.
      have hless := Finset.card_lt_card (h.pairs_ssubset hg hvertices hsame)
      exact .again hsame (ih (h.sweep hg).1 (by omega))

/-! ## §4. Dominators. -/

/-- Sweeps that have come to their end leave a map in which all equations hold. -/
theorem Settles.fixed (hg : g.Consistent) (hsettles : Settles g root doms doms')
    (h : Candidates g root doms) : Candidates g root doms' ∧ ∀ v, Reaches g.Adj root v → v ≠ root →
      g.equation doms' v = listed doms' v := by
  induction hsettles with
  | done same => exact ⟨h, (h.sweep hg).2.2 same⟩
  | again _ _ ih => exact ih (h.sweep hg).1

/-- Where all equations hold, whatever is listed for the end of a path lies on it. -/
theorem mem_of_path (hg : g.Consistent) (h : Candidates g root doms)
    (hfixed : ∀ v, Reaches g.Adj root v → v ≠ root → g.equation doms v = listed doms v)
    {l : List Nat} (p : Path g.Adj root l v) : ∀ d ∈ listed doms v, d ∈ l := by
  refine p.concat_induct (P := fun l v => ∀ d ∈ listed doms v, d ∈ l) ?_ ?_
  · intro d hd
    exact List.mem_singleton.mpr (h.root_only d hd)
  · intro l u v p hstep ih d hd
    -- A path may come back to the root, for which no equation is applied.
    by_cases hv : v = root
    · subst hv
      rw [h.root_only d hd]
      exact List.mem_append_left _ p.source_mem
    · rw [← hfixed v ⟨_, p.concat hstep⟩ hv, mem_equation] at hd
      obtain rfl | ⟨-, hall⟩ := hd
      · exact List.mem_append_right _ List.mem_cons_self
      · have hu := hall u (hg.mem_predecessorsOf.mpr hstep) ((h.keys u).mpr ⟨l, p⟩)
        exact List.mem_append_left _ (ih d hu)

/-- The candidates that the sweeps start from: all vertices that are reached, but for the root
itself alone. -/
def firstCandidates (root : Nat) (vertices : SortedSet Nat) : DominatorMap :=
  vertices.toList.foldl
    (fun doms v => doms.insert v (if v = root then .ofList [root] else vertices)) .empty

theorem find?_firstCandidates {vertices : SortedSet Nat} :
    (firstCandidates root vertices).find? v =
      if v ∈ vertices then some (if v = root then .ofList [root] else vertices) else none :=
  SortedMap.find?_foldl_insert _ _ _

theorem candidates_first {vertices : SortedSet Nat}
    (hvertices : ∀ v, v ∈ vertices ↔ Reaches g.Adj root v) :
    Candidates g root (firstCandidates root vertices) := by
  -- At first all vertices are candidates, except for the root, which only dominates itself.
  have hkeys : ∀ v, (firstCandidates root vertices).contains v = true ↔ Reaches g.Adj root v := by
    intro v
    unfold SortedMap.contains
    rw [find?_firstCandidates, ← hvertices]
    by_cases hv : v ∈ vertices <;> simp [hv]
  have hlisted : ∀ v, Reaches g.Adj root v → listed (firstCandidates root vertices) v =
      if v = root then .ofList [root] else vertices := by
    intro v hv
    rw [listed, find?_firstCandidates, if_pos ((hvertices v).mpr hv)]
    rfl
  have hreached : ∀ v, ∀ d ∈ listed (firstCandidates root vertices) v, Reaches g.Adj root d := by
    intro v d hd
    unfold listed at hd
    rw [find?_firstCandidates] at hd
    split at hd
    · dsimp only [Option.getD_some] at hd
      split at hd
      · rw [SortedSet.mem_ofList, List.mem_singleton] at hd
        exact hd ▸ .refl d
      · exact (hvertices d).mp hd
    · cases hd
  refine ⟨hkeys, ?_, hreached, ?_, ?_⟩
  · intro d hd
    rw [hlisted root (.refl root), if_pos rfl, SortedSet.mem_ofList, List.mem_singleton] at hd
    exact hd
  · intro v hv d hd
    rw [hlisted v hv]
    split
    · rename_i hroot
      exact SortedSet.mem_ofList.mpr (hd [root] (hroot ▸ .here v))
    · exact (hvertices d).mpr (hd.reaches hv)
  · intro v hroot hv d hd
    rw [hlisted v hv, if_neg hroot, hvertices]
    obtain rfl | ⟨⟨u, hu, hcontains⟩, hall⟩ := mem_equation.mp hd
    · exact hv
    · exact hreached u d (hall u hu hcontains)

/-- A map lists the dominators of what the root reaches, and nothing else. -/
structure ListsDominators (R : Nat → Nat → Prop) (root : Nat) (doms : DominatorMap) : Prop where
  contains_iff : ∀ v, doms.contains v = true ↔ Reaches R root v
  mem_iff : ∀ v above, doms.find? v = some above → ∀ d, d ∈ above ↔ Dominates R root d v

theorem ListsDominators.below {R : Nat → Nat → Prop} (h : ListsDominators R root doms)
    (h' : ListsDominators R root doms') : Below doms doms' := by
  constructor
  · intro v
    rw [Bool.eq_iff_iff, h.contains_iff, h'.contains_iff]
  · intro v d hd
    have hv := contains_of_listed hd
    have hv' := (h'.contains_iff v).mpr ((h.contains_iff v).mp hv)
    rw [h'.mem_iff v _ (find?_eq_listed hv')]
    exact (h.mem_iff v _ (find?_eq_listed hv) d).mp hd

/-- There is one such map. -/
theorem ListsDominators.unique {R : Nat → Nat → Prop} (h : ListsDominators R root doms)
    (h' : ListsDominators R root doms') : doms = doms' :=
  (h.below h').antisymm (h'.below h)

theorem ListsDominators.congr {R R' : Nat → Nat → Prop} (h : ListsDominators R root doms)
    (hsame : ∀ u v, Reaches R root u → (R u v ↔ R' u v)) : ListsDominators R' root doms where
  contains_iff v := by
    rw [h.contains_iff]
    exact exists_congr fun l => path_congr hsame
  mem_iff v above habove d := by
    rw [h.mem_iff v above habove]
    exact forall_congr' fun l => imp_congr_left (path_congr hsame)

/-- The bounds do not cut the search for dominators short, and it finds just the vertices on all
paths. -/
theorem dominators_eq (hg : g.Consistent) (hroot : g.hasVertex root = true) :
    ∃ vertices doms, Absorbs g.successorsOf [root] (.ofList [root]) vertices ∧
      Settles g root (firstCandidates root vertices) doms ∧ g.dominators root = .ok doms ∧
      ListsDominators g.Adj root doms := by
  obtain ⟨vertices, hreachable, habsorbs, hvertices⟩ := reachable_eq hg hroot
  have hfirst := candidates_first hvertices
  have hsettles := hfirst.settles hg hfirst.mem_keys (card_pairs_lt _)
  obtain ⟨hcandidates, hfixed⟩ := hsettles.fixed hg hfirst
  refine ⟨vertices, _, habsorbs, hsettles, ?_, hcandidates.keys, fun v above habove d => ?_⟩
  · unfold dominators
    rw [hreachable]
    rfl
  · have hv := (hcandidates.keys v).mp (Option.isSome_iff_exists.mpr ⟨above, habove⟩)
    rw [← listed_of_find? habove]
    exact ⟨fun hd l p => mem_of_path hg hcandidates hfixed p d hd, hcandidates.complete v hv d⟩

theorem dominators_eq_error (hroot : g.hasVertex root = false) :
    g.dominators root = .error (.vertexNotFound root) := by
  unfold dominators reachable
  rw [if_neg (by simp [hroot])]
  rfl

/-- In a graph put together by changes, the dominators for a root

* are refused if there is no such vertex;
* are found otherwise, after finitely many visits and sweeps, whatever their number;
* are given for the vertices that paths from the root reach, and for each of them as the vertices
  that lie on every path from the root, so for the root as the root alone;
* depend on the edges from vertices that the root reaches alone. -/
theorem dominators_iff_dominates (hg : g.Built) (root : Nat) :
    (g.hasVertex root = false → g.dominators root = .error (.vertexNotFound root)) ∧
    (g.hasVertex root = true → ∃ vertices doms,
      Absorbs g.successorsOf [root] (.ofList [root]) vertices ∧
      Settles g root (firstCandidates root vertices) doms ∧
      g.dominators root = .ok doms ∧
      (∀ v, doms.contains v = true ↔ Reaches g.Adj root v) ∧
      (∀ v above, doms.find? v = some above → ∀ d, d ∈ above ↔ Dominates g.Adj root d v) ∧
      doms.find? root = some (.ofList [root]) ∧
      ∀ g' : Digraph V E, g'.Built → g'.hasVertex root = true →
        (∀ u v, Reaches g.Adj root u → (g.Adj u v ↔ g'.Adj u v)) →
          g'.dominators root = .ok doms) := by
  refine ⟨dominators_eq_error, fun hroot => ?_⟩
  obtain ⟨vertices, doms, habsorbs, hsettles, hdoms, hlists⟩ := dominators_eq hg.consistent hroot
  refine ⟨vertices, doms, habsorbs, hsettles, hdoms, hlists.contains_iff, hlists.mem_iff, ?_, ?_⟩
  · have hfind := find?_eq_listed ((hlists.contains_iff root).mpr (.refl root))
    rw [hfind]
    refine congrArg some (SortedSet.ext_mem fun d => ?_)
    rw [hlists.mem_iff root _ hfind, SortedSet.mem_ofList]
    exact ⟨fun h => h [root] (.here root),
      fun h l p => (List.mem_singleton.mp h).symm ▸ p.source_mem⟩
  · intro g' hg' hroot' hsame
    obtain ⟨-, doms', -, -, hdoms', hlists'⟩ := dominators_eq hg'.consistent hroot'
    rw [hdoms', (hlists.congr hsame).unique hlists']

/-- A graph with a cycle of two ways in, a cycle through vertex 0, and a vertex 5 that nothing leads
to.  The last three changes fail. -/
def twoWaysIn : List (Change Unit Unit) :=
  [.vertex 0 (), .vertex 1 (), .vertex 2 (), .vertex 3 (), .vertex 4 (), .vertex 5 (),
    .edge ⟨0, 1⟩ (), .edge ⟨1, 2⟩ (), .edge ⟨1, 3⟩ (), .edge ⟨2, 3⟩ (), .edge ⟨3, 2⟩ (),
    .edge ⟨2, 4⟩ (), .edge ⟨3, 4⟩ (), .edge ⟨4, 0⟩ (), .edge ⟨5, 2⟩ (), .edge ⟨5, 4⟩ (),
    .edge ⟨4, 0⟩ (), .edge ⟨4, 6⟩ (), .vertex 3 ()]

set_option maxRecDepth 100000 in
/-- Neither of the ways into the cycle dominates what comes after it, and another edge from vertex 5
changes nothing. -/
theorem dominators_iff_dominates_twoWaysIn :
    (ofChanges twoWaysIn).dominators 6 = .error (.vertexNotFound 6) ∧
    ((ofChanges twoWaysIn).after (.edge ⟨5, 3⟩ ())).dominators 0 =
      (ofChanges twoWaysIn).dominators 0 ∧
    ¬Reaches (ofChanges twoWaysIn).Adj 0 5 ∧
    (∀ d, Dominates (ofChanges twoWaysIn).Adj 0 d 4 ↔ d ∈ [0, 1, 4]) ∧
    ∀ d, Dominates (ofChanges twoWaysIn).Adj 0 d 0 ↔ d ∈ [0] := by
  have hmissing := (dominators_iff_dominates ⟨twoWaysIn, rfl⟩ 6).1 (by decide +kernel)
  obtain ⟨-, doms, -, -, hdoms, hkeys, hmem, hzero, hsame⟩ :=
    (dominators_iff_dominates ⟨twoWaysIn, rfl⟩ 0).2 (by decide +kernel)
  have hfound : (ofChanges twoWaysIn).dominators 0 = .ok ⟨[(0, .ofList [0]), (1, .ofList [0, 1]),
      (2, .ofList [0, 1, 2]), (3, .ofList [0, 1, 3]), (4, .ofList [0, 1, 4])], by decide⟩ := by
    decide +kernel
  cases hdoms.symm.trans hfound
  have hfive : ¬Reaches (ofChanges twoWaysIn).Adj 0 5 := by
    rw [← hkeys]
    decide
  refine ⟨hmissing, ?_, hfive, fun d => ?_, fun d => ?_⟩
  · rw [hdoms]
    refine hsame _ ⟨twoWaysIn ++ [.edge ⟨5, 3⟩ ()], ?_⟩ (by decide +kernel) fun u v hu => ?_
    · simp [ofChanges]
    · have hu5 : u ≠ 5 := fun h => hfive (h ▸ hu)
      have hafter : (ofChanges twoWaysIn).after (.edge ⟨5, 3⟩ ()) =
          (ofChanges twoWaysIn).withEdge ⟨5, 3⟩ () := by decide +kernel
      rw [hafter, adj_withEdge]
      simp [hu5]
  · rw [← hmem 4 (.ofList [0, 1, 4]) rfl, SortedSet.mem_ofList]
  · rw [← hmem 0 _ hzero, SortedSet.mem_ofList]

end Interproc.Digraph
