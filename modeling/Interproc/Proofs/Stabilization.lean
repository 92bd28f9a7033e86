/-
  Interproc.Proofs.Stabilization
  ──────────────────────────────
  Repeated widening of disjunctions of abstract stores, each time by another one.

  A widening collapses what it widens, moves ends of intervals to infinity, and forgets
  variables.  What counts is how many ends are finite: they never get more, since
  intervals only grow, and they get fewer whenever the widened store is not below what
  it was before.  A variable that is forgotten counts as one with two infinite ends, so
  it makes a difference only if it had a finite one.  Collapsing several disjuncts is a
  difference of its own, but once there is a single disjunct there is never more than
  one again.

  Main result: `IntervalState.stabilizes_of_widenings` — from the first disjunction on that
  is not bottom, no more changes happen than its variables and their ends allow.
-/
import Mathlib
import Interproc.Proofs.Approximation
import Interproc.Proofs.Termination

namespace Interproc

/-! ## §1. Falls. -/

/-- A quantity that never rises falls no more often than it is large. -/
theorem encard_falls_le (φ : ℕ → ℕ) {P : ℕ → Prop} {k : ℕ}
    (hle : ∀ n, k ≤ n → φ (n + 1) ≤ φ n) (hlt : ∀ n, k ≤ n → P n → φ (n + 1) < φ n) :
    {n | k ≤ n ∧ P n}.encard ≤ φ k := by
  have hanti : ∀ m n, k ≤ m → m ≤ n → φ n ≤ φ m := by
    intro m n hm hmn
    induction n, hmn using Nat.le_induction with
    | base => exact le_rfl
    | succ n hmn ih => exact (hle n (hm.trans hmn)).trans ih
  have hfalls : ∀ m n, k ≤ m → P m → m < n → φ n < φ m := fun m n hm hP hmn =>
    (hanti (m + 1) n (hm.trans (Nat.le_succ m)) hmn).trans_lt (hlt m hm hP)
  -- The values before the falls differ, and lie between 1 and the first one.
  have hmaps : Set.MapsTo φ {n | k ≤ n ∧ P n} (Finset.Icc 1 (φ k) : Finset ℕ) := by
    rintro n ⟨hn, hP⟩
    rw [Finset.mem_coe, Finset.mem_Icc]
    exact ⟨Nat.one_le_of_lt (hlt n hn hP), hanti k n le_rfl hn⟩
  have hinj : Set.InjOn φ {n | k ≤ n ∧ P n} := by
    rintro m ⟨hm, hPm⟩ n ⟨hn, hPn⟩ hmn
    obtain hlt | heq | hgt := lt_trichotomy m n
    · exact absurd hmn (hfalls m n hm hPm hlt).ne'
    · exact heq
    · exact absurd hmn (hfalls n m hn hPn hgt).ne
  calc {n | k ≤ n ∧ P n}.encard
      ≤ ((Finset.Icc 1 (φ k) : Finset ℕ) : Set ℕ).encard := Set.encard_le_encard_of_injOn hmaps hinj
    _ = φ k := by rw [Set.encard_coe_eq_coe_finsetCard, Nat.card_Icc, Nat.add_sub_cancel]

/-! ## §2. Finite ends. -/

namespace Interval

variable {i j : Interval}

/-- How many ends are finite. -/
def finiteEnds (i : Interval) : ℕ :=
  (if i.lo = negInfinity then 0 else 1) + if i.hi = posInfinity then 0 else 1

theorem finiteEnds_le_two (i : Interval) : i.finiteEnds ≤ 2 := by
  unfold finiteEnds
  split_ifs <;> omega

theorem finiteEnds_anti (h : i.isSubset j = true) : j.finiteEnds ≤ i.finiteEnds := by
  have hlo := le_toInt j.lo
  have hhi := toInt_le j.hi
  rw [isSubset_iff] at h
  unfold finiteEnds
  simp only [eq_negInfinity_iff, eq_posInfinity_iff]
  split_ifs <;> omega

theorem top_isSubset_or_lt (i : Interval) :
    top.isSubset i = true ∨ top.finiteEnds < i.finiteEnds := by
  have hneg := toInt_negInfinity
  have hpos := toInt_posInfinity
  rw [isSubset_iff]
  simp only [finiteEnds, top, if_true, eq_negInfinity_iff, eq_posInfinity_iff]
  split_ifs <;> omega

/-- If widening does not leave an interval as it is, a finite end is moved. -/
theorem widen_isSubset_or_lt (i j : Interval) :
    (i.widen j).isSubset i = true ∨ (i.widen j).finiteEnds < i.finiteEnds := by
  have hneg := toInt_negInfinity
  have hpos := toInt_posInfinity
  have hlo := le_toInt j.lo
  have hhi := toInt_le j.hi
  rw [isSubset_iff]
  simp only [finiteEnds, widen, eq_negInfinity_iff, eq_posInfinity_iff, Int64.lt_iff_toInt_lt]
  split_ifs <;> omega

end Interval

namespace IntervalState

variable {V : Finset String} {s t : IntervalState}

/-- How many ends of the intervals of some variables are finite. -/
def finiteEnds (V : Finset String) (s : IntervalState) : ℕ := ∑ x ∈ V, (s.interval x).finiteEnds

theorem finiteEnds_le (V : Finset String) (s : IntervalState) : s.finiteEnds V ≤ 2 * V.card := by
  rw [mul_comm]
  exact Finset.sum_le_card_nsmul V _ 2 fun x _ => (s.interval x).finiteEnds_le_two

theorem finiteEnds_anti (h : s.isSubset t = true) (hs : s.bottom = false) :
    t.finiteEnds V ≤ s.finiteEnds V := by
  obtain ⟨-, hwider⟩ := not_bottom_of_isSubset h hs
  exact Finset.sum_le_sum fun x _ => Interval.finiteEnds_anti (hwider x)

theorem widen_of_not_bottom (hs : s.bottom = false) (t : IntervalState) :
    s.widen t = if t.bottom then s else combine .widen s t := by
  unfold widen
  rw [hs]
  rfl

theorem Over.widen_of_not_bottom (hover : Over V s) (hs : s.bottom = false) (t : IntervalState) :
    Over V (s.widen t) := by
  rw [IntervalState.widen_of_not_bottom hs]
  split
  · exact hover
  · exact hover.combine _

theorem interval_widen_isSubset_or_lt (hs : s.bottom = false) (t : IntervalState) (x : String) :
    ((s.widen t).interval x).isSubset (s.interval x) = true ∨
      ((s.widen t).interval x).finiteEnds < (s.interval x).finiteEnds := by
  rw [widen_of_not_bottom hs]
  split
  · exact .inl (Interval.isSubset_refl _)
  · rw [interval_combine]
    split
    · rename_i i j hi _
      rw [interval, hi]
      exact Interval.widen_isSubset_or_lt i j
    · exact Interval.top_isSubset_or_lt (s.interval x)

/-- If widening does not leave a store as it is, finite ends are lost. -/
theorem widen_isSubset_or_lt (hs : s.bottom = false) (hover : Over V s) (t : IntervalState) :
    (s.widen t).isSubset s = true ∨ (s.widen t).finiteEnds V < s.finiteEnds V := by
  rw [or_iff_not_imp_left, isSubset_iff]
  intro hnot
  obtain ⟨x, hx⟩ : ∃ x, ¬ ((s.widen t).interval x).isSubset (s.interval x) = true := by
    by_contra hall
    exact hnot (.inr ⟨hs, by simpa using hall⟩)
  -- All that is known of other variables is that they may hold anything.
  have hmem : x ∈ V := by
    by_contra hout
    have htop : s.interval x = .top := by
      rw [interval, hover.find?_eq_none hout]
      rfl
    rw [htop] at hx
    exact hx (Interval.isSubset_top _)
  have hwider := (not_bottom_of_isSubset (isSubset_widen s t).1 hs).2
  refine Finset.sum_lt_sum (fun y _ => Interval.finiteEnds_anti (hwider y)) ⟨x, hmem, ?_⟩
  exact (interval_widen_isSubset_or_lt hs t x).resolve_left hx

theorem over_keys (s : IntervalState) : Over s.intervals.keys.toFinset s := fun _ hname =>
  List.mem_toFinset.mpr (SortedMap.mem_keys.mpr hname)

theorem card_keys_le (s : IntervalState) : s.intervals.keys.toFinset.card ≤ tracked s :=
  (List.toFinset_card_le _).trans_eq (List.length_map _)

end IntervalState

/-! ## §3. One widening. -/

namespace Disjunction

variable {V : Finset String} {d d' e : Disjunction IntervalState} {c u : IntervalState}

/-- The join of the disjuncts is not bottom, and constrains no variables but some. -/
def CollapsesOver (V : Finset String) (d : Disjunction IntervalState) : Prop :=
  ∃ c, d.collapse = some c ∧ c.bottom = false ∧ IntervalState.Over V c

/-- How often widening can still make a difference: once for each finite end, and once more if
there are disjuncts to be joined. -/
def slack (V : Finset String) (d : Disjunction IntervalState) : ℕ :=
  d.collapse.elim 0 (IntervalState.finiteEnds V) + if d.states.length ≤ 1 then 0 else 1

theorem slack_of_collapse (h : d.collapse = some c) :
    d.slack V = c.finiteEnds V + if d.states.length ≤ 1 then 0 else 1 := by
  rw [slack, h]
  rfl

theorem single_of_not_bottom (hu : Interproc.isBottom u = false) : single u = ⟨[u]⟩ := by
  simp [single, add, bottom, hu]

theorem states_of_collapse (h : d.collapse = some c) (hone : d.states.length ≤ 1) :
    d.states = [c] := by
  unfold collapse at h
  split at h
  · cases h
  · rename_i s rest hstates
    rw [hstates, List.length_cons] at hone
    have hrest : rest = [] := List.length_eq_zero_iff.mp (by omega)
    subst hrest
    cases h
    exact hstates

/-- Widening never fails. -/
theorem widen_eq_ok (d e : Disjunction IntervalState) :
    ∃ d', d.widen e IntervalState.domain = .ok d' := by
  have h := widen_yields d e IntervalState.domain
  cases hwiden : d.widen e IntervalState.domain with
  | ok d' => exact ⟨d', rfl⟩
  | error cause =>
    rw [hwiden] at h
    obtain ⟨s, t, -, -, hcause⟩ := h
    cases hcause

/-- What one widening does to the slack: it keeps it or makes it less, and makes it less if the
disjunction is not the same as before. -/
theorem CollapsesOver.widen (h : d.CollapsesOver V)
    (hwiden : d.widen e IntervalState.domain = .ok d') :
    d'.CollapsesOver V ∧ d'.slack V ≤ d.slack V ∧
      (d'.isEquivalent d = false → d'.slack V < d.slack V) := by
  obtain ⟨c, hc, hbottom, hover⟩ := id h
  have hcases := widen_yields d e IntervalState.domain
  rw [hwiden] at hcases
  obtain ⟨hnil, -⟩ | ⟨-, rfl⟩ | ⟨s, t, u, hs, -, hu, rfl⟩ := hcases
  · rw [collapse_eq_none_iff.mpr hnil] at hc
    cases hc
  · -- Nothing to widen by leaves the disjunction, with all its disjuncts.
    refine ⟨h, le_rfl, fun hchanged => ?_⟩
    rw [isEquivalent, isSubset_refl] at hchanged
    cases hchanged
  · rw [hc] at hs
    cases hs
    cases hu
    have habove := (IntervalState.isSubset_widen c t).1
    have hubottom := (IntervalState.not_bottom_of_isSubset habove hbottom).1
    have hfewer := IntervalState.finiteEnds_anti (V := V) habove hbottom
    rw [single_of_not_bottom hubottom]
    have hslack : (⟨[c.widen t]⟩ : Disjunction IntervalState).slack V =
        (c.widen t).finiteEnds V := rfl
    rw [hslack, slack_of_collapse hc]
    refine ⟨⟨c.widen t, rfl, hubottom, hover.widen_of_not_bottom hbottom t⟩,
      hfewer.trans (Nat.le_add_right _ _), fun hchanged => ?_⟩
    split
    · -- The only disjunct was `c`, so the difference is one of stores.
      rename_i hone
      refine (IntervalState.widen_isSubset_or_lt hbottom hover t).resolve_left fun hbelow => ?_
      have hsame : (⟨[c.widen t]⟩ : Disjunction IntervalState).isEquivalent d = true := by
        simp [isEquivalent, isSubset, states_of_collapse hc hone, isBelow, hbelow, habove]
      rw [hsame] at hchanged
      cases hchanged
    · -- There were several disjuncts, and now there is one.
      exact Nat.lt_succ_of_le hfewer

/-- The join of the disjuncts of a disjunction that is not bottom is not bottom. -/
theorem collapsesOver_of_not_bottom (h : d.isBottom = false) :
    ∃ c, d.collapse = some c ∧ d.CollapsesOver c.intervals.keys.toFinset := by
  obtain ⟨s, hs, hsbot⟩ := exists_of_not_isBottom h
  cases hc : d.collapse with
  | none =>
    rw [collapse_eq_none_iff.mp hc] at hs
    cases hs
  | some c =>
    have hcbot : Interproc.isBottom c = false := not_isBottom_of_below (below_collapse hc hs) hsbot
    exact ⟨c, rfl, c, hc, hcbot, c.over_keys⟩

theorem slack_le (h : d.collapse = some c) :
    d.slack c.intervals.keys.toFinset ≤ 2 * Interproc.tracked c + 1 := by
  have hends := c.finiteEnds_le c.intervals.keys.toFinset
  have hcard := c.card_keys_le
  rw [slack_of_collapse h]
  split <;> omega

end Disjunction

/-! ## §4. Chains of widenings. -/

/-- Each disjunction of a chain is the widening of the one before it by some disjunction. -/
def Disjunction.Widenings (x w : ℕ → Disjunction IntervalState) : Prop :=
  ∀ n, (w n).widen (x n) IntervalState.domain = .ok (w (n + 1))

namespace Disjunction

variable {V : Finset String} {x w : ℕ → Disjunction IntervalState} {k n : ℕ}

theorem exists_widenings (d : Disjunction IntervalState) (x : ℕ → Disjunction IntervalState) :
    ∃ w, w 0 = d ∧ Widenings x w := by
  choose widened hwidened using widen_eq_ok
  exact ⟨fun n => n.rec d fun n d => widened d (x n), rfl, fun n => hwidened _ (x n)⟩

theorem Widenings.collapsesOver (h : Widenings x w) (hk : (w k).CollapsesOver V) (hn : k ≤ n) :
    (w n).CollapsesOver V := by
  induction n, hn using Nat.le_induction with
  | base => exact hk
  | succ n _ ih => exact (ih.widen (h n)).1

end Disjunction

/-- Widening covers what it widens and what it widens by, and stabilises.  However often a
disjunction is widened, by whatever disjunctions, from the point on where it is not bottom it changes
at most three times for each variable that the join of its disjuncts constrains there, and once
more. -/
theorem IntervalState.stabilizes_of_widenings :
    (∀ older newer : IntervalState, ∃ u, domain.widen older newer = .ok u ∧
      older.isSubset u = true ∧ newer.isSubset u = true) ∧
    ∀ x : ℕ → Disjunction IntervalState,
      (∀ d, ∃ w, w 0 = d ∧ Disjunction.Widenings x w) ∧
      ∀ w, Disjunction.Widenings x w → ∀ k, (w k).isBottom = false →
        ∃ c, (w k).collapse = some c ∧
          {n | k ≤ n ∧ (w (n + 1)).isEquivalent (w n) = false}.encard ≤
            (3 * tracked c + 1 : ℕ) := by
  refine ⟨fun older newer => ⟨_, rfl, isSubset_widen older newer⟩, fun x =>
    ⟨fun d => Disjunction.exists_widenings d x, fun w hw k hk => ?_⟩⟩
  obtain ⟨c, hc, hcollapses⟩ := Disjunction.collapsesOver_of_not_bottom hk
  refine ⟨c, hc, ?_⟩
  have hstep n (hn : k ≤ n) := (hw.collapsesOver hcollapses hn).widen (hw n)
  have hfalls := encard_falls_le (fun n => (w n).slack c.intervals.keys.toFinset)
    (fun n hn => (hstep n hn).2.1) fun n hn => (hstep n hn).2.2
  -- Two changes for each variable would do, since forgetting it is one only if it moves an end.
  have hslack := Disjunction.slack_le hc
  exact hfalls.trans (Nat.cast_le.mpr (by omega))

namespace Disjunction

/-- Two stores in which only `x` is known. -/
def twoPoints : Disjunction IntervalState := ⟨[xWithin 0 0, xWithin 2 2]⟩

/-- Stores in which `x` may be greater and greater. -/
def climbing (n : ℕ) : Disjunction IntervalState := single (xWithin 0 (Int64.ofNat n))

end Disjunction

set_option maxRecDepth 100000 in
/-- Widening two stores by stores that grow for ever.  The first widening joins the two, which is a
change, and there are at most three others. -/
theorem IntervalState.stabilizes_of_widenings_climbing :
    ∃ w, w 0 = Disjunction.twoPoints ∧ Disjunction.Widenings Disjunction.climbing w ∧
      (w 0).isBottom = false ∧ (w 0).collapse = some (Disjunction.xWithin 0 2) ∧
      (w 1).isEquivalent (w 0) = false ∧
      {n | 0 ≤ n ∧ (w (n + 1)).isEquivalent (w n) = false}.encard ≤ 4 := by
  obtain ⟨-, hchains⟩ := stabilizes_of_widenings
  obtain ⟨hexists, hbound⟩ := hchains Disjunction.climbing
  obtain ⟨w, hw, hchain⟩ := hexists Disjunction.twoPoints
  have hbottom : (w 0).isBottom = false := by
    rw [hw]
    decide +kernel
  have hcollapse : (w 0).collapse = some (Disjunction.xWithin 0 2) := by
    rw [hw]
    decide +kernel
  have hfirst : w 1 = Disjunction.single (Disjunction.xWithin 0 2) := by
    have hwiden := hchain 0
    rw [hw] at hwiden
    exact (Except.ok.inj hwiden).symm.trans (by decide +kernel)
  obtain ⟨c, hc, hle⟩ := hbound w hchain 0 hbottom
  rw [hcollapse] at hc
  cases hc
  refine ⟨w, hw, hchain, hbottom, hcollapse, ?_, hle⟩
  rw [hfirst, hw]
  decide +kernel

end Interproc
