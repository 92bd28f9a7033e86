/-
  Interproc.Proofs.Concretization
  ───────────────────────────────
  What abstract stores stand for, and that their order and the effect of statements
  on them fit it exactly.

  The least and the greatest end of an interval are infinities and integers alike.
  Still, an interval holds an integer iff its ends enclose the integer once that is
  itself held at the infinities (`Interval.holds_iff`).  So a set of integers lies in
  no smaller interval than one both of whose ends it reaches (`Interval.Reaches`), and
  best approximations are found by showing two integers, one for each end.

  Abstract stores that come from the operations have no empty intervals, and none at
  all if they are bottom (`IntervalState.Tidy`).  Without this nothing here would hold:
  a store with an empty interval contains nothing, but is not below the bottom store.

  Main results: `IntervalState.order_of_built`, `IntervalState.best_of_built`.
-/
import Mathlib
import Interproc.Proofs.Approximation
import Interproc.Proofs.Intervals

namespace Interproc

/-! ## §1. Intervals and integers. -/

namespace Interval

variable {i j : Interval} {v : Int} {V : Set Int}

/-- An interval holds an integer iff its ends enclose the integer, held at the infinities. -/
theorem holds_iff : i.Holds v ↔ i.lo.toInt ≤ (Int64.ofIntClamp v).toInt ∧
    (Int64.ofIntClamp v).toInt ≤ i.hi.toInt := by
  have hlo := toInt_le i.lo
  have hlo' := le_toInt i.lo
  have hhi := toInt_le i.hi
  have hhi' := le_toInt i.hi
  unfold Holds
  rw [eq_negInfinity_iff, eq_posInfinity_iff, toInt_clamp]
  omega

theorem clamp_toInt (a : Int64) : Int64.ofIntClamp a.toInt = a := by
  have hlo := le_toInt a
  have hhi := toInt_le a
  rw [← Int64.toInt_inj, toInt_clamp]
  omega

theorem lo_le_hi (h : i.isEmpty = false) : i.lo.toInt ≤ i.hi.toInt := by
  rw [Bool.eq_false_iff, ne_eq, isEmpty_iff] at h
  omega

theorem holds_lo (h : i.isEmpty = false) : i.Holds i.lo.toInt := by
  rw [holds_iff, clamp_toInt]
  exact ⟨le_rfl, lo_le_hi h⟩

theorem holds_hi (h : i.isEmpty = false) : i.Holds i.hi.toInt := by
  rw [holds_iff, clamp_toInt]
  exact ⟨lo_le_hi h, le_rfl⟩

/-! ## §2. Best intervals. -/

/-- Some of the integers are at each end of the interval or beyond it, as far as ends can tell. -/
def Reaches (i : Interval) (V : Set Int) : Prop :=
  (∃ v ∈ V, (Int64.ofIntClamp v).toInt ≤ i.lo.toInt) ∧
    ∃ v ∈ V, i.hi.toInt ≤ (Int64.ofIntClamp v).toInt

/-- Integers that reach both ends of an interval lie in no smaller one. -/
theorem Reaches.isSubset (h : i.Reaches V) (hj : ∀ v ∈ V, j.Holds v) : i.isSubset j = true := by
  obtain ⟨⟨v, hv, hlo⟩, w, hw, hhi⟩ := h
  have hlower := (holds_iff.mp (hj v hv)).1
  have hupper := (holds_iff.mp (hj w hw)).2
  exact isSubset_iff.mpr ⟨hlower.trans hlo, hhi.trans hupper⟩

theorem reaches_self (h : i.isEmpty = false) : i.Reaches {v | i.Holds v} :=
  ⟨⟨_, holds_lo h, by rw [clamp_toInt]⟩, _, holds_hi h, by rw [clamp_toInt]⟩

theorem reaches_constant (k : Int64) : (constant k).Reaches {k.toInt} :=
  ⟨⟨_, rfl, by rw [clamp_toInt]; exact le_rfl⟩, _, rfl, by rw [clamp_toInt]; exact le_rfl⟩

/-- Sums reach both ends: one that is infinite by sums that are far enough out, and a finite one by
the sum of the end itself, which is held at the infinities as the new end is. -/
theorem reaches_add (h : i.isEmpty = false) (k : Int64) :
    (i.add k).Reaches {w | ∃ v, i.Holds v ∧ w = v + k.toInt} := by
  have hends := lo_le_hi h
  have hlo := le_toInt i.lo
  have hhi := toInt_le i.hi
  unfold Reaches add saturatingAdd
  dsimp only
  constructor
  · split
    · -- Everything below is held, so a sum that is below the least end can be shown.
      rename_i hinfinite
      rw [eq_negInfinity_iff] at hinfinite
      refine ⟨_, ⟨min i.hi.toInt (-9223372036854775808 - k.toInt), holds_iff.mpr ?_, rfl⟩, ?_⟩
      · rw [toInt_clamp]
        omega
      · rw [toInt_clamp, toInt_negInfinity]
        omega
    · exact ⟨_, ⟨_, holds_lo h, rfl⟩, le_rfl⟩
  · split
    · rename_i hinfinite
      rw [eq_posInfinity_iff] at hinfinite
      refine ⟨_, ⟨max i.lo.toInt (9223372036854775807 - k.toInt), holds_iff.mpr ?_, rfl⟩, ?_⟩
      · rw [toInt_clamp]
        omega
      · rw [toInt_clamp, toInt_posInfinity]
        omega
    · exact ⟨_, ⟨_, holds_hi h, rfl⟩, le_rfl⟩

/-- There are integers below the least end.  So an interval that reaches down to it holds integers
that are less than it, and is not left empty by asking for them. -/
theorem reaches_below {k : Int64} (h : (i.meet ⟨negInfinity, saturatingSub k 1⟩).isEmpty = false) :
    (i.meet ⟨negInfinity, saturatingSub k 1⟩).Reaches {v | i.Holds v ∧ v < k.toInt} := by
  have hends := lo_le_hi h
  have hlo := le_toInt i.lo
  have hhi := toInt_le i.hi
  have hk := le_toInt k
  have hk' := toInt_le k
  have hone : (1 : Int64).toInt = 1 := by decide
  simp only [Reaches, Set.mem_ofPred_eq, holds_iff, meet, saturatingSub, toInt_max, toInt_min,
    toInt_negInfinity, toInt_clamp, hone] at hends ⊢
  -- If `k` is the least end, both integers are the one below it.
  exact ⟨⟨min i.lo.toInt (k.toInt - 1), by omega⟩, min i.hi.toInt (k.toInt - 1), by omega⟩

theorem reaches_above {k : Int64} (h : (i.meet ⟨k, posInfinity⟩).isEmpty = false) :
    (i.meet ⟨k, posInfinity⟩).Reaches {v | i.Holds v ∧ k.toInt ≤ v} := by
  have hends := lo_le_hi h
  have hlo := le_toInt i.lo
  have hhi := toInt_le i.hi
  have hk := le_toInt k
  simp only [Reaches, Set.mem_ofPred_eq, holds_iff, meet, toInt_max, toInt_min, toInt_posInfinity,
    toInt_clamp] at hends ⊢
  exact ⟨⟨max i.lo.toInt k.toInt, by omega⟩, i.hi.toInt, by omega⟩

theorem join_comm (i j : Interval) : i.join j = j.join i := by
  unfold join
  congr 1
  · rw [← Int64.toInt_inj, toInt_min, toInt_min, min_comm]
  · rw [← Int64.toInt_inj, toInt_max, toInt_max, max_comm]

theorem join_assoc (i j k : Interval) : (i.join j).join k = i.join (j.join k) := by
  unfold join
  congr 1
  · simp only [← Int64.toInt_inj, toInt_min, min_assoc]
  · simp only [← Int64.toInt_inj, toInt_max, max_assoc]

end Interval

/-! ## §3. Stores that the operations lead to. -/

namespace IntervalState

open Disjunction (xWithin)

variable {s t u : IntervalState} {σ : Store} {x : String} {i : Interval} {v : Int}

/-- The stores that the operations lead to. -/
inductive Built : IntervalState → Prop where
  | unconstrained : Built unconstrained
  | empty : Built empty
  | setVariable {s : IntervalState} (hs : Built s) (x : String) (i : Interval) :
      Built (s.setVariable x i)
  | post {s t : IntervalState} {st : Statement} (hs : Built s) (ht : t ∈ s.post st) : Built t
  | join {s t : IntervalState} (hs : Built s) (ht : Built t) : Built (s.join t)
  | widen {s t : IntervalState} (hs : Built s) (ht : Built t) : Built (s.widen t)

/-- No interval is empty, and there are none in the bottom store. -/
structure Tidy (s : IntervalState) : Prop where
  nonempty {x : String} {i : Interval} : s.intervals.find? x = some i → i.isEmpty = false
  cleared : s.bottom = true → s.intervals = .empty

theorem tidy_unconstrained : Tidy unconstrained := ⟨nofun, nofun⟩

theorem tidy_empty : Tidy empty := ⟨nofun, fun _ => rfl⟩

theorem Tidy.setVariable (hs : s.Tidy) (x : String) (i : Interval) : (s.setVariable x i).Tidy := by
  unfold IntervalState.setVariable
  split
  · exact tidy_empty
  · rename_i hi
    split
    · exact hs
    · rename_i hbottom
      refine ⟨fun {y j} h => ?_, fun h => absurd h hbottom⟩
      rw [SortedMap.find?_insert] at h
      split at h
      · cases h
        exact Bool.eq_false_iff.mpr hi
      · exact hs.nonempty h

theorem Tidy.forget (hs : s.Tidy) (x : String) : (s.forget x).Tidy := by
  refine ⟨fun {y j} h => ?_, fun h => ?_⟩
  · unfold IntervalState.forget at h
    rw [SortedMap.find?_erase] at h
    split at h
    · cases h
    · exact hs.nonempty h
  · show s.intervals.erase x = .empty
    rw [hs.cleared h]
    rfl

theorem Tidy.combine {f : Interval → Interval → Interval}
    (hf : ∀ i j : Interval, i.isSubset (f i j) = true) (hs : s.Tidy) (t : IntervalState) :
    (combine f s t).Tidy := by
  refine ⟨fun {x k} h => ?_, nofun⟩
  rw [find?_combine, Option.map₂_eq_some_iff] at h
  obtain ⟨i, j, hi, -, rfl⟩ := h
  exact Interval.isEmpty_mono (hf i j) (hs.nonempty hi)

theorem Tidy.join (hs : s.Tidy) (ht : t.Tidy) : (s.join t).Tidy := by
  unfold IntervalState.join
  split
  · exact ht
  · split
    · exact hs
    · exact hs.combine Interval.isSubset_join_left t

theorem Tidy.widen (hs : s.Tidy) (ht : t.Tidy) : (s.widen t).Tidy := by
  unfold IntervalState.widen
  split
  · exact ht
  · split
    · exact hs
    · exact hs.combine Interval.isSubset_widen_left t

theorem Tidy.after (hs : s.Tidy) (st : Statement) : (s.after st).Tidy := by
  cases st with
  | nop => exact hs
  | assign x k => exact hs.setVariable x _
  | add x k => exact hs.setVariable x _
  | assumeLessThan x k => exact hs.setVariable x _
  | assumeAtLeast x k => exact hs.setVariable x _
  | assumeFalse => exact tidy_empty
  | havoc x => exact hs.forget x

theorem Built.tidy (h : Built s) : s.Tidy := by
  induction h with
  | unconstrained => exact tidy_unconstrained
  | empty => exact tidy_empty
  | setVariable _ x i ih => exact ih.setVariable x i
  | post _ ht ih =>
    obtain ⟨-, rfl, -⟩ := mem_post_iff.mp ht
    exact ih.after _
  | join _ _ ihs iht => exact ihs.join iht
  | widen _ _ ihs iht => exact ihs.widen iht

theorem Tidy.eq_empty (hs : s.Tidy) (h : s.bottom = true) : s = empty := by
  obtain ⟨bottom, intervals⟩ := s
  have hbottom : bottom = true := h
  have hintervals : intervals = .empty := hs.cleared h
  rw [hbottom, hintervals]
  rfl

/-! ## §4. The order is inclusion. -/

theorem Tidy.interval_nonempty (hs : s.Tidy) (x : String) : (s.interval x).isEmpty = false := by
  unfold interval
  cases hx : s.intervals.find? x with
  | none => exact (Interval.holds_top 0).not_isEmpty
  | some i => exact hs.nonempty hx

theorem Tidy.exists_contains (hs : s.Tidy) (h : s.bottom = false) : ∃ σ, s.Contains σ :=
  ⟨fun x => (s.interval x).lo.toInt, h, fun x => Interval.holds_lo (hs.interval_nonempty x)⟩

/-- A variable may take any value of its interval, whatever the values of the others are. -/
theorem Contains.update (h : s.Contains σ) (hv : (s.interval x).Holds v) :
    s.Contains (Function.update σ x v) := by
  refine ⟨h.1, fun y => ?_⟩
  by_cases hy : y = x
  · rw [hy, Function.update_self]
    exact hv
  · rw [Function.update_of_ne hy]
    exact h.2 y

/-- Inclusion of what stores contain, read off one variable after the other. -/
theorem Tidy.isSubset_of_contains (hs : s.Tidy) (h : ∀ σ, s.Contains σ → t.Contains σ) :
    s.isSubset t = true := by
  rw [isSubset_iff, or_iff_not_imp_left]
  intro hbottom
  obtain ⟨σ, hσ⟩ := hs.exists_contains (Bool.eq_false_iff.mpr hbottom)
  refine ⟨(h σ hσ).1, fun x => ?_⟩
  -- Each value that `x` may have in `s` it has in some store, so it may have it in `t`.
  refine (Interval.reaches_self (hs.interval_nonempty x)).isSubset fun v hv => ?_
  simpa using (h _ (hσ.update hv)).2 x

theorem Tidy.isSubset_iff_contains (hs : s.Tidy) :
    s.isSubset t = true ↔ ∀ σ, s.Contains σ → t.Contains σ :=
  ⟨fun h _ hσ => hσ.mono h, hs.isSubset_of_contains⟩

/-! ## §5. Joins. -/

theorem combine_comm {f : Interval → Interval → Interval} (hf : ∀ i j, f i j = f j i)
    (s t : IntervalState) : combine f s t = combine f t s := by
  have hintervals : (combine f s t).intervals = (combine f t s).intervals :=
    SortedMap.ext_find? fun x => by
      rw [find?_combine, find?_combine]
      exact Option.map₂_comm hf
  exact congrArg (IntervalState.mk false) hintervals

theorem combine_assoc {f : Interval → Interval → Interval}
    (hf : ∀ i j k, f (f i j) k = f i (f j k)) (s t u : IntervalState) :
    combine f (combine f s t) u = combine f s (combine f t u) := by
  have hintervals : (combine f (combine f s t) u).intervals =
      (combine f s (combine f t u)).intervals :=
    SortedMap.ext_find? fun x => by
      rw [find?_combine, find?_combine, find?_combine, find?_combine]
      exact Option.map₂_assoc hf
  exact congrArg (IntervalState.mk false) hintervals

theorem join_of_not_bottom (hs : s.bottom = false) (ht : t.bottom = false) :
    s.join t = combine .join s t := by
  unfold join
  rw [hs, ht]
  rfl

theorem join_of_bottom_left (hs : s.bottom = true) (t : IntervalState) : s.join t = t := by
  unfold join
  rw [hs]
  rfl

theorem join_of_bottom_right (hs : s.bottom = false) (ht : t.bottom = true) : s.join t = s := by
  unfold join
  rw [hs, ht]
  rfl

theorem Tidy.join_comm (hs : s.Tidy) (ht : t.Tidy) : s.join t = t.join s := by
  cases hsbot : s.bottom with
  | true =>
    rw [join_of_bottom_left hsbot]
    cases htbot : t.bottom with
    | true =>
      -- Each join is its right side, and these are equal only because neither has intervals.
      rw [join_of_bottom_left htbot, hs.eq_empty hsbot, ht.eq_empty htbot]
    | false => rw [join_of_bottom_right htbot hsbot]
  | false =>
    cases htbot : t.bottom with
    | true => rw [join_of_bottom_left htbot, join_of_bottom_right hsbot htbot]
    | false =>
      rw [join_of_not_bottom hsbot htbot, join_of_not_bottom htbot hsbot]
      exact combine_comm Interval.join_comm s t

theorem join_assoc (s t u : IntervalState) : (s.join t).join u = s.join (t.join u) := by
  cases hs : s.bottom with
  | true => rw [join_of_bottom_left hs, join_of_bottom_left hs]
  | false =>
    cases ht : t.bottom with
    | true => rw [join_of_bottom_right hs ht, join_of_bottom_left ht]
    | false =>
      rw [join_of_not_bottom hs ht]
      cases hu : u.bottom with
      | true =>
        rw [join_of_bottom_right rfl hu, join_of_bottom_right ht hu, join_of_not_bottom hs ht]
      | false =>
        rw [join_of_not_bottom rfl hu, join_of_not_bottom ht hu, join_of_not_bottom hs rfl]
        exact combine_assoc Interval.join_assoc s t u

/-- The order of the stores that the operations lead to is exact, and joins are what they should be.
One store is below another iff all that it contains is contained in the other.  So the order is a
preorder, in which joins are least upper bounds, and in joins of several stores neither the order
of the stores nor that of the joins makes a difference. -/
theorem order_of_built :
    (∀ s, Built s → s.Tidy) ∧
    ∀ a b c, Built a → Built b → Built c →
      (a.isSubset b = true ↔ ∀ σ, a.Contains σ → b.Contains σ) ∧
      a.isSubset a = true ∧
      (a.isSubset b = true → b.isSubset c = true → a.isSubset c = true) ∧
      a.isSubset (a.join b) = true ∧ b.isSubset (a.join b) = true ∧
      (a.isSubset c = true → b.isSubset c = true → (a.join b).isSubset c = true) ∧
      (a.join b).join c = a.join (b.join c) ∧ a.join b = b.join a := by
  refine ⟨fun s hs => hs.tidy, fun a b c ha hb _ => ?_⟩
  obtain ⟨hleft, hright⟩ := isSubset_join a b
  exact ⟨ha.tidy.isSubset_iff_contains, isSubset_refl a, isSubset_trans, hleft, hright,
    join_isSubset, join_assoc a b c, ha.tidy.join_comm hb.tidy⟩

theorem built_xWithin (lo hi : Int64) : Built (xWithin lo hi) :=
  .setVariable .unconstrained "x" ⟨lo, hi⟩

/-- `x` is at most 5. -/
def atMostFive : IntervalState := xWithin Interval.negInfinity 5

/-- `x` is at least 3, and `y` is known. -/
def atLeastThree : IntervalState := (xWithin 3 Interval.posInfinity).setVariable "y" (.constant 0)

set_option maxRecDepth 100000 in
/-- The join of two half lines has an interval that excludes nothing, not even integers beyond the
ends.  One half line is not below the other, so some store shows the difference. -/
theorem order_of_built_halfLines :
    Built atMostFive ∧ Built atLeastThree ∧
    (∃ σ, atLeastThree.Contains σ ∧ ¬ atMostFive.Contains σ) ∧
    (atMostFive.join atLeastThree).intervals.entries = [("x", .top)] ∧
    (∀ σ, (atMostFive.join atLeastThree).Contains σ) ∧
    atMostFive.join atLeastThree = atLeastThree.join atMostFive := by
  have hfive : Built atMostFive := built_xWithin _ _
  have hthree : Built atLeastThree := .setVariable (built_xWithin _ _) _ _
  have hjoin : Built (atMostFive.join atLeastThree) := .join hfive hthree
  obtain ⟨-, hlaws⟩ := order_of_built
  obtain ⟨hexact, -⟩ := hlaws _ _ _ hthree hfive .empty
  obtain ⟨htop, -⟩ := hlaws _ _ _ .unconstrained hjoin .empty
  obtain ⟨-, -, -, -, -, -, -, hcomm⟩ := hlaws _ _ _ hfive hthree .empty
  refine ⟨hfive, hthree, ?_, by decide +kernel, fun σ => ?_, hcomm⟩
  · have hnot : ¬ atLeastThree.isSubset atMostFive = true := by decide +kernel
    rw [hexact] at hnot
    simpa using hnot
  · exact htop.mp (by decide +kernel) σ (contains_unconstrained σ)

/-! ## §6. Best stores after statements. -/

/-- A store whose variables are as in `s` but for one, which has a best interval for some values, is
the best one for the stores of `s` in which the variable is given these values. -/
theorem Tidy.isSubset_of_updates {V : Set Int} (hs : s.Tidy) (hbottom : s.bottom = false)
    (ht : ∀ y, t.interval y = if y = x then i else s.interval y) (hi : i.Reaches V)
    (hu : ∀ σ, s.Contains σ → ∀ v ∈ V, u.Contains (Function.update σ x v)) :
    t.isSubset u = true := by
  obtain ⟨σ, hσ⟩ := hs.exists_contains hbottom
  obtain ⟨⟨v, hv, -⟩, -⟩ := id hi
  refine isSubset_iff.mpr (.inr ⟨(hu σ hσ v hv).1, fun y => ?_⟩)
  rw [ht]
  split
  · rename_i hy
    subst hy
    refine hi.isSubset fun w hw => ?_
    simpa using (hu σ hσ w hw).2 y
  · -- The value of another variable is free, while the one that is set is kept at `v`.
    rename_i hy
    refine (Interval.reaches_self (hs.interval_nonempty y)).isSubset fun w hw => ?_
    simpa [Function.update_of_ne hy] using (hu _ (hσ.update hw) v hv).2 y

theorem Tidy.setVariable_isSubset {V : Set Int} (hs : s.Tidy) (hbottom : s.bottom = false)
    (hset : (s.setVariable x i).bottom = false) (hi : i.isEmpty = false → i.Reaches V)
    (hu : ∀ σ, s.Contains σ → ∀ v ∈ V, u.Contains (Function.update σ x v)) :
    (s.setVariable x i).isSubset u = true := by
  have hne : i.isEmpty = false := (bottom_setVariable hbottom).symm.trans hset
  refine hs.isSubset_of_updates hbottom (fun y => ?_) (hi hne) hu
  rw [setVariable_eq hbottom hne, interval_insert]

/-- The store after a statement is below all stores that contain what the statement leads to. -/
theorem Tidy.after_isSubset {st : Statement} (hs : s.Tidy) (hbottom : s.bottom = false)
    (hafter : (s.after st).bottom = false)
    (hu : ∀ σ σ', s.Contains σ → st.LeadsTo σ σ' → u.Contains σ') :
    (s.after st).isSubset u = true := by
  cases st with
  | nop => exact hs.isSubset_of_contains fun σ hσ => hu σ σ hσ rfl
  | assign x k =>
    refine hs.setVariable_isSubset hbottom hafter (fun _ => Interval.reaches_constant k) ?_
    rintro σ hσ _ rfl
    exact hu σ _ hσ rfl
  | add x k =>
    refine hs.setVariable_isSubset hbottom hafter
      (fun _ => Interval.reaches_add (hs.interval_nonempty x) k) ?_
    rintro σ hσ _ ⟨v, hv, rfl⟩
    -- The sum is what the statement makes of the store in which the variable is `v`.
    refine hu _ _ (hσ.update hv) ?_
    simp [Statement.LeadsTo]
  | assumeLessThan x k =>
    refine hs.setVariable_isSubset hbottom hafter Interval.reaches_below ?_
    rintro σ hσ v ⟨hv, hlt⟩
    exact hu _ _ (hσ.update hv) ⟨by rwa [Function.update_self], rfl⟩
  | assumeAtLeast x k =>
    refine hs.setVariable_isSubset hbottom hafter Interval.reaches_above ?_
    rintro σ hσ v ⟨hv, hle⟩
    exact hu _ _ (hσ.update hv) ⟨by rwa [Function.update_self], rfl⟩
  | assumeFalse => cases hafter
  | havoc x =>
    have htop : Interval.top.isEmpty = false := (Interval.holds_top 0).not_isEmpty
    refine hs.isSubset_of_updates hbottom (interval_forget s x) (Interval.reaches_self htop) ?_
    exact fun σ hσ v _ => hu σ _ hσ ⟨v, rfl⟩

/-- The effect of statements is the best one that is sound.  Every store to which a statement leads
is contained in an abstract store after it, and every abstract store that contains all of them is
above the ones after the statement.  So there is none exactly if the statement leads nowhere. -/
theorem best_of_built (hs : Built s) (st : Statement) :
    (∀ σ σ', s.Contains σ → st.LeadsTo σ σ' → ∃ t ∈ s.post st, t.Contains σ') ∧
    (∀ u : IntervalState, (∀ σ σ', s.Contains σ → st.LeadsTo σ σ' → u.Contains σ') →
      ∀ t ∈ s.post st, t.isSubset u = true) ∧
    (s.post st = [] ↔ ¬ ∃ σ σ', s.Contains σ ∧ st.LeadsTo σ σ') := by
  have hsound : ∀ σ σ', s.Contains σ → st.LeadsTo σ σ' → ∃ t ∈ s.post st, t.Contains σ' :=
    fun _ _ hσ hst => hσ.post hst
  have hbest : ∀ u : IntervalState, (∀ σ σ', s.Contains σ → st.LeadsTo σ σ' → u.Contains σ') →
      ∀ t ∈ s.post st, t.isSubset u = true := by
    intro u hu t ht
    obtain ⟨hbottom, rfl, hafter⟩ := mem_post_iff.mp ht
    exact hs.tidy.after_isSubset hbottom hafter hu
  refine ⟨hsound, hbest, ?_, ?_⟩
  · rintro hnone ⟨σ, σ', hσ, hst⟩
    obtain ⟨t, ht, -⟩ := hsound σ σ' hσ hst
    rw [hnone] at ht
    cases ht
  · -- The bottom store contains all of no stores, so what comes after the statement is below it.
    intro hnowhere
    refine List.eq_nil_iff_forall_not_mem.mpr fun t ht => ?_
    have hbelow := hbest empty (fun σ σ' hσ hst => absurd ⟨σ, σ', hσ, hst⟩ hnowhere) t ht
    obtain ⟨-, -, htbot⟩ := mem_post_iff.mp ht
    have hempty := (not_bottom_of_isSubset hbelow htbot).1
    cases hempty

/-- `x` is at most the least end. -/
def beyondLeastEnd : IntervalState := xWithin Interval.negInfinity Interval.negInfinity

/-- `x` is near the least end. -/
def nearLeastEnd : IntervalState := xWithin (Interval.negInfinity + 1) (Interval.negInfinity + 3)

set_option maxRecDepth 100000 in
/-- Taking 5 away leads from near the least end to integers beyond it, which no interval tells
apart.  So the best store for those that are less than the least end is the one for all of them,
although the least end itself is not less.  Near the least end nothing is less than it, and there is
no store. -/
theorem best_of_built_leastEnd :
    Built beyondLeastEnd ∧ Built nearLeastEnd ∧
    nearLeastEnd.post (.add "x" (-5)) = [beyondLeastEnd] ∧
    (∃ σ, beyondLeastEnd.Contains σ ∧ σ "x" = -9223372036854775812) ∧
    beyondLeastEnd.post (.assumeLessThan "x" Interval.negInfinity) = [beyondLeastEnd] ∧
    (∀ u : IntervalState, (∀ σ, beyondLeastEnd.Contains σ → σ "x" < -9223372036854775808 →
      u.Contains σ) → beyondLeastEnd.isSubset u = true) ∧
    ¬ ∃ σ σ', nearLeastEnd.Contains σ ∧
      (Statement.assumeLessThan "x" Interval.negInfinity).LeadsTo σ σ' := by
  have hbeyond : Built beyondLeastEnd := built_xWithin _ _
  have hnear : Built nearLeastEnd := built_xWithin _ _
  have hadd : nearLeastEnd.post (.add "x" (-5)) = [beyondLeastEnd] := by decide +kernel
  have hless : beyondLeastEnd.post (.assumeLessThan "x" Interval.negInfinity) =
      [beyondLeastEnd] := by decide +kernel
  obtain ⟨hsound, -⟩ := best_of_built hnear (.add "x" (-5))
  obtain ⟨-, hbest, -⟩ := best_of_built hbeyond (.assumeLessThan "x" Interval.negInfinity)
  obtain ⟨-, -, hnone⟩ := best_of_built hnear (.assumeLessThan "x" Interval.negInfinity)
  refine ⟨hbeyond, hnear, hadd, ?_, hless, fun u hu => ?_, hnone.mp (by decide +kernel)⟩
  · have hlowest : nearLeastEnd.Contains
        (Function.update (fun _ => 0) "x" (Interval.negInfinity + 1).toInt) :=
      (contains_unconstrained _).setVariable (Interval.holds_lo (by decide))
    obtain ⟨t, ht, hσ⟩ := hsound _ _ hlowest rfl
    rw [hadd, List.mem_singleton] at ht
    subst ht
    refine ⟨_, hσ, ?_⟩
    rw [Function.update_self, Function.update_self]
    decide
  · refine hbest u ?_ _ (hless ▸ List.mem_singleton_self beyondLeastEnd)
    rintro σ _ hσ ⟨hlt, rfl⟩
    exact hu _ hσ hlt

end IntervalState

end Interproc
