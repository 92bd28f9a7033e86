/-
  Interproc.Proofs.Intervals
  ──────────────────────────
  The interval domain.  Its order is a preorder with joins as least upper bounds and
  widenings as upper bounds, the effect of statements is monotone, and it is sound:
  every store that a statement leads to from a store that an abstract one contains
  is contained in the abstract store after the statement.

  The least and the greatest end of an interval are read as infinities, so stores
  hold integers of any size.
-/
import Mathlib
import Interproc.Interval.Statement
import Interproc.Proofs.Disjunctions
import Interproc.Proofs.Flow

namespace Interproc

/-! ## §1. Ends. -/

theorem toInt_min (a b : Int64) : (min a b).toInt = min a.toInt b.toInt := by
  show (if a ≤ b then a else b).toInt = _
  rw [min_def]
  simp only [Int64.le_iff_toInt_le]
  split <;> rfl

theorem toInt_max (a b : Int64) : (max a b).toInt = max a.toInt b.toInt := by
  show (if a ≤ b then b else a).toInt = _
  rw [max_def]
  simp only [Int64.le_iff_toInt_le]
  split <;> rfl

namespace Interval

theorem toInt_negInfinity : negInfinity.toInt = -9223372036854775808 := by decide

theorem toInt_posInfinity : posInfinity.toInt = 9223372036854775807 := by decide

theorem le_toInt (a : Int64) : -9223372036854775808 ≤ a.toInt := Int64.minValue_le_toInt a

theorem toInt_le (a : Int64) : a.toInt ≤ 9223372036854775807 := Int64.toInt_le a

theorem toInt_clamp (z : Int) : (Int64.ofIntClamp z).toInt =
    max (-9223372036854775808) (min z 9223372036854775807) := by
  have hmin : Int64.minValue.toInt = -9223372036854775808 := by decide
  have hmax : Int64.maxValue.toInt = 9223372036854775807 := by decide
  unfold Int64.ofIntClamp
  split
  · split
    · rw [Int64.toInt_ofIntLE]
      omega
    · omega
  · omega

theorem eq_negInfinity_iff {a : Int64} : a = negInfinity ↔ a.toInt = -9223372036854775808 := by
  rw [← Int64.toInt_inj, toInt_negInfinity]

theorem eq_posInfinity_iff {a : Int64} : a = posInfinity ↔ a.toInt = 9223372036854775807 := by
  rw [← Int64.toInt_inj, toInt_posInfinity]

/-! ## §2. Intervals. -/

variable {i j k : Interval}

theorem isSubset_iff : i.isSubset j = true ↔ j.lo.toInt ≤ i.lo.toInt ∧ i.hi.toInt ≤ j.hi.toInt := by
  simp [isSubset, Int64.le_iff_toInt_le]

theorem isEmpty_iff : i.isEmpty = true ↔ i.hi.toInt < i.lo.toInt := by
  simp [isEmpty, Int64.lt_iff_toInt_lt]

theorem isSubset_refl (i : Interval) : i.isSubset i = true := isSubset_iff.mpr ⟨le_rfl, le_rfl⟩

theorem isSubset_trans (h : i.isSubset j = true) (h' : j.isSubset k = true) :
    i.isSubset k = true := by
  rw [isSubset_iff] at h h' ⊢
  omega

theorem isSubset_top (i : Interval) : i.isSubset top = true := by
  rw [isSubset_iff]
  exact ⟨by rw [top, toInt_negInfinity]; exact le_toInt _, by
    rw [top, toInt_posInfinity]; exact toInt_le _⟩

theorem isSubset_join_left (i j : Interval) : i.isSubset (i.join j) = true := by
  rw [isSubset_iff, join, toInt_min, toInt_max]
  omega

theorem isSubset_join_right (i j : Interval) : j.isSubset (i.join j) = true := by
  rw [isSubset_iff, join, toInt_min, toInt_max]
  omega

theorem join_isSubset (h : i.isSubset k = true) (h' : j.isSubset k = true) :
    (i.join j).isSubset k = true := by
  rw [isSubset_iff] at h h' ⊢
  rw [join, toInt_min, toInt_max]
  omega

theorem isSubset_widen_left (i j : Interval) : i.isSubset (i.widen j) = true := by
  have hlo := le_toInt i.lo
  have hhi := toInt_le i.hi
  rw [isSubset_iff, widen]
  dsimp only
  constructor
  · split
    · rw [toInt_negInfinity]
      exact hlo
    · exact le_rfl
  · split
    · rw [toInt_posInfinity]
      exact hhi
    · exact le_rfl

theorem isSubset_widen_right (i j : Interval) : j.isSubset (i.widen j) = true := by
  have hlo := le_toInt j.lo
  have hhi := toInt_le j.hi
  rw [isSubset_iff, widen]
  dsimp only
  constructor
  · split
    · rw [toInt_negInfinity]
      exact hlo
    · rename_i h
      rw [Int64.lt_iff_toInt_lt] at h
      omega
  · split
    · rw [toInt_posInfinity]
      exact hhi
    · rename_i h
      rw [Int64.lt_iff_toInt_lt] at h
      omega

theorem meet_mono (h : i.isSubset j = true) (k : Interval) :
    (i.meet k).isSubset (j.meet k) = true := by
  rw [isSubset_iff] at h ⊢
  rw [meet, meet, toInt_max, toInt_min, toInt_max, toInt_min]
  omega

theorem isEmpty_mono (h : i.isSubset j = true) (hi : i.isEmpty = false) : j.isEmpty = false := by
  rw [isSubset_iff] at h
  rw [Bool.eq_false_iff, ne_eq, isEmpty_iff] at hi ⊢
  omega

theorem add_mono (h : i.isSubset j = true) (k : Int64) : (i.add k).isSubset (j.add k) = true := by
  have hlo := le_toInt i.lo
  have hhi := toInt_le i.hi
  rw [isSubset_iff] at h ⊢
  unfold add saturatingAdd
  dsimp only
  constructor
  · split
    · rw [toInt_negInfinity]
      exact le_toInt _
    · rename_i hj
      rw [eq_negInfinity_iff] at hj
      have := le_toInt j.lo
      rw [if_neg (by rw [eq_negInfinity_iff]; omega), toInt_clamp, toInt_clamp]
      omega
  · split
    · rename_i hi
      rw [eq_posInfinity_iff] at hi
      have := toInt_le j.hi
      rw [if_pos (by rw [eq_posInfinity_iff]; omega)]
    · split
      · rw [toInt_posInfinity]
        exact toInt_le _
      · rw [toInt_clamp, toInt_clamp]
        omega

end Interval

/-! ## §3. Abstract stores. -/

namespace IntervalState

variable {s t u : IntervalState}

/-- A store is below another if it is empty, or the other is not and all its intervals are
wider. -/
theorem isSubset_iff : s.isSubset t = true ↔ s.bottom = true ∨
    t.bottom = false ∧ ∀ x, (s.interval x).isSubset (t.interval x) = true := by
  unfold isSubset
  simp only [Bool.or_eq_true, Bool.and_eq_true, Bool.not_eq_true', List.all_eq_true]
  refine or_congr_right (and_congr_right fun _ => ?_)
  constructor
  · intro h x
    show Interval.isSubset _ ((t.intervals.find? x).getD .top) = true
    cases hx : t.intervals.find? x with
    | none => exact Interval.isSubset_top _
    | some i => exact h (x, i) (SortedMap.find?_eq_some_iff.mp hx)
  · rintro h ⟨x, i⟩ hentry
    have hx := h x
    rwa [interval, interval, SortedMap.find?_eq_some_iff.mpr hentry] at hx

theorem find?_combine (f : Interval → Interval → Interval) (s t : IntervalState) (x : String) :
    (combine f s t).intervals.find? x =
      Option.map₂ f (s.intervals.find? x) (t.intervals.find? x) := by
  unfold combine
  rw [SortedMap.find?_filterMap]
  cases s.intervals.find? x with
  | none => rfl
  | some i =>
    cases t.intervals.find? x with
    | none => rfl
    | some j => rfl

theorem interval_combine (f : Interval → Interval → Interval) (s t : IntervalState) (x : String) :
    (combine f s t).interval x = (match s.intervals.find? x, t.intervals.find? x with
      | some i, some j => f i j
      | _, _ => .top) := by
  rw [interval, find?_combine]
  cases s.intervals.find? x with
  | none => rfl
  | some i =>
    cases t.intervals.find? x with
    | none => rfl
    | some j => rfl

/-- Combining intervals by upper bounds gives an upper bound. -/
theorem isSubset_combine {f : Interval → Interval → Interval}
    (hleft : ∀ i j : Interval, i.isSubset (f i j) = true)
    (hright : ∀ i j : Interval, j.isSubset (f i j) = true)
    (s t : IntervalState) :
    s.isSubset (combine f s t) = true ∧ t.isSubset (combine f s t) = true := by
  constructor
  · refine isSubset_iff.mpr (.inr ⟨rfl, fun x => ?_⟩)
    rw [interval_combine]
    split
    · rename_i i j hi _
      rw [interval, hi]
      exact hleft i j
    · exact Interval.isSubset_top _
  · refine isSubset_iff.mpr (.inr ⟨rfl, fun x => ?_⟩)
    rw [interval_combine]
    split
    · rename_i i j _ hj
      rw [interval, hj]
      exact hright i j
    · exact Interval.isSubset_top _

theorem isSubset_refl (s : IntervalState) : s.isSubset s = true := by
  cases hs : s.bottom with
  | true => exact isSubset_iff.mpr (.inl hs)
  | false => exact isSubset_iff.mpr (.inr ⟨hs, fun x => Interval.isSubset_refl _⟩)

theorem isSubset_trans (h : s.isSubset t = true) (h' : t.isSubset u = true) :
    s.isSubset u = true := by
  rw [isSubset_iff] at h h' ⊢
  obtain hs | ⟨ht, hst⟩ := h
  · exact .inl hs
  · obtain htbot | ⟨hu, htu⟩ := h'
    · rw [ht] at htbot
      cases htbot
    · exact .inr ⟨hu, fun x => Interval.isSubset_trans (hst x) (htu x)⟩

theorem isSubset_join (s t : IntervalState) :
    s.isSubset (s.join t) = true ∧ t.isSubset (s.join t) = true := by
  unfold join
  split
  · rename_i hs
    exact ⟨isSubset_iff.mpr (.inl hs), isSubset_refl t⟩
  · split
    · rename_i ht
      exact ⟨isSubset_refl s, isSubset_iff.mpr (.inl ht)⟩
    · exact isSubset_combine Interval.isSubset_join_left Interval.isSubset_join_right s t

theorem isSubset_widen (s t : IntervalState) :
    s.isSubset (s.widen t) = true ∧ t.isSubset (s.widen t) = true := by
  unfold widen
  split
  · rename_i hs
    exact ⟨isSubset_iff.mpr (.inl hs), isSubset_refl t⟩
  · split
    · rename_i ht
      exact ⟨isSubset_refl s, isSubset_iff.mpr (.inl ht)⟩
    · exact isSubset_combine Interval.isSubset_widen_left Interval.isSubset_widen_right s t

instance : LawfulState IntervalState where
  below_refl := isSubset_refl
  below_trans := isSubset_trans
  below_join_left s t := (isSubset_join s t).1
  below_join_right s t := (isSubset_join s t).2
  bottom_below _ hs := isSubset_iff.mpr (.inl hs)
  bottom_of_below {s t} h ht := by
    obtain hs | ⟨ht', -⟩ := isSubset_iff.mp h
    · exact hs
    · have ht : t.bottom = true := ht
      rw [ht'] at ht
      cases ht

theorem domain_lawful : domain.Lawful where
  below_widen_left {s t u} h := by
    cases h
    exact (isSubset_widen s t).1
  below_widen_right {s t u} h := by
    cases h
    exact (isSubset_widen s t).2

/-- Joins are least upper bounds. -/
theorem join_isSubset (h : s.isSubset u = true) (h' : t.isSubset u = true) :
    (s.join t).isSubset u = true := by
  unfold join
  split
  · exact h'
  · split
    · exact h
    · rename_i hs ht
      rw [isSubset_iff] at h h' ⊢
      obtain hsbot | ⟨hu, hsu⟩ := h
      · exact absurd hsbot hs
      · obtain htbot | ⟨-, htu⟩ := h'
        · exact absurd htbot ht
        · refine .inr ⟨hu, fun x => ?_⟩
          have hsx := hsu x
          have htx := htu x
          rw [interval_combine]
          unfold interval at hsx htx
          cases hi : s.intervals.find? x with
          | none =>
            rw [hi] at hsx
            exact hsx
          | some i =>
            cases hj : t.intervals.find? x with
            | none =>
              rw [hj] at htx
              exact htx
            | some j =>
              rw [hi] at hsx
              rw [hj] at htx
              exact Interval.join_isSubset hsx htx

instance : JoinedState IntervalState where
  join_below := join_isSubset

/-! ## §4. The effect of statements is monotone. -/

theorem not_bottom_of_isSubset (h : s.isSubset t = true) (hs : s.bottom = false) :
    t.bottom = false ∧ ∀ x, (s.interval x).isSubset (t.interval x) = true := by
  obtain hbot | hrest := isSubset_iff.mp h
  · rw [hs] at hbot
    cases hbot
  · exact hrest

/-- What constraining a variable that is not left without values gives. -/
theorem setVariable_eq {i : Interval} {x : String} (hs : s.bottom = false)
    (hi : i.isEmpty = false) :
    s.setVariable x i = { s with intervals := s.intervals.insert x i } := by
  unfold setVariable
  rw [hi, hs]
  rfl

theorem bottom_setVariable {i : Interval} {x : String} (hs : s.bottom = false) :
    (s.setVariable x i).bottom = i.isEmpty := by
  cases hi : i.isEmpty with
  | true =>
    unfold setVariable
    rw [hi]
    rfl
  | false =>
    rw [setVariable_eq hs hi]
    exact hs

theorem interval_insert (s : IntervalState) (x y : String) (i : Interval) :
    interval { s with intervals := s.intervals.insert x i } y =
      if y = x then i else s.interval y := by
  unfold interval
  dsimp only
  rw [SortedMap.find?_insert]
  split <;> rfl

theorem interval_forget (s : IntervalState) (x y : String) :
    (s.forget x).interval y = if y = x then .top else s.interval y := by
  unfold forget interval
  dsimp only
  rw [SortedMap.find?_erase]
  split <;> rfl

theorem setVariable_mono {i j : Interval} {x : String} (h : s.isSubset t = true)
    (hs : s.bottom = false) (hij : i.isSubset j = true) (hi : i.isEmpty = false) :
    (s.setVariable x i).isSubset (t.setVariable x j) = true := by
  obtain ⟨ht, hst⟩ := not_bottom_of_isSubset h hs
  rw [setVariable_eq hs hi, setVariable_eq ht (Interval.isEmpty_mono hij hi)]
  refine isSubset_iff.mpr (.inr ⟨ht, fun y => ?_⟩)
  rw [interval_insert, interval_insert]
  split
  · exact hij
  · exact hst y

theorem after_mono (h : s.isSubset t = true) (hs : s.bottom = false) {st : Statement}
    (hafter : (s.after st).bottom = false) : (s.after st).isSubset (t.after st) = true := by
  obtain ⟨ht, hst⟩ := not_bottom_of_isSubset h hs
  cases st with
  | nop => exact h
  | assign x k =>
    exact setVariable_mono h hs (Interval.isSubset_refl _)
      ((bottom_setVariable hs).symm.trans hafter)
  | add x k =>
    exact setVariable_mono h hs (Interval.add_mono (hst x) k)
      ((bottom_setVariable hs).symm.trans hafter)
  | assumeLessThan x k =>
    exact setVariable_mono h hs (Interval.meet_mono (hst x) _)
      ((bottom_setVariable hs).symm.trans hafter)
  | assumeAtLeast x k =>
    exact setVariable_mono h hs (Interval.meet_mono (hst x) _)
      ((bottom_setVariable hs).symm.trans hafter)
  | assumeFalse => cases hafter
  | havoc x =>
    refine isSubset_iff.mpr (.inr ⟨ht, fun y => ?_⟩)
    show Interval.isSubset ((s.forget x).interval y) ((t.forget x).interval y) = true
    rw [interval_forget, interval_forget]
    split
    · exact Interval.isSubset_refl _
    · exact hst y

theorem mem_post_iff {st : Statement} :
    u ∈ s.post st ↔ s.bottom = false ∧ u = s.after st ∧ u.bottom = false := by
  unfold post
  cases hs : s.bottom with
  | true => simp
  | false =>
    dsimp only
    cases hafter : (s.after st).bottom with
    | true =>
      simp only [Bool.false_eq_true, if_false, if_true, List.not_mem_nil, false_iff, true_and,
        not_and]
      rintro rfl
      rw [hafter]
      exact Bool.noConfusion
    | false =>
      simp only [Bool.false_eq_true, if_false, List.mem_singleton, true_and]
      constructor
      · rintro rfl
        exact ⟨rfl, hafter⟩
      · exact fun h => h.1

theorem length_post (s : IntervalState) (st : Statement) : (s.post st).length ≤ 1 := by
  unfold post
  cases s.bottom with
  | true => exact Nat.zero_le 1
  | false =>
    dsimp only
    cases (s.after st).bottom with
    | true => exact Nat.zero_le 1
    | false => exact le_rfl

/-- From a larger store, a statement leads to a larger one. -/
theorem post_mono {st : Statement} (h : s.isSubset t = true) (hu : u ∈ s.post st) :
    ∃ v ∈ t.post st, u.isSubset v = true := by
  obtain ⟨hs, rfl, hafter⟩ := mem_post_iff.mp hu
  have hmono := after_mono h hs hafter
  exact ⟨t.after st, mem_post_iff.mpr ⟨(not_bottom_of_isSubset h hs).1, rfl,
    (not_bottom_of_isSubset hmono hafter).1⟩, hmono⟩

end IntervalState

/-! ## §5. Soundness. -/

/-- A value for every variable. -/
abbrev Store := String → Int

/-- The stores to which a statement may lead from a store. -/
def Statement.LeadsTo : Statement → Store → Store → Prop
  | .nop, σ, σ' => σ' = σ
  | .assign x k, σ, σ' => σ' = Function.update σ x k.toInt
  | .add x k, σ, σ' => σ' = Function.update σ x (σ x + k.toInt)
  | .assumeLessThan x k, σ, σ' => σ x < k.toInt ∧ σ' = σ
  | .assumeAtLeast x k, σ, σ' => k.toInt ≤ σ x ∧ σ' = σ
  | .assumeFalse, _, _ => False
  | .havoc x, σ, σ' => ∃ v, σ' = Function.update σ x v

namespace Interval

variable {i j : Interval} {v : Int}

/-- An integer lies in an interval, whose least and greatest ends are no bounds. -/
def Holds (i : Interval) (v : Int) : Prop :=
  (i.lo = negInfinity ∨ i.lo.toInt ≤ v) ∧ (i.hi = posInfinity ∨ v ≤ i.hi.toInt)

theorem Holds.mono (h : i.Holds v) (hij : i.isSubset j = true) : j.Holds v := by
  have hlo := le_toInt j.lo
  have hhi := toInt_le j.hi
  rw [isSubset_iff] at hij
  unfold Holds at h ⊢
  simp only [eq_negInfinity_iff, eq_posInfinity_iff] at h ⊢
  omega

theorem holds_top (v : Int) : top.Holds v := ⟨.inl rfl, .inl rfl⟩

theorem holds_constant (k : Int64) : (constant k).Holds k.toInt := ⟨.inr le_rfl, .inr le_rfl⟩

theorem Holds.not_isEmpty (h : i.Holds v) : i.isEmpty = false := by
  have hlo := le_toInt i.lo
  have hlo' := toInt_le i.lo
  have hhi := toInt_le i.hi
  have hhi' := le_toInt i.hi
  unfold Holds at h
  simp only [eq_negInfinity_iff, eq_posInfinity_iff] at h
  rw [Bool.eq_false_iff, ne_eq, isEmpty_iff]
  omega

/-- Sums that pass an infinite end stay beyond it. -/
theorem Holds.add (h : i.Holds v) (k : Int64) : (i.add k).Holds (v + k.toInt) := by
  have hlo := le_toInt i.lo
  have hhi := toInt_le i.hi
  unfold Holds at h ⊢
  unfold Interval.add saturatingAdd
  dsimp only
  constructor
  · split
    · exact .inl rfl
    · rename_i hfinite
      have hbound := h.1.resolve_left hfinite
      rw [eq_negInfinity_iff, toInt_clamp]
      omega
  · split
    · exact .inl rfl
    · rename_i hfinite
      have hbound := h.2.resolve_left hfinite
      rw [eq_posInfinity_iff, toInt_clamp]
      omega

theorem Holds.meet (h : i.Holds v) (h' : j.Holds v) : (i.meet j).Holds v := by
  have hlo := le_toInt i.lo
  have hlo' := le_toInt j.lo
  have hhi := toInt_le i.hi
  have hhi' := toInt_le j.hi
  unfold Holds Interval.meet at *
  simp only [eq_negInfinity_iff, eq_posInfinity_iff, toInt_min, toInt_max] at h h' ⊢
  omega

theorem holds_below {k : Int64} (h : v < k.toInt) :
    Holds ⟨negInfinity, saturatingSub k 1⟩ v := by
  have hk := toInt_le k
  have hone : (1 : Int64).toInt = 1 := by decide
  unfold Holds saturatingSub
  refine ⟨.inl rfl, .inr ?_⟩
  rw [toInt_clamp, hone]
  omega

theorem holds_above {k : Int64} (h : k.toInt ≤ v) : Holds ⟨k, posInfinity⟩ v :=
  ⟨.inr h, .inl rfl⟩

end Interval

namespace IntervalState

variable {s t : IntervalState} {σ σ' : Store}

/-- A store lies in an abstract one. -/
def Contains (s : IntervalState) (σ : Store) : Prop :=
  s.bottom = false ∧ ∀ x, (s.interval x).Holds (σ x)

theorem Contains.mono (h : s.Contains σ) (hst : s.isSubset t = true) : t.Contains σ := by
  obtain ⟨ht, hwider⟩ := not_bottom_of_isSubset hst h.1
  exact ⟨ht, fun x => (h.2 x).mono (hwider x)⟩

theorem contains_unconstrained (σ : Store) : unconstrained.Contains σ :=
  ⟨rfl, fun _ => Interval.holds_top _⟩

theorem Contains.setVariable {i : Interval} {x : String} {v : Int} (h : s.Contains σ)
    (hi : i.Holds v) : (s.setVariable x i).Contains (Function.update σ x v) := by
  rw [setVariable_eq h.1 hi.not_isEmpty]
  refine ⟨h.1, fun y => ?_⟩
  rw [interval_insert]
  split
  · rename_i hy
    rw [hy, Function.update_self]
    exact hi
  · rename_i hy
    rw [Function.update_of_ne hy]
    exact h.2 y

/-- The abstract store after a statement contains every store that the statement leads to. -/
theorem Contains.after {st : Statement} (h : s.Contains σ) (hst : st.LeadsTo σ σ') :
    (s.after st).Contains σ' := by
  cases st with
  | nop =>
    cases hst
    exact h
  | assign x k =>
    cases hst
    exact h.setVariable (Interval.holds_constant k)
  | add x k =>
    cases hst
    exact h.setVariable ((h.2 x).add k)
  | assumeLessThan x k =>
    obtain ⟨hlt, rfl⟩ := hst
    have hset := h.setVariable (x := x) ((h.2 x).meet (Interval.holds_below hlt))
    rwa [Function.update_eq_self] at hset
  | assumeAtLeast x k =>
    obtain ⟨hle, rfl⟩ := hst
    have hset := h.setVariable (x := x) ((h.2 x).meet (Interval.holds_above hle))
    rwa [Function.update_eq_self] at hset
  | assumeFalse => cases hst
  | havoc x =>
    obtain ⟨v, rfl⟩ := hst
    refine ⟨h.1, fun y => ?_⟩
    show ((s.forget x).interval y).Holds _
    rw [interval_forget]
    split
    · exact Interval.holds_top _
    · rename_i hy
      rw [Function.update_of_ne hy]
      exact h.2 y

/-- A statement that leads somewhere has an abstract store after it, which contains the store that
the statement leads to. -/
theorem Contains.post {st : Statement} (h : s.Contains σ) (hst : st.LeadsTo σ σ') :
    ∃ t ∈ s.post st, t.Contains σ' :=
  ⟨s.after st, mem_post_iff.mpr ⟨h.1, rfl, (h.after hst).1⟩, h.after hst⟩

end IntervalState

/-! ## §6. Interval analyses. -/

/-- The interval analysis of a program, given a table of its loops. -/
def Program.intervals (p : Program Statement) (table : LoopTable) (options : Options) :
    Engine Nat (Transition Statement) IntervalState where
  transitions := p.transitions
  domain := IntervalState.domain
  declarations := .none
  entersLoop := table.isEntered
  options := options

namespace Engine

/-- A procedure that calls itself until a variable is large enough. -/
def ascent : Program Statement := .ofAdditions
  [.procedure "main", .procedure "f", .node "f", .call 0 1 "f" .nop, .internal 2 4 (.add "x" 1),
    .call 4 3 "f" .nop, .internal 2 3 (.assumeAtLeast "x" 10)]

/-- The interval analysis of `ascent`, which has no loops. -/
def ascentIntervals : Engine Nat (Transition Statement) IntervalState :=
  ascent.intervals ⟨.empty⟩ ⟨1, 1, .fifo, false, Nat.one_pos, Nat.one_pos⟩

end Engine

end Interproc
