/-
  Interproc.Proofs.Disjunctions
  ─────────────────────────────
  Disjunctions of lawful states.  Adding, joining and widening lose nothing: a
  state that some disjunct covered, or that was added and is not bottom, is covered
  by a disjunct of the result.  The exception is bottom, which is never added, so
  coverage is stated for states that are not bottom.
-/
import Mathlib
import Interproc.Proofs.Steps

namespace Interproc

variable {A S : Type} [AbstractState S]

/-! ## §1. Laws. -/

/-- The order of the states is a preorder, and joins are upper bounds. -/
class OrderedState (S : Type) [AbstractState S] : Prop where
  below_refl (s : S) : isBelow s s = true
  below_trans {s t u : S} : isBelow s t = true → isBelow t u = true → isBelow s u = true
  below_join_left (s t : S) : isBelow s (join s t) = true
  below_join_right (s t : S) : isBelow t (join s t) = true

/-- Only bottoms are below bottoms. -/
class GroundedState (S : Type) [AbstractState S] : Prop extends OrderedState S where
  bottom_of_below {s t : S} : isBelow s t = true → isBottom t = true → isBottom s = true

/-- Bottoms are below everything. -/
class LawfulState (S : Type) [AbstractState S] : Prop extends GroundedState S where
  bottom_below {s : S} (t : S) : isBottom s = true → isBelow s t = true

/-- Joins are least upper bounds. -/
class JoinedState (S : Type) [AbstractState S] : Prop extends LawfulState S where
  join_below {s t u : S} : isBelow s u = true → isBelow t u = true → isBelow (join s t) u = true

/-- The order of the states is a preorder; joins may be anything. -/
class PreorderedState (S : Type) [AbstractState S] : Prop where
  below_self (s : S) : isBelow s s = true
  below_of_below {s t u : S} : isBelow s t = true → isBelow t u = true → isBelow s u = true

instance [OrderedState S] : PreorderedState S :=
  ⟨OrderedState.below_refl, OrderedState.below_trans⟩

export OrderedState (below_refl below_trans below_join_left below_join_right)
export PreorderedState (below_self below_of_below)
export GroundedState (bottom_of_below)
export LawfulState (bottom_below)
export JoinedState (join_below)

/-- Widening gives upper bounds. -/
structure Domain.Lawful (domain : Domain A S) : Prop where
  below_widen_left {s t u : S} : domain.widen s t = .ok u → isBelow s u = true
  below_widen_right {s t u : S} : domain.widen s t = .ok u → isBelow t u = true

namespace Disjunction

/-! ## §2. Coverage. -/

/-- Some disjunct is above a state. -/
def Covers (d : Disjunction S) (s : S) : Prop := ∃ t ∈ d.states, isBelow s t = true

/-- No disjunct is bottom. -/
def Proper (d : Disjunction S) : Prop := ∀ s ∈ d.states, Interproc.isBottom s = false

variable {d d' d'' : Disjunction S} {s t : S} {width : Nat}

theorem isSubset_iff : d.isSubset d' = true ↔ ∀ s ∈ d.states, d'.Covers s := by
  unfold isSubset Covers
  simp

theorem isBottom_iff : d.isBottom = true ↔ ∀ s ∈ d.states, Interproc.isBottom s = true := by
  simp [isBottom]

theorem exists_of_not_isBottom (h : d.isBottom = false) :
    ∃ s ∈ d.states, Interproc.isBottom s = false := by
  simpa [isBottom] using h

theorem covers_of_mem [PreorderedState S] (h : s ∈ d.states) : d.Covers s := ⟨s, h, below_self s⟩

theorem Covers.of_below [PreorderedState S] (h : d.Covers t) (hst : isBelow s t = true) :
    d.Covers s := by
  obtain ⟨u, hu, htu⟩ := h
  exact ⟨u, hu, below_of_below hst htu⟩

theorem Covers.of_isSubset [PreorderedState S] (h : d.Covers s) (hd : d.isSubset d' = true) :
    d'.Covers s := by
  obtain ⟨t, ht, hst⟩ := h
  exact (isSubset_iff.mp hd t ht).of_below hst

theorem isSubset_refl [PreorderedState S] (d : Disjunction S) : d.isSubset d = true :=
  isSubset_iff.mpr fun _ hs => covers_of_mem hs

theorem isSubset_trans [PreorderedState S] (h : d.isSubset d' = true) (h' : d'.isSubset d'' = true) :
    d.isSubset d'' = true :=
  isSubset_iff.mpr fun s hs => (isSubset_iff.mp h s hs).of_isSubset h'

/-- A disjunction that covers every state which is not bottom covers the rest too, as long as
there is such a state. -/
theorem isSubset_of_covers [LawfulState S] (hd : d.isBottom = false)
    (h : ∀ s ∈ d.states, Interproc.isBottom s = false → d'.Covers s) : d.isSubset d' = true := by
  obtain ⟨u, hu, hubot⟩ := exists_of_not_isBottom hd
  obtain ⟨v, hv, -⟩ := h u hu hubot
  refine isSubset_iff.mpr fun s hs => ?_
  cases hbot : Interproc.isBottom s with
  | false => exact h s hs hbot
  | true => exact ⟨v, hv, bottom_below v hbot⟩

/-! ## §3. Adding and bounding. -/

theorem covers_add_of_covers [PreorderedState S] (t : S) (h : d.Covers s) : (d.add t).Covers s := by
  unfold add
  split
  · exact h
  · obtain ⟨u, hu, hsu⟩ := h
    by_cases hut : isBelow u t = true
    · exact ⟨t, by simp, below_of_below hsu hut⟩
    · exact ⟨u, by simp [hu, hut], hsu⟩

theorem covers_add_self [PreorderedState S] (hs : Interproc.isBottom s = false) :
    (d.add s).Covers s := by
  unfold add
  split
  · rename_i hskip
    simp only [hs, Bool.false_or, List.any_eq_true] at hskip
    exact hskip
  · exact ⟨s, by simp, below_self s⟩

theorem proper_add (h : d.Proper) (s : S) : (d.add s).Proper := by
  unfold add
  split
  · exact h
  · rename_i hadd
    simp only [Bool.or_eq_true, not_or, Bool.not_eq_true] at hadd
    intro t ht
    obtain ht | ht := List.mem_append.mp ht
    · exact h t (List.mem_of_mem_filter ht)
    · rw [List.mem_singleton.mp ht]
      exact hadd.1

theorem proper_bottom : (bottom : Disjunction S).Proper := by
  intro s hs
  cases hs

theorem covers_addAll_of_covers [PreorderedState S] (l : List S) (h : d.Covers s) :
    (d.addAll l).Covers s := by
  induction l generalizing d with
  | nil => exact h
  | cons t l ih => exact ih (covers_add_of_covers t h)

theorem covers_addAll_of_mem [PreorderedState S] {l : List S} (h : s ∈ l)
    (hs : Interproc.isBottom s = false) :
    (d.addAll l).Covers s := by
  induction l generalizing d with
  | nil => cases h
  | cons t l ih =>
    obtain rfl | h := List.mem_cons.mp h
    · exact covers_addAll_of_covers l (covers_add_self hs)
    · exact ih h

theorem proper_addAll (h : d.Proper) (l : List S) : (d.addAll l).Proper := by
  induction l generalizing d with
  | nil => exact h
  | cons t l ih => exact ih (proper_add h t)

theorem covers_joinLatest [GroundedState S] (h : d.Covers s) (hs : Interproc.isBottom s = false) :
    d.joinLatest.Covers s := by
  unfold joinLatest
  split
  · rename_i last secondLast earlier hrev
    obtain ⟨t, ht, hst⟩ := h
    rw [← List.mem_reverse, hrev] at ht
    have hjoined : isBelow s (join secondLast last) = true →
        (add ⟨earlier.reverse⟩ (join secondLast last)).Covers s := by
      intro hbelow
      refine Covers.of_below (covers_add_self ?_) hbelow
      by_contra hbot
      rw [Bool.not_eq_false] at hbot
      rw [bottom_of_below hbelow hbot] at hs
      cases hs
    obtain rfl | ht := List.mem_cons.mp ht
    · exact hjoined (below_trans hst (below_join_right _ _))
    · obtain rfl | ht := List.mem_cons.mp ht
      · exact hjoined (below_trans hst (below_join_left _ _))
      · exact covers_add_of_covers _ ⟨t, by simpa using ht, hst⟩
  · exact h

theorem proper_joinLatest (h : d.Proper) : d.joinLatest.Proper := by
  unfold joinLatest
  split
  · rename_i last secondLast earlier hrev
    refine proper_add (fun t ht => h t ?_) _
    rw [← List.mem_reverse, hrev]
    exact List.mem_cons_of_mem _ (List.mem_cons_of_mem _ (by simpa using ht))
  · exact h

theorem length_joinLatest (h : 1 < d.states.length) :
    d.joinLatest.states.length < d.states.length := by
  unfold joinLatest
  have hlength : d.states.reverse.length = d.states.length := List.length_reverse
  split
  · rename_i last secondLast earlier hrev
    rw [hrev] at hlength
    simp only [List.length_cons] at hlength
    unfold add
    split
    · simp only [List.length_reverse]
      omega
    · have hfilter := List.length_filter_le (fun t => !isBelow t (join secondLast last))
        earlier.reverse
      simp only [List.length_append, List.length_singleton, List.length_reverse] at hfilter ⊢
      omega
  · rename_i hshort
    exfalso
    cases hrev : d.states.reverse with
    | nil =>
      rw [hrev] at hlength
      simp only [List.length_nil] at hlength
      omega
    | cons last rest =>
      cases rest with
      | nil =>
        rw [hrev] at hlength
        simp only [List.length_cons, List.length_nil] at hlength
        omega
      | cons secondLast earlier => exact hshort last secondLast earlier hrev

/-- What joining the latest two disjuncts keeps, narrowing keeps. -/
theorem narrow_induct {P : Disjunction S → Prop} (hjoin : ∀ d, P d → P d.joinLatest) (n : Nat)
    (h : P d) : P (narrow width n d) := by
  induction n generalizing d with
  | zero => exact h
  | succ n ih =>
    unfold narrow
    split
    · exact h
    · exact ih (hjoin d h)

theorem covers_narrow [GroundedState S] (n : Nat) (h : d.Covers s)
    (hs : Interproc.isBottom s = false) :
    (narrow width n d).Covers s :=
  narrow_induct (P := fun d => d.Covers s) (fun _ hd => covers_joinLatest hd hs) n h

theorem proper_narrow (n : Nat) (h : d.Proper) : (narrow width n d).Proper :=
  narrow_induct (P := Proper) (fun _ => proper_joinLatest) n h

theorem length_narrow {n : Nat} (hwidth : 0 < width) (hn : d.states.length ≤ n) :
    (narrow width n d).states.length ≤ width := by
  induction n generalizing d with
  | zero =>
    unfold narrow
    omega
  | succ n ih =>
    unfold narrow
    split
    · assumption
    · rename_i hwide
      have := length_joinLatest (d := d) (by omega)
      exact ih (by omega)

theorem covers_reduce [GroundedState S] (h : d.Covers s) (hs : Interproc.isBottom s = false) :
    (d.reduce width).Covers s :=
  covers_narrow _ h hs

theorem proper_reduce (h : d.Proper) : (d.reduce width).Proper := proper_narrow _ h

theorem length_reduce (d : Disjunction S) (width : Nat) :
    (d.reduce width).states.length ≤ max width 1 :=
  length_narrow (by omega) le_rfl

theorem reduce_of_length (h : d.states.length ≤ max width 1) : d.reduce width = d := by
  unfold reduce
  cases hn : d.states.length with
  | zero => rfl
  | succ n =>
    unfold narrow
    rw [if_pos h]

theorem covers_ofStates [GroundedState S] {l : List S} (h : s ∈ l)
    (hs : Interproc.isBottom s = false) :
    (ofStates l width).Covers s :=
  covers_reduce (covers_addAll_of_mem h hs) hs

theorem proper_ofStates (l : List S) (width : Nat) : (ofStates l width).Proper :=
  proper_reduce (proper_addAll proper_bottom l)

theorem proper_single (s : S) : (single s).Proper := proper_add proper_bottom s

theorem covers_single [PreorderedState S] (hs : Interproc.isBottom s = false) : (single s).Covers s :=
  covers_add_self hs

theorem length_single (s : S) : (single s).states.length ≤ 1 := by
  unfold single add bottom
  split <;> simp

theorem covers_merge_left [GroundedState S] (h : d.Covers s) (hs : Interproc.isBottom s = false) :
    (d.merge d' width).Covers s :=
  covers_reduce (covers_addAll_of_covers _ h) hs

theorem covers_merge_right [GroundedState S] (h : d'.Covers s) (hs : Interproc.isBottom s = false) :
    (d.merge d' width).Covers s := by
  obtain ⟨t, ht, hst⟩ := h
  have htbot : Interproc.isBottom t = false := by
    by_contra hbot
    rw [Bool.not_eq_false] at hbot
    rw [bottom_of_below hst hbot] at hs
    cases hs
  exact Covers.of_below (covers_reduce (covers_addAll_of_mem ht htbot) htbot) hst

theorem proper_merge (h : d.Proper) (d' : Disjunction S) (width : Nat) :
    (d.merge d' width).Proper :=
  proper_reduce (proper_addAll h _)

/-- Merging loses nothing of a disjunction without bottoms. -/
theorem isSubset_merge_left [GroundedState S] (h : d.Proper) (d' : Disjunction S) (width : Nat) :
    d.isSubset (d.merge d' width) = true :=
  isSubset_iff.mpr fun s hs => covers_merge_left (covers_of_mem hs) (h s hs)

theorem isSubset_merge_right [LawfulState S] (h : d'.isBottom = false) (d : Disjunction S)
    (width : Nat) :
    d'.isSubset (d.merge d' width) = true :=
  isSubset_of_covers h fun _ hs hbot => covers_merge_right (covers_of_mem hs) hbot

theorem addAll_of_covers {l : List S} (h : ∀ s ∈ l, d.Covers s) : d.addAll l = d := by
  induction l with
  | nil => rfl
  | cons s l ih =>
    have hadd : d.add s = d := by
      unfold add
      rw [if_pos]
      simp only [Bool.or_eq_true, List.any_eq_true]
      exact .inr (h s List.mem_cons_self)
    show (d.add s).addAll l = d
    rw [hadd]
    exact ih fun t ht => h t (List.mem_cons_of_mem s ht)

/-- Merging what is covered into a disjunction that is narrow enough changes nothing. -/
theorem merge_of_isSubset (h : d.states.length ≤ max width 1) (hsub : d'.isSubset d = true) :
    d.merge d' width = d := by
  unfold merge
  rw [addAll_of_covers (isSubset_iff.mp hsub)]
  exact reduce_of_length h

theorem merge_self [PreorderedState S] (h : d.states.length ≤ max width 1) :
    d.merge d width = d :=
  merge_of_isSubset h (isSubset_refl d)

/-! ## §4. What disjuncts are made of. -/

theorem mem_add (h : t ∈ (d.add s).states) : t ∈ d.states ∨ t = s := by
  unfold add at h
  split at h
  · exact .inl h
  · obtain h | h := List.mem_append.mp h
    · exact .inl (List.mem_of_mem_filter h)
    · exact .inr (List.mem_singleton.mp h)

theorem eq_of_mem_single (h : t ∈ (single s).states) : t = s :=
  (mem_add h).resolve_left List.not_mem_nil

theorem mem_addAll {l : List S} (h : t ∈ (d.addAll l).states) : t ∈ d.states ∨ t ∈ l := by
  induction l generalizing d with
  | nil => exact .inl h
  | cons s l ih =>
    obtain h | h := ih h
    · obtain h | rfl := mem_add h
      · exact .inl h
      · exact .inr List.mem_cons_self
    · exact .inr (List.mem_cons_of_mem s h)

theorem nodup_add [OrderedState S] (h : d.states.Nodup) (s : S) : (d.add s).states.Nodup := by
  unfold add
  split
  · exact h
  · rename_i hnew
    simp only [Bool.or_eq_true, not_or, List.any_eq_true, not_exists, not_and] at hnew
    refine List.nodup_append.mpr ⟨h.filter _, List.nodup_singleton s, fun t ht u hu htu => ?_⟩
    rw [List.mem_singleton] at hu
    subst hu
    subst htu
    exact hnew.2 t (List.mem_of_mem_filter ht) (below_refl t)

theorem nodup_addAll [OrderedState S] (h : d.states.Nodup) (l : List S) :
    (d.addAll l).states.Nodup := by
  induction l generalizing d with
  | nil => exact h
  | cons s l ih => exact ih (nodup_add h s)

/-- Few states need not be joined. -/
theorem mem_of_mem_ofStates [OrderedState S] {l few : List S} (hl : l ⊆ few)
    (hfew : few.length ≤ max width 1) (h : t ∈ (ofStates l width).states) : t ∈ l := by
  have hsub : (bottom.addAll l).states ⊆ l := fun u hu =>
    (mem_addAll hu).elim (fun hu => absurd hu List.not_mem_nil) fun hu => hu
  have hnodup := nodup_addAll (d := (bottom : Disjunction S)) List.nodup_nil l
  have hlength := (hnodup.subperm (List.Subset.trans hsub hl)).length_le
  unfold ofStates at h
  rw [reduce_of_length (hlength.trans hfew)] at h
  exact hsub h

variable {Q : S → Prop}

theorem forall_joinLatest (hjoin : ∀ s t, Q s → Q t → Q (join s t)) (h : ∀ t ∈ d.states, Q t) :
    ∀ t ∈ d.joinLatest.states, Q t := by
  unfold joinLatest
  split
  · rename_i last secondLast earlier hrev
    have hall : ∀ t ∈ last :: secondLast :: earlier, Q t := by
      intro t ht
      rw [← hrev] at ht
      exact h t (List.mem_reverse.mp ht)
    intro t ht
    obtain ht | rfl := mem_add ht
    · exact hall t (List.mem_cons_of_mem _ (List.mem_cons_of_mem _ (List.mem_reverse.mp ht)))
    · exact hjoin _ _ (hall _ (List.mem_cons_of_mem _ List.mem_cons_self))
        (hall _ List.mem_cons_self)
  · exact h

theorem forall_narrow (hjoin : ∀ s t, Q s → Q t → Q (join s t)) (n : Nat)
    (h : ∀ t ∈ d.states, Q t) : ∀ t ∈ (narrow width n d).states, Q t :=
  narrow_induct (P := fun d => ∀ t ∈ d.states, Q t) (fun _ => forall_joinLatest hjoin) n h

/-- What joins keep, merging keeps. -/
theorem forall_merge (hjoin : ∀ s t, Q s → Q t → Q (join s t)) (h : ∀ t ∈ d.states, Q t)
    (h' : ∀ t ∈ d'.states, Q t) : ∀ t ∈ (d.merge d' width).states, Q t :=
  forall_narrow hjoin _ fun t ht => (mem_addAll ht).elim (h t) (h' t)

theorem forall_foldl_join (hjoin : ∀ s t, Q s → Q t → Q (join s t)) {l : List S} (hs : Q s)
    (h : ∀ t ∈ l, Q t) : Q (l.foldl join s) := by
  induction l generalizing s with
  | nil => exact hs
  | cons t l ih =>
    exact ih (hjoin s t hs (h t List.mem_cons_self)) fun u hu => h u (List.mem_cons_of_mem t hu)

theorem forall_collapse (hjoin : ∀ s t, Q s → Q t → Q (join s t)) (h : ∀ t ∈ d.states, Q t) {c : S}
    (hc : d.collapse = some c) : Q c := by
  unfold collapse at hc
  split at hc
  · cases hc
  · rename_i s rest hstates
    cases hc
    rw [hstates] at h
    exact forall_foldl_join hjoin (h s List.mem_cons_self)
      fun t ht => h t (List.mem_cons_of_mem s ht)

/-! ## §5. Widening. -/

theorem below_foldl_join [OrderedState S] (l : List S) (h : isBelow s t = true) :
    isBelow s (l.foldl join t) = true := by
  induction l generalizing t with
  | nil => exact h
  | cons u l ih => exact ih (below_trans h (below_join_left t u))

theorem below_foldl_join_of_mem [OrderedState S] {l : List S} (h : s ∈ l) : isBelow s
    (l.foldl join t) = true := by
  induction l generalizing t with
  | nil => cases h
  | cons u l ih =>
    obtain rfl | h := List.mem_cons.mp h
    · exact below_foldl_join l (below_join_right t s)
    · exact ih h

theorem below_collapse [OrderedState S] {c : S} (h : d.collapse = some c) (hs : s ∈ d.states) :
    isBelow s c = true := by
  unfold collapse at h
  split at h
  · cases h
  · rename_i t rest hstates
    cases h
    rw [hstates] at hs
    obtain rfl | hs := List.mem_cons.mp hs
    · exact below_foldl_join rest (below_refl s)
    · exact below_foldl_join_of_mem hs

theorem collapse_eq_none_iff : d.collapse = none ↔ d.states = [] := by
  unfold collapse
  split
  · simp_all
  · simp_all

theorem not_isBottom_of_below [GroundedState S] (h : isBelow s t = true)
    (hs : Interproc.isBottom s = false) :
    Interproc.isBottom t = false := by
  by_contra hbot
  rw [Bool.not_eq_false] at hbot
  rw [bottom_of_below h hbot] at hs
  cases hs

/-- Widening by states that are not bottom covers both sides. -/
theorem covers_widen [GroundedState S] {domain : Domain A S} (hlaws : domain.Lawful)
    {older newer widened : Disjunction S} (h : older.widen newer domain = .ok widened)
    (hnewer : newer.isBottom = false) :
    newer.isSubset widened = true ∧ older.isSubset widened = true := by
  unfold widen at h
  obtain ⟨u, hu, hubot⟩ := exists_of_not_isBottom hnewer
  cases hold : older.collapse with
  | none =>
    rw [hold] at h
    cases h
    refine ⟨isSubset_refl _, isSubset_iff.mpr fun s hs => ?_⟩
    rw [collapse_eq_none_iff.mp hold] at hs
    cases hs
  | some c =>
    cases hnew : newer.collapse with
    | none =>
      rw [collapse_eq_none_iff.mp hnew] at hu
      cases hu
    | some c' =>
      rw [hold, hnew] at h
      obtain ⟨w, hw, h⟩ := except_bind_eq_ok.mp h
      cases h
      have hright := hlaws.below_widen_right hw
      have hwbot : Interproc.isBottom w = false :=
        not_isBottom_of_below (below_trans (below_collapse hnew hu) hright) hubot
      constructor
      · exact isSubset_iff.mpr fun s hs =>
          (covers_single hwbot).of_below (below_trans (below_collapse hnew hs) hright)
      · exact isSubset_iff.mpr fun s hs => (covers_single hwbot).of_below
          (below_trans (below_collapse hold hs) (hlaws.below_widen_left hw))

/-- Widening leaves no bottoms; those of the older disjunction matter only if the newer one is
empty. -/
theorem proper_widen {domain : Domain A S} {older newer widened : Disjunction S}
    (h : older.widen newer domain = .ok widened) (hnewer : newer.Proper)
    (holder : newer.isBottom = true → older.Proper) : widened.Proper := by
  unfold widen at h
  split at h
  · obtain ⟨w, -, h⟩ := except_bind_eq_ok.mp h
    cases h
    exact proper_single w
  · rename_i hcollapse
    cases h
    refine holder (isBottom_iff.mpr fun s hs => ?_)
    rw [collapse_eq_none_iff.mp hcollapse] at hs
    cases hs
  · cases h
    exact hnewer

/-- Widening leaves one disjunct, or one of its arguments. -/
theorem length_widen {domain : Domain A S} {older newer widened : Disjunction S}
    (h : older.widen newer domain = .ok widened) (holder : older.states.length ≤ max width 1)
    (hnewer : newer.states.length ≤ max width 1) : widened.states.length ≤ max width 1 := by
  unfold widen at h
  split at h
  · obtain ⟨w, -, h⟩ := except_bind_eq_ok.mp h
    cases h
    exact le_trans (length_single w) (by omega)
  · cases h
    exact holder
  · cases h
    exact hnewer

/-! ## §6. Normal forms. -/

/-- No disjunct is below another one. -/
def Apart (d : Disjunction S) : Prop :=
  d.states.Pairwise fun s t => isBelow s t = false ∧ isBelow t s = false

theorem apart_bottom : (bottom : Disjunction S).Apart := List.Pairwise.nil

theorem apart_add (h : d.Apart) (s : S) : (d.add s).Apart := by
  unfold add
  split
  · exact h
  · rename_i hnew
    simp only [Bool.or_eq_true, not_or, Bool.not_eq_true, List.any_eq_false] at hnew
    refine List.pairwise_append.mpr ⟨h.filter _, List.pairwise_singleton _ s, fun t ht u hu => ?_⟩
    obtain ⟨ht, hts⟩ := List.mem_filter.mp ht
    rw [List.mem_singleton.mp hu]
    exact ⟨by simpa using hts, by simpa using hnew.2 t ht⟩

theorem apart_addAll (h : d.Apart) (l : List S) : (d.addAll l).Apart := by
  induction l generalizing d with
  | nil => exact h
  | cons s l ih => exact ih (apart_add h s)

theorem apart_joinLatest (h : d.Apart) : d.joinLatest.Apart := by
  unfold joinLatest
  split
  · rename_i last secondLast earlier hrev
    refine apart_add ?_ _
    have hstates : d.states = earlier.reverse ++ [secondLast, last] := by
      rw [← List.reverse_reverse d.states, hrev]
      simp
    unfold Apart at h
    rw [hstates] at h
    exact (List.pairwise_append.mp h).1
  · exact h

theorem apart_narrow (n : Nat) (h : d.Apart) : (narrow width n d).Apart :=
  narrow_induct (P := Apart) (fun _ => apart_joinLatest) n h

/-- The form in which disjunctions are kept: no disjunct is bottom or below another one, and there
are no more than allowed. -/
structure Normal (width : Nat) (d : Disjunction S) : Prop where
  proper : d.Proper
  apart : d.Apart
  length : d.states.length ≤ max width 1

theorem normal_bottom : (bottom : Disjunction S).Normal width :=
  ⟨proper_bottom, apart_bottom, Nat.zero_le _⟩

theorem normal_ofStates (l : List S) (width : Nat) : (ofStates l width).Normal width :=
  ⟨proper_ofStates l width, apart_narrow _ (apart_addAll apart_bottom l), length_reduce _ _⟩

theorem normal_single (s : S) : (single s).Normal width :=
  ⟨proper_single s, apart_add apart_bottom s, (length_single s).trans (le_max_right _ _)⟩

theorem normal_merge (h : d.Normal width) (d' : Disjunction S) : (d.merge d' width).Normal width :=
  ⟨proper_merge h.proper d' width, apart_narrow _ (apart_addAll h.apart _), length_reduce _ _⟩

theorem normal_widen {domain : Domain A S} {older newer widened : Disjunction S}
    (holder : older.Normal width) (hnewer : newer.Normal width)
    (h : older.widen newer domain = .ok widened) : widened.Normal width := by
  unfold widen at h
  split at h
  · obtain ⟨w, -, h⟩ := except_bind_eq_ok.mp h
    cases h
    exact normal_single w
  · cases h
    exact holder
  · cases h
    exact hnewer

/-- Disjuncts that are apart from one another and from those that are there are all added. -/
theorem addAll_of_apart {l l' : List S} (hproper : ∀ s ∈ l', Interproc.isBottom s = false)
    (h : (l ++ l').Pairwise fun s t => isBelow s t = false ∧ isBelow t s = false) :
    (⟨l⟩ : Disjunction S).addAll l' = ⟨l ++ l'⟩ := by
  induction l' generalizing l with
  | nil => simp [addAll]
  | cons s l' ih =>
    have hs : ∀ t ∈ l, isBelow t s = false ∧ isBelow s t = false := fun t ht =>
      (List.pairwise_append.mp h).2.2 t ht s List.mem_cons_self
    have hadd : (⟨l⟩ : Disjunction S).add s = ⟨l ++ [s]⟩ := by
      have hnew : l.any (isBelow s) = false := List.any_eq_false.mpr fun t ht => by
        rw [(hs t ht).2]
        exact Bool.noConfusion
      have hkept : l.filter (fun t => !isBelow t s) = l := List.filter_eq_self.mpr fun t ht => by
        rw [(hs t ht).1]
        rfl
      simp [add, hproper s List.mem_cons_self, hnew, hkept]
    show ((⟨l⟩ : Disjunction S).add s).addAll l' = _
    rw [hadd, ih (fun t ht => hproper t (List.mem_cons_of_mem s ht)) (by simpa using h)]
    simp

/-- A disjunction in normal form is made of its own disjuncts. -/
theorem Normal.ofStates_states (h : d.Normal width) : ofStates d.states width = d := by
  have hall : (bottom : Disjunction S).addAll d.states = d :=
    addAll_of_apart (l := []) h.proper h.apart
  unfold ofStates
  rw [hall]
  exact reduce_of_length h.length

end Disjunction

/-- The states after an action are in normal form. -/
theorem Engine.normal_of_evaluate {L : Type} [DecidableEq L] [DecidableEq A] {e : Engine L A S}
    {item : Item L A S} {post : Disjunction S} (h : e.evaluate item = .ok post) :
    post.Normal e.options.maxParallelStates := by
  obtain ⟨fresh, -, h⟩ := except_bind_eq_ok.mp h
  unfold postOf at h
  split at h
  · obtain ⟨posts, -, h⟩ := except_bind_eq_ok.mp h
    cases h
    exact Disjunction.normal_ofStates _ _
  · obtain ⟨posts, -, h⟩ := except_bind_eq_ok.mp h
    cases h
    exact Disjunction.normal_ofStates _ _

end Interproc
