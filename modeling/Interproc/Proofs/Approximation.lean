/-
  Interproc.Proofs.Approximation
  ──────────────────────────────
  What the operations on disjunctions keep, and how well they approximate.  A disjunct
  may be dropped for a greater one, or joined with another one, any number of times.
  Whatever the order of the states is, no bottom and no superfluous disjunct is left,
  and no more disjuncts than allowed.  If the order is a preorder with joins, moreover,

    * nothing is lost: what was put in, and is not bottom, is below some disjunct;
    * nothing is made up: every disjunct is below all that is above what was put in.

  Bottoms are exempt: they are never stored, and nothing need be above them.

  An operation that asks the domain fails only with an error of the domain.  `Yields`
  says this together with what holds of the result, so that failing is no way out.

  Merging something into a disjunction changes it only if it did not cover that before,
  and then always.  So the test whether something is covered and the test whether merging
  changed anything agree, for every width.

  Main results: `Disjunction.irredundant_of_operation`, `Disjunction.approximates_of_operation`,
  `Disjunction.merge_keeps_or_grows`.
-/
import Mathlib
import Interproc.Proofs.Failures
import Interproc.Proofs.Intervals
import Interproc.Proofs.Summaries

namespace Interproc

variable {A S α β : Type} [AbstractState S]

/-! ## §1. Results and errors. -/

/-- There is a result and it has `Q`, or there is an error and it was raised as `R` says. -/
def Yields (Q : α → Prop) (R : Error → Prop) : Except Error α → Prop
  | .ok a => Q a
  | .error cause => R cause

theorem yields_self (x : Except Error α) : Yields (x = .ok ·) (x = .error ·) x := by
  cases x with
  | ok a => rfl
  | error cause => rfl

theorem Yields.imp {Q Q' : α → Prop} {R R' : Error → Prop} {x : Except Error α} (h : Yields Q R x)
    (hQ : ∀ a, Q a → Q' a) (hR : ∀ cause, R cause → R' cause) : Yields Q' R' x := by
  cases x with
  | ok a => exact hQ a h
  | error cause => exact hR cause h

theorem Yields.bind_pure {Q : α → Prop} {R : Error → Prop} {x : Except Error α} (h : Yields Q R x)
    (f : α → β) : Yields (fun b => ∃ a, Q a ∧ b = f a) R (x >>= fun a => pure (f a)) := by
  cases x with
  | ok a => exact ⟨a, h, rfl⟩
  | error cause => exact h

theorem yields_mapM (f : α → Except Error β) (l : List α) :
    Yields (List.Forall₂ (fun a b => f a = .ok b) l) (fun cause => ∃ a ∈ l, f a = .error cause)
      (l.mapM f) :=
  (yields_self (l.mapM f)).imp (fun _ => forall₂_of_mapM) fun _ => exists_of_mapM_error

namespace Disjunction

variable {d e d' older newer widened : Disjunction S} {s t u : S} {l l' : List S} {width : Nat}

theorem mapDisjuncts_yields (d : Disjunction S) (width : Nat) (f : S → Except Error S) :
    Yields (fun d' => ∃ l, List.Forall₂ (fun s t => f s = .ok t) d.states l ∧ d' = ofStates l width)
      (fun cause => ∃ s ∈ d.states, f s = .error cause) (d.mapDisjuncts width f) :=
  (yields_mapM f d.states).bind_pure _

theorem post_yields (d : Disjunction S) (domain : Domain A S) (action : A) (width : Nat) :
    Yields
      (fun d' => ∃ posts, List.Forall₂ (fun s ts => domain.post s action = .ok ts) d.states posts ∧
        d' = ofStates posts.flatten width)
      (fun cause => ∃ s ∈ d.states, domain.post s action = .error cause)
      (d.post domain action width) :=
  (yields_mapM _ d.states).bind_pure fun posts => ofStates posts.flatten width

omit [AbstractState S] in
theorem mem_pairs {p : S × S} : p ∈ d.pairs e ↔ p.1 ∈ d.states ∧ p.2 ∈ e.states := by
  obtain ⟨s, t⟩ := p
  simp [pairs]

theorem postLeaving_yields (d outer : Disjunction S) (domain : Domain A S) (action : A)
    (width : Nat) :
    Yields
      (fun d' => ∃ posts, List.Forall₂ (fun p ts => domain.postLeaving p.1 p.2 action = .ok ts)
          (d.pairs outer) posts ∧ d' = ofStates posts.flatten width)
      (fun cause => ∃ s ∈ d.states, ∃ o ∈ outer.states,
        domain.postLeaving s o action = .error cause)
      (d.postLeaving outer domain action width) := by
  refine ((yields_mapM _ (d.pairs outer)).bind_pure fun posts => ofStates posts.flatten width).imp
    (fun _ h => h) ?_
  rintro cause ⟨p, hp, hcause⟩
  obtain ⟨hs, ho⟩ := mem_pairs.mp hp
  exact ⟨p.1, hs, p.2, ho, hcause⟩

/-- Widening asks the domain only if both sides have disjuncts. -/
theorem widen_yields (older newer : Disjunction S) (domain : Domain A S) :
    Yields
      (fun widened => older.states = [] ∧ widened = newer ∨ newer.states = [] ∧ widened = older ∨
        ∃ s t u, older.collapse = some s ∧ newer.collapse = some t ∧ domain.widen s t = .ok u ∧
          widened = single u)
      (fun cause => ∃ s t, older.collapse = some s ∧ newer.collapse = some t ∧
        domain.widen s t = .error cause)
      (older.widen newer domain) := by
  unfold widen
  cases hold : older.collapse with
  | none => exact .inl ⟨collapse_eq_none_iff.mp hold, rfl⟩
  | some s =>
    cases hnew : newer.collapse with
    | none => exact .inr (.inl ⟨collapse_eq_none_iff.mp hnew, rfl⟩)
    | some t =>
      refine ((yields_self (domain.widen s t)).bind_pure single).imp ?_ ?_
      · rintro widened ⟨u, hu, rfl⟩
        exact .inr (.inr ⟨s, t, u, rfl, rfl, hu, rfl⟩)
      · exact fun cause hcause => ⟨s, t, rfl, rfl, hcause⟩

/-! ## §2. Irredundance. -/

/-- No disjunct is bottom, and none is below a disjunct at another place. -/
structure Irredundant (d : Disjunction S) : Prop where
  proper : d.Proper
  apart : d.Apart

theorem irredundant_single (s : S) : (single s).Irredundant :=
  ⟨proper_single s, apart_add apart_bottom s⟩

theorem Irredundant.merge (h : d.Irredundant) (e : Disjunction S) (width : Nat) :
    (d.merge e width).Irredundant :=
  ⟨proper_merge h.proper e width, apart_narrow _ (apart_addAll h.apart e.states)⟩

/-- No operation leaves a bottom or a superfluous disjunct, whatever the order of the states is, and
those with a width leave no more disjuncts than allowed.  Merging and widening rely on what they are
given for this, except that merging always respects the width. -/
theorem irredundant_of_operation (width : Nat) :
    (∀ s : S, (single s).Irredundant) ∧
    (∀ l : List S, (ofStates l width).Normal width) ∧
    (∀ (d : Disjunction S) (f : S → Except Error S),
      Yields (Normal width) (fun cause => ∃ s ∈ d.states, f s = .error cause)
        (d.mapDisjuncts width f)) ∧
    (∀ (d : Disjunction S) (domain : Domain A S) (action : A),
      Yields (Normal width) (fun cause => ∃ s ∈ d.states, domain.post s action = .error cause)
        (d.post domain action width)) ∧
    (∀ (d outer : Disjunction S) (domain : Domain A S) (action : A),
      Yields (Normal width)
        (fun cause => ∃ s ∈ d.states, ∃ o ∈ outer.states,
          domain.postLeaving s o action = .error cause)
        (d.postLeaving outer domain action width)) ∧
    (∀ d e : Disjunction S, (d.merge e width).states.length ≤ max width 1 ∧
      (d.Irredundant → e.Irredundant → (d.merge e width).Irredundant)) ∧
    ∀ (older newer : Disjunction S) (domain : Domain A S), older.Irredundant → newer.Irredundant →
      Yields Irredundant
        (fun cause => ∃ s t, older.collapse = some s ∧ newer.collapse = some t ∧
          domain.widen s t = .error cause)
        (older.widen newer domain) := by
  refine ⟨irredundant_single, fun l => normal_ofStates l width, fun d f => ?_,
    fun d domain action => ?_, fun d outer domain action => ?_,
    fun d e => ⟨length_reduce _ width, fun hd _ => hd.merge e width⟩,
    fun older newer domain holder hnewer => ?_⟩
  · refine (mapDisjuncts_yields d width f).imp ?_ fun _ h => h
    rintro _ ⟨l, -, rfl⟩
    exact normal_ofStates l width
  · refine (post_yields d domain action width).imp ?_ fun _ h => h
    rintro _ ⟨posts, -, rfl⟩
    exact normal_ofStates posts.flatten width
  · refine (postLeaving_yields d outer domain action width).imp ?_ fun _ h => h
    rintro _ ⟨posts, -, rfl⟩
    exact normal_ofStates posts.flatten width
  · refine (widen_yields older newer domain).imp ?_ fun _ h => h
    rintro widened (⟨-, rfl⟩ | ⟨-, rfl⟩ | ⟨s, t, u, -, -, -, rfl⟩)
    · exact hnewer
    · exact holder
    · exact irredundant_single u

/-- The store in which only `x` is known, by its bounds. -/
def xWithin (lo hi : Int64) : IntervalState := IntervalState.unconstrained.setVariable "x" ⟨lo, hi⟩

/-- Stores one of which is bottom, and some of which are below others, before and after them. -/
def overlapping : List IntervalState :=
  [xWithin 1 1, .empty, xWithin 0 5, xWithin 2 3, xWithin 11 11, xWithin 20 20, xWithin 8 8]

set_option maxRecDepth 100000 in
/-- Four of the stores are left if so many are allowed.  If not, the latest two of them are joined,
and the join makes another one superfluous. -/
theorem irredundant_of_operation_overlapping :
    (ofStates overlapping 4).states = [xWithin 0 5, xWithin 11 11, xWithin 20 20, xWithin 8 8] ∧
    (ofStates overlapping 4).Normal 4 ∧
    (ofStates overlapping 3).states = [xWithin 0 5, xWithin 8 20] ∧
    (ofStates overlapping 3).Normal 3 ∧
    ((ofStates overlapping 4).merge (ofStates overlapping 3) 1).states = [xWithin 0 20] ∧
    ((ofStates overlapping 4).merge (ofStates overlapping 3) 1).Irredundant := by
  obtain ⟨-, hfour, -⟩ := irredundant_of_operation (A := Statement) (S := IntervalState) 4
  obtain ⟨-, hthree, -⟩ := irredundant_of_operation (A := Statement) (S := IntervalState) 3
  obtain ⟨-, -, -, -, -, hmerge, -⟩ :=
    irredundant_of_operation (A := Statement) (S := IntervalState) 1
  refine ⟨by decide +kernel, hfour overlapping, by decide +kernel, hthree overlapping,
    by decide +kernel, (hmerge _ _).2 ?_ ?_⟩
  · exact ⟨(hfour overlapping).proper, (hfour overlapping).apart⟩
  · exact ⟨(hthree overlapping).proper, (hthree overlapping).apart⟩

end Disjunction

/-! ## §3. Approximation. -/

/-- Joins are least upper bounds.  Bottoms need not be below everything. -/
class SemilatticeState (S : Type) [AbstractState S] : Prop extends GroundedState S where
  join_least {s t u : S} : isBelow s u = true → isBelow t u = true → isBelow (join s t) u = true

export SemilatticeState (join_least)

instance [JoinedState S] : SemilatticeState S := ⟨join_below⟩

namespace Disjunction

variable {d e d' older newer widened : Disjunction S} {s t u : S} {l l' : List S} {width : Nat}

/-- What joins keep, and all states have, all disjuncts have. -/
theorem forall_ofStates {Q : S → Prop} (hjoin : ∀ s t, Q s → Q t → Q (join s t))
    (h : ∀ s ∈ l, Q s) : ∀ t ∈ (ofStates l width).states, Q t := by
  refine forall_narrow hjoin _ fun t ht => ?_
  obtain hnone | ht := mem_addAll ht
  · cases hnone
  · exact h t ht

/-- Few states may come in any order. -/
theorem isSubset_ofStates_of_subset [GroundedState S] (hl : l ⊆ l')
    (hfew : l.length ≤ max width 1) : (ofStates l width).isSubset (ofStates l' width) = true := by
  refine isSubset_iff.mpr fun t ht => ?_
  have hmem := mem_of_mem_ofStates (List.Subset.refl l) hfew ht
  exact covers_ofStates (hl hmem) (proper_ofStates l width t ht)

theorem isSubset_merge_of_proper [GroundedState S] (he : e.Proper) :
    e.isSubset (d.merge e width) = true :=
  isSubset_iff.mpr fun s hs => covers_merge_right (covers_of_mem hs) (he s hs)

/-- What was computed for some argument is covered by the disjunction of all that was computed. -/
theorem covers_ofStates_flatten [GroundedState S] {f : α → Except Error (List S)} {args : List α}
    {posts : List (List S)} (h : List.Forall₂ (fun a ts => f a = .ok ts) args posts) {a : α}
    (ha : a ∈ args) :
    ∃ ts, f a = .ok ts ∧
      ∀ t ∈ ts, Interproc.isBottom t = false → (ofStates posts.flatten width).Covers t := by
  obtain ⟨ts, hmem, hts⟩ := Engine.exists_of_forall₂_left h ha
  exact ⟨ts, hts, fun t ht => covers_ofStates (List.mem_flatten.mpr ⟨ts, hmem, ht⟩)⟩

/-- A state above all disjuncts covers them, since it is no bottom if there is any disjunct. -/
theorem isSubset_single [GroundedState S] (hd : d.Proper) (h : ∀ s ∈ d.states, isBelow s u = true) :
    d.isSubset (single u) = true := by
  refine isSubset_iff.mpr fun s hs => ?_
  have hu : Interproc.isBottom u = false := by
    by_contra hbottom
    rw [Bool.not_eq_false] at hbottom
    exact Bool.false_ne_true ((hd s hs).symm.trans (bottom_of_below (h s hs) hbottom))
  exact (covers_single hu).of_below (h s hs)

theorem isSubset_of_states_eq_nil (h : d.states = []) (e : Disjunction S) :
    d.isSubset e = true := by
  simp [isSubset, h]

/-- How well disjunctions approximate states.  Of the states that they are made of, all but bottoms
are covered, nothing above all of them is exceeded, and as long as they are few enough, disjuncts
are taken from them and their order does not matter.  So merging and widening cover what they are given,
and the states after an action cover all that the domain says. -/
theorem approximates_of_operation [SemilatticeState S] (width : Nat) :
    (∀ l : List S,
      (∀ s ∈ l, Interproc.isBottom s = false → (ofStates l width).Covers s) ∧
      (∀ u, (∀ s ∈ l, isBelow s u = true) → ∀ t ∈ (ofStates l width).states, isBelow t u = true) ∧
      (l.length ≤ max width 1 → (∀ t ∈ (ofStates l width).states, t ∈ l) ∧
        ∀ l', l.Perm l' → (ofStates l width).isEquivalent (ofStates l' width) = true)) ∧
    (∀ d e : Disjunction S, d.Proper → e.Proper →
      d.isSubset (d.merge e width) = true ∧ e.isSubset (d.merge e width) = true) ∧
    (∀ (d : Disjunction S) (domain : Domain A S) (action : A),
      Yields
        (fun d' => ∀ s ∈ d.states, ∃ ts, domain.post s action = .ok ts ∧
          ∀ t ∈ ts, Interproc.isBottom t = false → d'.Covers t)
        (fun cause => ∃ s ∈ d.states, domain.post s action = .error cause)
        (d.post domain action width)) ∧
    (∀ (d outer : Disjunction S) (domain : Domain A S) (action : A),
      Yields
        (fun d' => ∀ s ∈ d.states, ∀ o ∈ outer.states, ∃ ts,
          domain.postLeaving s o action = .ok ts ∧
            ∀ t ∈ ts, Interproc.isBottom t = false → d'.Covers t)
        (fun cause => ∃ s ∈ d.states, ∃ o ∈ outer.states,
          domain.postLeaving s o action = .error cause)
        (d.postLeaving outer domain action width)) ∧
    ∀ (older newer : Disjunction S) (domain : Domain A S), domain.Lawful → older.Proper →
      newer.Proper →
        Yields (fun widened => older.isSubset widened = true ∧ newer.isSubset widened = true)
          (fun cause => ∃ s t, older.collapse = some s ∧ newer.collapse = some t ∧
            domain.widen s t = .error cause)
          (older.widen newer domain) := by
  refine ⟨fun l => ⟨fun s => covers_ofStates, fun u hu => ?_, fun hfew => ⟨fun t => ?_, ?_⟩⟩,
    fun d e hd he => ⟨isSubset_merge_left hd e width, isSubset_merge_of_proper he⟩,
    fun d domain action => ?_, fun d outer domain action => ?_,
    fun older newer domain hlaws holder hnewer => ?_⟩
  · exact forall_ofStates (fun s t => join_least) hu
  · exact mem_of_mem_ofStates (List.Subset.refl l) hfew
  · intro l' hperm
    -- Both lists are few, so each covers the disjuncts taken from the other.
    have hfew' : l'.length ≤ max width 1 := hperm.length_eq ▸ hfew
    rw [isEquivalent, Bool.and_eq_true]
    exact ⟨isSubset_ofStates_of_subset hperm.subset hfew,
      isSubset_ofStates_of_subset hperm.symm.subset hfew'⟩
  · refine (post_yields d domain action width).imp ?_ fun _ h => h
    rintro _ ⟨posts, hposts, rfl⟩ s hs
    exact covers_ofStates_flatten hposts hs
  · refine (postLeaving_yields d outer domain action width).imp ?_ fun _ h => h
    rintro _ ⟨posts, hposts, rfl⟩ s hs o ho
    have hpair : (s, o) ∈ d.pairs outer := mem_pairs.mpr ⟨hs, ho⟩
    exact covers_ofStates_flatten hposts hpair
  · refine (widen_yields older newer domain).imp ?_ fun _ h => h
    rintro widened (⟨hempty, rfl⟩ | ⟨hempty, rfl⟩ | ⟨s, t, u, hs, ht, hu, rfl⟩)
    · exact ⟨isSubset_of_states_eq_nil hempty _, isSubset_refl _⟩
    · exact ⟨isSubset_refl _, isSubset_of_states_eq_nil hempty _⟩
    · constructor
      · refine isSubset_single holder fun v hv => ?_
        exact below_of_below (below_collapse hs hv) (hlaws.below_widen_left hu)
      · refine isSubset_single hnewer fun v hv => ?_
        exact below_of_below (below_collapse ht hv) (hlaws.below_widen_right hu)

set_option maxRecDepth 100000 in
/-- A store that was made superfluous by a join is still covered, before and after an action, the
join is not too great, and two stores may change places. -/
theorem approximates_of_operation_overlapping :
    (ofStates overlapping 3).Covers (xWithin 11 11) ∧
    (∀ t ∈ (ofStates overlapping 3).states, isBelow t (xWithin 0 20) = true) ∧
    (ofStates [xWithin 0 5, xWithin 8 8] 3).isEquivalent (ofStates [xWithin 8 8, xWithin 0 5] 3) =
      true ∧
    (single (xWithin 8 8)).isSubset ((single (xWithin 0 5)).merge (single (xWithin 8 8)) 1) = true ∧
    (∃ d', (ofStates overlapping 4).post IntervalState.domain ⟨0, 1, .internal, .add "x" 1⟩ 3 =
      .ok d' ∧ d'.Covers (xWithin 12 12)) ∧
    ∃ widened, (single (xWithin 0 5)).widen (single (xWithin 0 8)) IntervalState.domain =
      .ok widened ∧ (single (xWithin 0 8)).isSubset widened = true := by
  obtain ⟨hstates, -, hpost, -, hwiden⟩ :=
    approximates_of_operation (A := Transition Statement) (S := IntervalState) 3
  obtain ⟨-, hmerge, -⟩ :=
    approximates_of_operation (A := Transition Statement) (S := IntervalState) 1
  obtain ⟨hcovers, hbound, -⟩ := hstates overlapping
  refine ⟨hcovers _ (by decide +kernel) (by decide +kernel), hbound _ (by decide +kernel),
    ((hstates _).2.2 (by decide)).2 _ (List.Perm.swap _ _ []), ?_, ?_, ?_⟩
  · exact (hmerge _ _ (proper_single _) (proper_single _)).2
  · have hyields :=
      hpost (ofStates overlapping 4) IntervalState.domain ⟨0, 1, .internal, .add "x" 1⟩
    refine ⟨_, rfl, ?_⟩
    obtain ⟨ts, hts, hall⟩ := hyields (xWithin 11 11) (by decide +kernel)
    cases hts
    exact hall _ (by decide +kernel) (by decide +kernel)
  · have hyields := hwiden (single (xWithin 0 5)) (single (xWithin 0 8)) IntervalState.domain
      IntervalState.domain_lawful (proper_single _) (proper_single _)
    exact ⟨_, rfl, hyields.2⟩

/-! ## §4. Growth. -/

/-- What merging does not change covers what was merged into it. -/
theorem isSubset_of_isEquivalent_merge [GroundedState S] (he : e.Proper)
    (h : (d.merge e width).isEquivalent d = true) : e.isSubset d = true := by
  rw [isEquivalent, Bool.and_eq_true] at h
  exact isSubset_trans (isSubset_merge_of_proper he) h.1

/-- Merging changes a disjunction exactly if it does not cover the other one.  What is covered
leaves all disjuncts where they are, and what is not covered makes the disjunction strictly greater,
no matter which disjuncts are dropped or joined to keep the width. -/
theorem merge_keeps_or_grows [GroundedState S] (hd : d.Normal width) (he : e.Proper) :
    (e.isSubset d = true → (d.merge e width).states = d.states) ∧
    (e.isSubset d = false → d.isSubset (d.merge e width) = true ∧
      (d.merge e width).isEquivalent d = false) := by
  refine ⟨fun hcovered => ?_, fun hnew => ⟨isSubset_merge_left hd.proper e width, ?_⟩⟩
  · rw [merge_of_isSubset hd.length hcovered]
  · by_contra hsame
    rw [Bool.not_eq_false] at hsame
    rw [isSubset_of_isEquivalent_merge he hsame] at hnew
    cases hnew

set_option maxRecDepth 100000 in
/-- Two stores that are covered change nothing.  If one of them is not covered, there is no room for
it, and its join with the latest disjunct takes the place of that one. -/
theorem merge_keeps_or_grows_overlapping :
    ((ofStates overlapping 2).merge ⟨[xWithin 11 11, xWithin 9 9]⟩ 2).states =
      [xWithin 0 5, xWithin 8 20] ∧
    ((ofStates overlapping 2).merge ⟨[xWithin 11 11, xWithin 30 30]⟩ 2).states =
      [xWithin 0 5, xWithin 8 30] ∧
    (ofStates overlapping 2).isSubset
      ((ofStates overlapping 2).merge ⟨[xWithin 11 11, xWithin 30 30]⟩ 2) = true ∧
    ((ofStates overlapping 2).merge ⟨[xWithin 11 11, xWithin 30 30]⟩ 2).isEquivalent
      (ofStates overlapping 2) = false := by
  have hnormal : (ofStates overlapping 2).Normal 2 := normal_ofStates overlapping 2
  have hcovered := merge_keeps_or_grows hnormal (e := ⟨[xWithin 11 11, xWithin 9 9]⟩)
    (by unfold Proper; decide +kernel)
  have hnew := merge_keeps_or_grows hnormal (e := ⟨[xWithin 11 11, xWithin 30 30]⟩)
    (by unfold Proper; decide +kernel)
  have hstates : (ofStates overlapping 2).states = [xWithin 0 5, xWithin 8 20] := by
    decide +kernel
  exact ⟨(hcovered.1 (by decide +kernel)).trans hstates, by decide +kernel,
    hnew.2 (by decide +kernel)⟩

end Disjunction

end Interproc
