/-
  Interproc.Proofs.Reentry
  ────────────────────────
  Why scopes cannot be entered again and again.  Where there are only finitely many
  actions and states, every stack of entered scopes has a rank, which counts

  * the actions that did not enter any of the scopes yet,
  * how many entries are still allowed before states are widened, and
  * how far the entry states of the scopes can still grow.

  Entering a scope lowers the rank: either its action is new, or it may still be
  entered without widening, or its entry state is above the one before.

  Main result: `Engine.Stores.rank_lt`.
-/
import Mathlib
import Interproc.Proofs.Origins

namespace Interproc

variable {L A S : Type} [DecidableEq A]

/-! ## §1. Recursion depth. -/

namespace Item

/-- How often each element of a list occurs, in the order of first occurrences. -/
def tallies (l : List A) : List (A × Nat) := l.foldl (fun counts a => tally a counts) []

theorem tally_map {keys : List A} (hkeys : keys.Nodup) (a : A) (c : A → Nat) :
    tally a (keys.map fun b => (b, c b)) =
      if a ∈ keys then keys.map fun b => (b, if b = a then c b + 1 else c b)
      else (keys.map fun b => (b, c b)) ++ [(a, 1)] := by
  induction keys with
  | nil => rfl
  | cons b keys ih =>
    obtain ⟨hb, hkeys⟩ := List.nodup_cons.mp hkeys
    by_cases hba : b = a
    · subst hba
      have hrest : (keys.map fun d => (d, if d = b then c d + 1 else c d)) =
          keys.map fun d => (d, c d) := by
        refine List.map_congr_left fun d hd => ?_
        have hdb : d ≠ b := fun h => hb (h ▸ hd)
        rw [if_neg hdb]
      simp [tally, hrest]
    · have hab : ¬a = b := fun h => hba h.symm
      simp only [List.map_cons, tally, if_neg hba, ih hkeys, List.mem_cons, hab, false_or]
      split
      · rfl
      · rfl

/-- A tally has one entry for each element, with the number of its occurrences. -/
theorem exists_keys (l : List A) : ∃ keys : List A, keys.Nodup ∧ (∀ b, b ∈ keys ↔ b ∈ l) ∧
    tallies l = keys.map fun b => (b, l.count b) := by
  induction l using List.reverseRecOn with
  | nil => exact ⟨[], List.nodup_nil, fun _ => Iff.rfl, rfl⟩
  | append_singleton l a ih =>
    obtain ⟨keys, hnodup, hmem, heq⟩ := ih
    have hstep : tallies (l ++ [a]) = tally a (tallies l) := by
      unfold tallies
      rw [List.foldl_append]
      rfl
    rw [hstep, heq, tally_map hnodup]
    by_cases ha : a ∈ keys
    · refine ⟨keys, hnodup, fun b => ?_, ?_⟩
      · rw [hmem b, List.mem_append, List.mem_singleton]
        exact ⟨.inl, fun h => h.elim id fun hb => hb ▸ (hmem a).mp ha⟩
      · rw [if_pos ha]
        refine List.map_congr_left fun b _ => ?_
        by_cases hb : b = a
        · subst hb
          simp
        · have hab : ¬a = b := fun h => hb h.symm
          simp [hb, hab]
    · have ha' : a ∉ l := fun h => ha ((hmem a).mpr h)
      refine ⟨keys ++ [a], ?_, fun b => ?_, ?_⟩
      · exact List.Nodup.append hnodup (List.nodup_singleton a) (by simpa using ha)
      · simp [hmem b]
      · rw [if_neg ha, List.map_append]
        congr 1
        · refine List.map_congr_left fun b hb => ?_
          have hab : ¬a = b := fun h => ha (h ▸ hb)
          simp [hab]
        · simp [List.count_eq_zero.mpr ha']

/-- Summing up those entries of a tally that pass a check counts the elements that do. -/
theorem sum_tallies (l : List A) (check : A × Nat → Bool) :
    ((tallies l).filter check).foldr (fun e n => e.2 + n) 0 =
      l.countP fun a => check (a, l.count a) := by
  obtain ⟨keys, hnodup, hmem, heq⟩ := exists_keys l
  have hsum : ∀ keys : List A, ((keys.map fun b => (b, l.count b)).filter check).foldr
      (fun e n => e.2 + n) 0 =
        ((keys.filter fun b => check (b, l.count b)).map fun b => l.count b).sum := by
    intro keys
    induction keys with
    | nil => rfl
    | cons b keys ih =>
      rw [List.map_cons, List.filter_cons, List.filter_cons]
      split
      · rw [List.foldr_cons, List.map_cons, List.sum_cons, ih]
      · exact ih
  -- The keys that pass the check are the elements that do, without repetitions.
  have hset : (keys.filter fun b => check (b, l.count b)).toFinset =
      (l.filter fun b => check (b, l.count b)).toFinset := by
    ext b
    simp [hmem b]
  rw [heq, hsum, List.countP_eq_length_filter, ← List.sum_toFinset _ (hnodup.filter _), hset,
    ← List.sum_toFinset_count_eq_length]
  refine Finset.sum_congr rfl fun b hb => ?_
  have hcheck : check (b, l.count b) = true := (List.mem_filter.mp (List.mem_toFinset.mp hb)).2
  exact (List.count_filter (p := fun a => check (a, l.count a)) hcheck).symm

/-- The recursion depth counts the scopes, the one to be entered included, whose action is the one
that enters it, or one that entered several of them. -/
theorem reentryDepth_eq (item : Item L A S) (action : A) :
    item.reentryDepth action = (action :: item.scopes.map Scope.action).countP fun a =>
      1 < (action :: item.scopes.map Scope.action).count a || a = action := by
  have hperm : (item.scopes.reverse.map Scope.action ++ [action]).Perm
      (action :: item.scopes.map Scope.action) := by
    rw [List.map_reverse]
    exact (List.perm_append_singleton _ _).trans ((List.reverse_perm _).cons action)
  show ((tallies (item.scopes.reverse.map Scope.action ++ [action])).filter _).foldr _ 0 = _
  rw [sum_tallies, hperm.countP_eq]
  refine List.countP_congr fun a _ => ?_
  rw [hperm.count_eq]

end Item

/-- The number of elements of a list that occur more than once. -/
def repeated (l : List A) : Nat := l.countP fun a => 1 < l.count a

theorem repeated_lt_cons {a : A} {l : List A} (h : a ∈ l) : repeated l < repeated (a :: l) := by
  -- What occurred more than once still does, and so does the new element by now.
  have hmono : ∀ b ∈ l, decide (1 < l.count b) = true → decide (1 < (a :: l).count b) = true := by
    intro b _ hb
    have hle := List.count_le_count_cons (a := b) (b := a) (l := l)
    have := of_decide_eq_true hb
    exact decide_eq_true (by omega)
  have hself : decide (1 < (a :: l).count a) = true := by
    have := List.count_pos_iff.mpr h
    rw [List.count_cons_self]
    exact decide_eq_true (by omega)
  unfold repeated
  rw [List.countP_cons, if_pos hself]
  have := List.countP_mono_left hmono
  omega

theorem repeated_le_reentryDepth (item : Item L A S) (action : A) :
    repeated (action :: item.scopes.map Scope.action) ≤ item.reentryDepth action := by
  rw [item.reentryDepth_eq]
  refine List.countP_mono_left fun a _ ha => ?_
  rw [ha, Bool.true_or]

/-! ## §2. How far states can grow. -/

/-- Finitely many actions and states, and a bound on the number of actions that follow one. -/
structure Extent (A S : Type) where
  actions : Finset A
  states : Finset S
  branching : Nat

namespace Extent

variable [DecidableEq L] [AbstractState S] (x : Extent A S) {d d' : Disjunction S}

/-- The number of states that a disjunction covers. -/
def height (d : Disjunction S) : Nat := (x.states.filter fun t => d.states.any (isBelow t)).card

/-- The height of what is stored; there is less than bottom if nothing is. -/
def level : Option (Disjunction S) → Nat
  | none => 0
  | some d => x.height d + 1

/-- No level is above this one. -/
def top : Nat := x.states.card + 1

omit [DecidableEq A] in
theorem level_le_top (d : Option (Disjunction S)) : x.level d ≤ x.top := by
  cases d with
  | none => exact Nat.zero_le _
  | some d => exact Nat.succ_le_succ (Finset.card_filter_le _ _)

omit [DecidableEq A] in
/-- A disjunction that got greater covers more states. -/
theorem height_lt [PreorderedState S] (hsub : d.isSubset d' = true)
    (hchanged : d'.isEquivalent d = false) (hmem : ∀ t ∈ d'.states, t ∈ x.states) :
    x.height d < x.height d' := by
  obtain ⟨t, ht, hnot⟩ : ∃ t ∈ d'.states, ¬d.Covers t := by
    by_contra hall
    push Not at hall
    rw [Disjunction.isEquivalent, Disjunction.isSubset_iff.mpr hall, hsub] at hchanged
    cases hchanged
  have hcovers : ∀ {d : Disjunction S} {t : S}, d.states.any (isBelow t) = true ↔ d.Covers t :=
    List.any_eq_true
  -- What was covered still is, and `t` is covered only now.
  refine Finset.card_lt_card (Finset.ssubset_iff_of_subset ?_ |>.mpr ⟨t, ?_, ?_⟩)
  · intro u hu
    rw [Finset.mem_filter, hcovers] at hu ⊢
    exact ⟨hu.1, hu.2.of_isSubset hsub⟩
  · rw [Finset.mem_filter, hcovers]
    exact ⟨hmem t ht, Disjunction.covers_of_mem ht⟩
  · rw [Finset.mem_filter, hcovers]
    exact fun h => hnot h.2

/-! ## §3. Ranks. -/

/-- The entry state of the innermost scope that an action entered. -/
def latest? (scopes : List (Scope A S)) (a : A) : Option (Disjunction S) :=
  (scopes.find? fun scope => scope.action = a).map Scope.entry

/-- The number of actions that entered none of the scopes. -/
def unused (scopes : List (Scope A S)) : Nat :=
  (x.actions.filter fun a => a ∉ scopes.map Scope.action).card

/-- How far the entry states of the scopes can still grow. -/
def slack (scopes : List (Scope A S)) : Nat :=
  ∑ a ∈ x.actions, (x.top - x.level (latest? scopes a))

/-- The rank of a stack of scopes, if `m` entries are allowed before states are widened. -/
def rank (m : Nat) (scopes : List (Scope A S)) : Nat :=
  x.unused scopes * ((m + 1) * (x.actions.card * x.top + 1)) +
    (m - repeated (scopes.map Scope.action)) * (x.actions.card * x.top + 1) + x.slack scopes

theorem slack_le (scopes : List (Scope A S)) : x.slack scopes ≤ x.actions.card * x.top := by
  unfold slack
  refine (Finset.sum_le_card_nsmul _ _ x.top fun a _ => Nat.sub_le _ _).trans ?_
  rw [smul_eq_mul]

/-- Ranks compare like triples whose later parts are bounded. -/
theorem rank_lt_of_parts {m a a' b b' c c' g : Nat} (hb' : b' ≤ m) (hc' : c' ≤ g)
    (h : a' < a ∨ a' = a ∧ (b' < b ∨ b' ≤ b ∧ c' < c)) :
    a' * ((m + 1) * (g + 1)) + b' * (g + 1) + c' < a * ((m + 1) * (g + 1)) + b * (g + 1) + c := by
  obtain h | ⟨rfl, h | ⟨hb, hc⟩⟩ := h
  · have hfirst : (a' + 1) * ((m + 1) * (g + 1)) ≤ a * ((m + 1) * (g + 1)) :=
      Nat.mul_le_mul_right _ h
    have hsecond : b' * (g + 1) ≤ m * (g + 1) := Nat.mul_le_mul_right _ hb'
    have hsplit : (a' + 1) * ((m + 1) * (g + 1)) =
        a' * ((m + 1) * (g + 1)) + m * (g + 1) + (g + 1) := by ring
    omega
  · have hsecond : (b' + 1) * (g + 1) ≤ b * (g + 1) := Nat.mul_le_mul_right _ h
    have hsplit : (b' + 1) * (g + 1) = b' * (g + 1) + (g + 1) := by ring
    omega
  · have hsecond : b' * (g + 1) ≤ b * (g + 1) := Nat.mul_le_mul_right _ hb
    omega

variable {x} {scope : Scope A S} {scopes : List (Scope A S)} {m : Nat}

omit [AbstractState S] in
theorem unused_cons_lt (ha : scope.action ∈ x.actions)
    (hnew : scope.action ∉ scopes.map Scope.action) :
    x.unused (scope :: scopes) < x.unused scopes := by
  refine Finset.card_lt_card (Finset.ssubset_iff_of_subset ?_ |>.mpr ⟨scope.action, ?_, ?_⟩)
  · intro a ha
    rw [Finset.mem_filter] at ha ⊢
    exact ⟨ha.1, fun h => ha.2 (List.mem_cons_of_mem _ h)⟩
  · exact Finset.mem_filter.mpr ⟨ha, hnew⟩
  · exact fun h => (Finset.mem_filter.mp h).2 List.mem_cons_self

omit [AbstractState S] in
theorem unused_cons (hold : scope.action ∈ scopes.map Scope.action) :
    x.unused (scope :: scopes) = x.unused scopes := by
  unfold unused
  congr 1
  refine Finset.filter_congr fun a _ => ?_
  rw [List.map_cons, List.mem_cons, not_or]
  exact ⟨fun h => h.2, fun h => ⟨fun ha => h (ha ▸ hold), h⟩⟩

theorem slack_cons_lt {older : Disjunction S} (ha : scope.action ∈ x.actions)
    (hlatest : latest? scopes scope.action = some older)
    (hheight : x.height older < x.height scope.entry) :
    x.slack (scope :: scopes) < x.slack scopes := by
  have hself : latest? (scope :: scopes) scope.action = some scope.entry := by simp [latest?]
  refine Finset.sum_lt_sum (fun a _ => ?_) ⟨scope.action, ha, ?_⟩
  · by_cases hsame : a = scope.action
    · subst hsame
      rw [hself, hlatest]
      simp only [level]
      omega
    · have hother : latest? (scope :: scopes) a = latest? scopes a := by
        unfold latest?
        rw [List.find?_cons_of_neg (by simpa using fun h => hsame h.symm)]
      rw [hother]
  · have htop := x.level_le_top (some scope.entry)
    rw [hself, hlatest]
    simp only [level] at htop ⊢
    omega

/-- A scope is entered for the first time by its action, or it may be entered once more, or its
entry state grows: each lowers the rank. -/
theorem rank_cons_lt (ha : scope.action ∈ x.actions)
    (h : scope.action ∉ scopes.map Scope.action ∨
      repeated (scope.action :: scopes.map Scope.action) ≤ m ∨
      ∃ older, latest? scopes scope.action = some older ∧
        x.height older < x.height scope.entry) :
    x.rank m (scope :: scopes) < x.rank m scopes := by
  refine rank_lt_of_parts (Nat.sub_le _ _) (x.slack_le _) ?_
  by_cases hnew : scope.action ∈ scopes.map Scope.action
  · refine .inr ⟨unused_cons hnew, ?_⟩
    have hlt := repeated_lt_cons hnew
    rw [List.map_cons]
    obtain hfresh | hallowed | ⟨older, hlatest, hheight⟩ := h
    · exact absurd hnew hfresh
    · exact .inl (by omega)
    · exact .inr ⟨by omega, slack_cons_lt ha hlatest hheight⟩
  · exact .inl (unused_cons_lt ha hnew)

end Extent

/-! ## §4. Entering scopes. -/

namespace Engine

variable [DecidableEq L] [AbstractState S]
variable {e : Engine L A S} {s s' : RunState L A S} {item final : Item L A S}
variable {post widened : Disjunction S} {x : Extent A S}

/-- Entering a scope lowers the rank. -/
theorem Stores.rank_lt [GroundedState S] (hc : e.Coherent) (hlaws : e.domain.Lawful)
    (hstores : e.Stores item post final widened s s')
    (henters : e.transitions.entersScope item.action = true) (ha : item.action ∈ x.actions)
    (hmem : ∀ t ∈ widened.states, t ∈ x.states) :
    x.rank e.options.maxUnwindings final.scopes < x.rank e.options.maxUnwindings item.scopes := by
  obtain ⟨rfl, -⟩ := hstores.entered henters
  have hscopes := advanced_scopes_of_enters hc.separate henters
  have hlatest : (e.advanced item).latestEntry item.action =
      (item.scopes.find? fun scope => scope.action = item.action).map fun scope =>
        (scope.layer, scope.entry) := by
    unfold Item.latestEntry
    rw [hscopes]
  show x.rank _ (_ :: (e.advanced item).scopes) < _
  rw [hscopes]
  refine Extent.rank_cons_lt ha ?_
  obtain ⟨hagainst, -⟩ | ⟨older, hagainst, hwiden, hchanged, -⟩ := hstores.2.1
  · unfold widensAgainst at hagainst
    rw [advanced_action, henters, if_pos rfl, hlatest] at hagainst
    split at hagainst
    · -- No scope was entered by the action, so there is nothing to widen against.
      left
      rw [Option.map_map, Option.map_eq_none_iff, List.find?_eq_none] at hagainst
      rintro hmem
      obtain ⟨scope, hscope, haction⟩ := List.mem_map.mp hmem
      exact hagainst scope hscope (decide_eq_true haction)
    · -- The recursion is not deep enough for widening.
      rename_i hdepth
      right
      left
      have hle := repeated_le_reentryDepth (e.advanced item) item.action
      rw [hscopes] at hle
      exact hle.trans (Nat.not_lt.mp hdepth)
  · -- What was widened changed, so it is above the entry state that it was widened against.
    right
    right
    unfold widensAgainst at hagainst
    rw [advanced_action, henters, if_pos rfl, hlatest] at hagainst
    split at hagainst
    · refine ⟨older, ?_, ?_⟩
      · rw [Option.map_map] at hagainst
        exact hagainst
      · exact x.height_lt (Disjunction.covers_widen hlaws hwiden hstores.1).2 hchanged hmem
    · cases hagainst

end Engine

end Interproc
