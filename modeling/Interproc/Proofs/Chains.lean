/-
  Interproc.Proofs.Chains
  ───────────────────────
  Chains of predecessors.  An item knows the item that it follows, and so back to
  one that follows nothing; no item is met twice on the way.  The steps of a
  counterexample are the links of such a chain, so what holds of every link holds
  of every step.

  Main result: `Counterexample.shows_of_ofItem` — a counterexample tells how its
  item was reached.
-/
import Mathlib
import Interproc.Proofs.References

namespace Interproc

variable {L A S : Type}

/-! ## §1. Going back. -/

namespace Arena

variable {a a' : Arena L A S} {id j : ItemId} {item i : Item L A S} {chain chain' : List ItemId}

/-- The positions from an item back to one without predecessor. -/
inductive Descends (a : Arena L A S) : ItemId → List ItemId → Prop where
  | first {id : ItemId} {item : Item L A S} (hget : a.get id = .ok item)
      (hp : item.predecessor = none) : Descends a id [id]
  | next {id p : ItemId} {item : Item L A S} {chain : List ItemId} (hget : a.get id = .ok item)
      (hp : item.predecessor = some p) (h : Descends a p chain) : Descends a id (id :: chain)

/-- Every live item goes back to one without predecessor. -/
def Rooted (a : Arena L A S) : Prop :=
  ∀ id item, a.get id = .ok item → ∃ chain, a.Descends id chain

theorem Descends.unique (h : a.Descends id chain) (h' : a.Descends id chain') :
    chain = chain' := by
  induction h generalizing chain' with
  | first hget hp =>
    cases h' with
    | first => rfl
    | next hget' hp' =>
      rw [hget] at hget'
      cases hget'
      rw [hp] at hp'
      cases hp'
  | @next id p item chain hget hp _ ih =>
    cases h' with
    | first hget' hp' =>
      rw [hget] at hget'
      cases hget'
      rw [hp] at hp'
      cases hp'
    | next hget' hp' h' =>
      rw [hget] at hget'
      cases hget'
      rw [hp] at hp'
      cases hp'
      rw [ih h']

/-- Every item of a chain goes on with the rest of the chain. -/
theorem Descends.of_mem (h : a.Descends id chain) (hj : j ∈ chain) :
    ∃ rest, a.Descends j rest ∧ rest.length ≤ chain.length := by
  induction h with
  | first hget hp =>
    obtain rfl := List.mem_singleton.mp hj
    exact ⟨_, .first hget hp, le_rfl⟩
  | @next id p item chain hget hp h ih =>
    obtain rfl | hj := List.mem_cons.mp hj
    · exact ⟨_, .next hget hp h, le_rfl⟩
    · obtain ⟨rest, hrest, hle⟩ := ih hj
      exact ⟨rest, hrest, hle.trans (Nat.le_succ _)⟩

/-- A chain does not visit an item twice: it would be longer than itself. -/
theorem Descends.nodup (h : a.Descends id chain) : chain.Nodup := by
  induction h with
  | first => exact List.nodup_singleton _
  | @next id p item chain hget hp h ih =>
    refine List.nodup_cons.mpr ⟨fun hmem => ?_, ih⟩
    -- Met again, the item would go back along a part of its own chain, and along all of it.
    obtain ⟨rest, hrest, hle⟩ := h.of_mem hmem
    have hlength := congrArg List.length ((Descends.next hget hp h).unique hrest)
    simp only [List.length_cons] at hlength
    omega

theorem Descends.lt_size (h : a.Descends id chain) : ∀ j ∈ chain, j.index < a.slots.size := by
  intro j hj
  obtain ⟨rest, hrest, -⟩ := h.of_mem hj
  cases hrest with
  | first hget =>
    obtain ⟨references, hslot⟩ := get_eq_ok_iff.mp hget
    exact lt_size_of_slot? hslot
  | next hget =>
    obtain ⟨references, hslot⟩ := get_eq_ok_iff.mp hget
    exact lt_size_of_slot? hslot

/-- There are no more links in a chain than slots in the arena. -/
theorem Descends.length_le (h : a.Descends id chain) : chain.length ≤ a.slots.size := by
  have hnodup : (chain.map ItemId.index).Nodup :=
    h.nodup.map fun j k hjk => index_eq_iff.mp hjk
  have hsubset : chain.map ItemId.index ⊆ List.range a.slots.size := by
    intro k hk
    obtain ⟨j, hj, rfl⟩ := List.mem_map.mp hk
    exact List.mem_range.mpr (h.lt_size j hj)
  simpa using (hnodup.subperm hsubset).length_le

/-- A chain of an older arena is a chain still, as long as what is live and what precedes it are
as they were. -/
theorem Descends.transfer (h : a.Descends id chain) (hget : a.get id = .ok item)
    (hget' : a'.get id = .ok i) (hsame : i.predecessor = item.predecessor)
    (hlive : ∀ j i p, a'.get j = .ok i → i.predecessor = some p → ∃ q q', a'.get p = .ok q ∧
      a.get p = .ok q' ∧ q.predecessor = q'.predecessor) : a'.Descends id chain := by
  induction h generalizing item i with
  | first hfirst hp =>
    rw [hfirst] at hget
    cases hget
    exact .first hget' (hsame.trans hp)
  | next hnext hp _ ih =>
    rw [hnext] at hget
    cases hget
    obtain ⟨q, q', hq, hq', hpred⟩ := hlive _ i _ hget' (hsame.trans hp)
    exact .next hget' (hsame.trans hp) (ih hq' hq hpred)

theorem Rooted.transfer (h : a.Rooted) (hlive : ∀ j i p, a'.get j = .ok i →
    i.predecessor = some p → ∃ q q', a'.get p = .ok q ∧ a.get p = .ok q' ∧
      q.predecessor = q'.predecessor) : a'.Rooted := by
  intro j i hget
  cases hp : i.predecessor with
  | none => exact ⟨_, .first hget hp⟩
  | some p =>
    obtain ⟨q, q', hq, hq', hpred⟩ := hlive j i p hget hp
    obtain ⟨chain, hchain⟩ := h p q' hq'
    exact ⟨_, .next hget hp (hchain.transfer hq' hq hpred hlive)⟩

end Arena

/-! ## §2. Walking back. -/

/-- Following the predecessors of an item leads to one that has none. -/
def Counterexample.WalksBack (arena : Arena L A S) (target : A → L) (item : Item L A S) : Prop :=
  ∃ first steps, walkBack arena target arena.slots.size item [] = .ok (first, steps) ∧
    first.predecessor = none

theorem Counterexample.exists_walkBack {a : Arena L A S} {target : A → L} {id : ItemId}
    {item : Item L A S} {chain : List ItemId} {n : Nat} {steps : List (TraceStep L A S)}
    (h : a.Descends id chain) (hget : a.get id = .ok item) (hn : chain.length ≤ n + 1) :
    ∃ first steps', walkBack a target n item steps = .ok (first, steps') ∧
      first.predecessor = none := by
  induction h generalizing item n steps with
  | first hfirst hp =>
    rw [hfirst] at hget
    cases hget
    refine ⟨_, steps, ?_, hp⟩
    cases n with
    | zero => rfl
    | succ n =>
      unfold walkBack
      simp only [hp]
  | @next id p next chain hnext hp h ih =>
    rw [hnext] at hget
    cases hget
    simp only [List.length_cons] at hn
    -- A link is left to follow, so the walk may still take a step.
    have hpos : 0 < chain.length := by
      cases h with
      | first => exact Nat.one_pos
      | next => exact Nat.succ_pos _
    obtain ⟨m, rfl⟩ : ∃ m, n = m + 1 := ⟨n - 1, by omega⟩
    obtain ⟨q, hq⟩ : ∃ q, a.get p = .ok q := by
      cases h with
      | first hq => exact ⟨_, hq⟩
      | next hq => exact ⟨_, hq⟩
    unfold walkBack
    rw [hp]
    simp only [hq, bind, Except.bind]
    exact ih hq (by omega)

theorem Arena.Rooted.walksBack {a : Arena L A S} {id : ItemId} {item : Item L A S}
    (h : a.Rooted) (hget : a.get id = .ok item) (target : A → L) :
    Counterexample.WalksBack a target item := by
  obtain ⟨chain, hchain⟩ := h id item hget
  exact Counterexample.exists_walkBack hchain hget (hchain.length_le.trans (Nat.le_succ _))

/-! ## §3. What a counterexample tells. -/

namespace Counterexample

variable {a a' : Arena L A S} {source target : A → L} {item other : Item L A S} {first : A}
variable {initial post : Disjunction S} {steps : List (TraceStep L A S)}

/-- The steps that lead to an item from the first one of its chain, which has the action `first`
and the states `initial`. -/
inductive Leads (a : Arena L A S) (target : A → L) (first : A) (initial : Disjunction S) :
    Item L A S → List (TraceStep L A S) → Prop where
  | first {item : Item L A S} (hp : item.predecessor = none) (haction : item.action = first)
      (hpre : item.pre = initial) : Leads a target first initial item []
  | next {item before : Item L A S} {p : ItemId} {steps : List (TraceStep L A S)}
      (hp : item.predecessor = some p) (hget : a.get p = .ok before)
      (h : Leads a target first initial before steps) :
      Leads a target first initial item
        (steps ++ [⟨before.action, target before.action, item.pre⟩])

/-- The steps to an item depend on its action, its states and its predecessor only. -/
theorem Leads.congr (h : Leads a target first initial item steps)
    (haction : other.action = item.action) (hpre : other.pre = item.pre)
    (hpred : other.predecessor = item.predecessor) : Leads a target first initial other steps := by
  cases h with
  | first hp hfirst hinitial =>
    exact .first (hpred.trans hp) (haction.trans hfirst) (hpre.trans hinitial)
  | next hp hget h =>
    rw [← hpre]
    exact .next (hpred.trans hp) hget h

/-- The steps to an item are the same in an arena where the predecessors of what is live in both
are the same. -/
theorem Leads.transfer (h : Leads a target first initial item steps)
    (hitem : ∃ j i i', a.get j = .ok i ∧ a'.get j = .ok i' ∧ i.predecessor = item.predecessor ∧
      i'.predecessor = item.predecessor)
    (hsame : ∀ j i i' p q, a.get j = .ok i → a'.get j = .ok i' → i.predecessor = some p →
      i'.predecessor = some p → a.get p = .ok q → a'.get p = .ok q) :
    Leads a' target first initial item steps := by
  induction h with
  | first hp haction hpre => exact .first hp haction hpre
  | next hp hget _ ih =>
    obtain ⟨j, i, i', hi, hi', hpred, hpred'⟩ := hitem
    have hget' := hsame j i i' _ _ hi hi' (hpred.trans hp) (hpred'.trans hp) hget
    exact .next hp hget' (ih ⟨_, _, _, hget, hget', rfl, rfl⟩)

theorem leads_of_walkBack {n : Nat} {last : Item L A S} {later : List (TraceStep L A S)}
    (h : walkBack a target n item later = .ok (last, steps)) (hp : last.predecessor = none) :
    ∃ earlier, steps = earlier ++ later ∧ Leads a target last.action last.pre item earlier := by
  -- The walk puts each step in front of the `later` ones, so these are arbitrary in the induction.
  induction n generalizing item later with
  | zero =>
    cases h
    exact ⟨[], rfl, .first hp rfl rfl⟩
  | succ n ih =>
    unfold walkBack at h
    split at h
    · cases h
      exact ⟨[], rfl, .first hp rfl rfl⟩
    · rename_i p hpred
      cases hget : a.get p with
      | error => simp [hget, bind, Except.bind] at h
      | ok before =>
        simp only [hget, bind, Except.bind] at h
        obtain ⟨earlier, rfl, hleads⟩ := ih h
        exact ⟨_, by simp, .next hpred hget hleads⟩

theorem errorAction_of_ofItem {id : ItemId} {c : Counterexample L A S} (hget : a.get id = .ok item)
    (h : ofItem a source target id post = .ok c) : c.errorAction = item.action := by
  unfold ofItem at h
  rw [hget] at h
  cases hwalk : walkBack a target a.slots.size item [] with
  | error => simp [hwalk, bind, Except.bind] at h
  | ok walked =>
    simp only [hwalk, bind, Except.bind, pure, Except.pure] at h
    cases h
    rfl

/-- A counterexample tells how an item was reached, and that its action leads to `post`. -/
structure Shows (a : Arena L A S) (source target : A → L) (item : Item L A S)
    (post : Disjunction S) (c : Counterexample L A S) : Prop where
  action : c.errorAction = item.action
  location : c.errorSource = source item.action
  state : c.errorState = post
  chain : ∃ first, c.start = source first ∧ Leads a target first c.initial item c.trace

/-- The counterexample that is made up for an item tells how the item was reached. -/
theorem shows_of_ofItem {id : ItemId} {c : Counterexample L A S} (ha : a.Rooted)
    (hget : a.get id = .ok item) (h : ofItem a source target id post = .ok c) :
    c.Shows a source target item post := by
  obtain ⟨last, steps, hwalk, hp⟩ := ha.walksBack hget target
  simp only [ofItem, hget, hwalk, bind, Except.bind, pure, Except.pure] at h
  cases h
  obtain ⟨earlier, hsteps, hleads⟩ := leads_of_walkBack hwalk hp
  rw [List.append_nil] at hsteps
  exact ⟨rfl, rfl, rfl, last.action, rfl, hsteps ▸ hleads⟩

end Counterexample

end Interproc
