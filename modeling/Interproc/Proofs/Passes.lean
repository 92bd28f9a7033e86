/-
  Interproc.Proofs.Passes
  ───────────────────────
  What happens while one item is processed, in terms of items rather than
  positions.  A pass takes one item from the worklist, leaves it behind with its
  scopes and loops brought up to date, and puts new items on the worklist: exits
  handed to waiting calls, items that step over a call once more, and successors.
  Everything that is proved about computations is proved from this description.

  Main result: `Engine.iterate_pass` — every successful iteration is a pass.
-/
import Mathlib
import Interproc.Proofs.Chains
import Interproc.Proofs.Pending

namespace Interproc

variable {L A S : Type}

/-! ## §1. Keeping states tidy. -/

namespace RunState

variable {s s' : RunState L A S} {extra extra' : ItemId → Nat} {id : ItemId}

namespace Tidy

/-- References may move between holders. -/
theorem shift (h : s.Tidy extra) (hitems : s'.items = s.items) (hpending : s'.pending = s.pending)
    (hheld : ∀ j, s'.held j + extra' j = s.held j + extra j)
    (hsummaries : ∀ j, s'.summaries.held j ≤ s.summaries.held j) : s'.Tidy extra' where
  counted := by
    rw [hitems]
    exact cast (congrArg _ (funext fun j => (hheld j).symm)) h.counted
  fresh := by
    rw [hitems, hpending]
    exact h.fresh
  linked := by
    rw [hitems]
    exact h.linked
  users := by
    rw [hitems]
    exact fun j i hj hget => h.users j i (Nat.lt_of_lt_of_le hj (hsummaries j)) hget

/-- A new holder takes a reference to an item that is not pending. -/
theorem hold (h : s.Tidy extra) (hretain : s.items.retain id = .ok s'.items) (hid : id ∉ s.pending)
    (hpending : s'.pending = s.pending)
    (hheld : ∀ j, s'.held j + extra' j = s.held j + extra j + once id j)
    (husers : ∀ j, 0 < s'.summaries.held j → 0 < s.summaries.held j ∨
      ∀ i, s.items.get j = .ok i → i.summary.isSome) : s'.Tidy extra' := by
  obtain ⟨hcounted, hget, href, -⟩ := h.counted.retain hretain
  refine ⟨?_, ?_, ?_, ?_⟩
  · exact cast (congrArg _ (funext fun j => (hheld j).symm)) hcounted
  · rw [hpending]
    intro j hj
    have hne : j ≠ id := fun hjid => hid (hjid ▸ hj)
    rw [href, once_of_ne hne, Nat.add_zero]
    exact h.fresh j hj
  · exact fun j i hi => h.linked j i ((hget j).symm.trans hi)
  · intro j i hj hi
    rw [hget] at hi
    obtain hbefore | hsummary := husers j hj
    · exact h.users j i hbefore hi
    · exact hsummary i hi

/-- An item may be replaced by one with the same predecessor and summary. -/
theorem set {old item : Item L A S} (h : s.Tidy extra) (hset : s.items.set id item = .ok s'.items)
    (hold : s.items.get id = .ok old) (hpredecessor : item.predecessor = old.predecessor)
    (hsummary : item.summary = old.summary) (hpending : s'.pending = s.pending)
    (hheld : ∀ j, s'.held j + extra' j = s.held j + extra j)
    (hsummaries : ∀ j, s'.summaries.held j ≤ s.summaries.held j) :
    s'.Tidy extra' ∧ ∀ j, s'.items.get j = if j = id then .ok item else s.items.get j := by
  obtain ⟨hcounted, hget, href⟩ := h.counted.set hset hold hpredecessor
  refine ⟨⟨?_, ?_, ?_, ?_⟩, hget⟩
  · exact cast (congrArg _ (funext fun j => (hheld j).symm)) hcounted
  · rw [hpending]
    exact fun j hj => (href j).trans (h.fresh j hj)
  · intro j i hi
    rw [hget] at hi
    split at hi
    · cases hi
      rw [hsummary, hpredecessor]
      exact h.linked id old hold
    · exact h.linked j i hi
  · intro j i hj hi
    have hbefore := Nat.lt_of_lt_of_le hj (hsummaries j)
    rw [hget] at hi
    split at hi
    · rename_i hjid
      cases hi
      subst hjid
      rw [hsummary]
      exact h.users j old hbefore hold
    · exact h.users j i hbefore hi

end Tidy

end RunState

namespace Worklist

variable {w w' : Worklist} {id : ItemId}

theorem perm_of_pop (h : w.pop = some (id, w')) : w.pending.Perm (id :: w'.pending) := by
  unfold pop at h
  cases horder : w.order with
  | fifo =>
    rw [horder] at h
    obtain ⟨j, hj, hpair⟩ := Option.map_eq_some_iff.mp h
    cases hpair
    obtain ⟨rest, hrest⟩ := List.head?_eq_some_iff.mp hj
    simp [hrest]
  | lifo =>
    rw [horder] at h
    obtain ⟨j, hj, hpair⟩ := Option.map_eq_some_iff.mp h
    cases hpair
    obtain ⟨rest, hrest⟩ := List.getLast?_eq_some_iff.mp hj
    simp only [hrest, List.dropLast_concat]
    exact List.perm_append_singleton _ rest

theorem mem_of_pop (h : w.pop = some (id, w')) : id ∈ w.pending :=
  (perm_of_pop h).mem_iff.mpr List.mem_cons_self

theorem pending_of_pop_none (h : w.pop = none) : w.pending = [] := by
  unfold pop at h
  cases horder : w.order with
  | fifo => simpa [horder] using h
  | lifo => simpa [horder] using h

end Worklist

namespace Engine

variable {s : RunState L A S} {id : ItemId} {worklist : Worklist}

theorem taken_tidy (h : s.Tidy fun _ => 0) (hpop : s.worklist.pop = some (id, worklist)) :
    (taken worklist s).Tidy (once id) := by
  have hperm := Worklist.perm_of_pop hpop
  refine ⟨?_, ?_, h.linked, h.users⟩
  · refine cast (congrArg _ (funext fun j => ?_)) h.counted
    have hcount := hperm.count_eq j
    rw [count_cons_once] at hcount
    simp only [RunState.held, RunState.pending, taken]
    omega
  · exact fun j hj => h.fresh j (hperm.mem_iff.mpr (List.mem_cons_of_mem id hj))

/-! ## §2. The item in flight. -/

end Engine

/-- The situation while an item is processed: since it was taken, new items were put on the
worklist, and only the item itself was changed. -/
structure InFlight (id : ItemId) (extra : ItemId → Nat) (current : Item L A S)
    (new : List (ItemId × Item L A S)) (t u : RunState L A S) : Prop where
  tidy : u.Tidy fun j => once id j + extra j
  get_current : u.items.get id = .ok current
  pending : u.pending = t.pending ++ new.map Prod.fst
  created : ∀ n ∈ new, u.items.get n.1 = .ok n.2
  old : ∀ j i, u.items.get j = .ok i → (j, i) ∈ new ∨ j = id ∧ i = current ∨
    j ≠ id ∧ t.items.get j = .ok i ∧ (j ∈ u.pending → j ∈ t.pending)

namespace InFlight

variable {t u u' : RunState L A S} {extra extra' : ItemId → Nat} {id j : ItemId}
variable {item item' i : Item L A S} {new new' : List (ItemId × Item L A S)}

theorem start (ht : t.Tidy (once id)) (hget : t.items.get id = .ok item) :
    InFlight id (fun _ => 0) item [] t t where
  tidy := ht
  get_current := hget
  pending := by simp
  created := by simp
  old := by
    intro j i hi
    by_cases hj : j = id
    · subst hj
      rw [hget] at hi
      cases hi
      exact .inr (.inl ⟨rfl, rfl⟩)
    · exact .inr (.inr ⟨hj, hi, fun h => h⟩)

theorem not_pending (h : InFlight id extra item new t u) : id ∉ u.pending :=
  h.tidy.not_pending (by simp only [once_self]; omega)

theorem mem_pending_of_new (h : InFlight id extra item new t u) (hj : (j, i) ∈ new) :
    j ∈ u.pending := by
  rw [h.pending]
  exact List.mem_append_right _ (List.mem_map_of_mem hj)

/-- A step that changes no item but the one in flight. -/
theorem move (h : InFlight id extra item new t u) (ht : u'.Tidy fun j => once id j + extra' j)
    (hpending : u'.pending = u.pending)
    (hget : ∀ j, u'.items.get j = if j = id then .ok item' else u.items.get j) :
    InFlight id extra' item' new t u' where
  tidy := ht
  get_current := by rw [hget, if_pos rfl]
  pending := hpending.trans h.pending
  created := by
    intro n hn
    have hne : n.1 ≠ id := fun hid => h.not_pending (hid ▸ h.mem_pending_of_new hn)
    rw [hget, if_neg hne]
    exact h.created n hn
  old := by
    intro j i hi
    rw [hget] at hi
    split at hi
    · rename_i hj
      cases hi
      exact .inr (.inl ⟨hj, rfl⟩)
    · rename_i hj
      obtain hnew | ⟨hjid, -⟩ | hold := h.old j i hi
      · exact .inl hnew
      · exact absurd hjid hj
      · rw [hpending]
        exact .inr (.inr hold)

/-- A step that changes no item. -/
theorem stay (h : InFlight id extra item new t u) (ht : u'.Tidy fun j => once id j + extra' j)
    (hpending : u'.pending = u.pending) (hget : ∀ j, u'.items.get j = u.items.get j) :
    InFlight id extra' item new t u' := by
  refine h.move ht hpending fun j => ?_
  split
  · rename_i hj
    rw [hget, hj]
    exact h.get_current
  · exact hget j

theorem grows (h : InFlight id extra item new t u)
    (hgrows : Grows (fun j => once id j + extra' j) new' u u') :
    InFlight id extra' item (new ++ new') t u' where
  tidy := hgrows.tidy
  get_current := hgrows.get_of_held (by simp only [once_self]; omega) h.get_current
  pending := by rw [hgrows.pending, h.pending, List.map_append, List.append_assoc]
  created := by
    intro n hn
    obtain hn | hn := List.mem_append.mp hn
    · exact hgrows.get_of_pending (h.mem_pending_of_new hn) (h.created n hn)
    · exact hgrows.created n hn
  old := by
    intro j i hi
    obtain hnew | ⟨hget, hj⟩ := hgrows.old j i hi
    · exact .inl (List.mem_append_right _ hnew)
    · obtain hnew | hcurrent | ⟨hne, hold, hmem⟩ := h.old j i hget
      · exact .inl (List.mem_append_left _ hnew)
      · exact .inr (.inl hcurrent)
      · exact .inr (.inr ⟨hne, hold, fun hpending => hmem (hj hpending)⟩)

/-- An item that is neither pending nor in flight was there when the item in flight was taken. -/
theorem get_before (h : InFlight id extra item new t u) (hj : j ∉ u.pending) (hne : j ≠ id)
    (hget : u.items.get j = .ok i) : t.items.get j = .ok i := by
  obtain hnew | ⟨hjid, -⟩ | ⟨-, hold, -⟩ := h.old j i hget
  · exact absurd (h.mem_pending_of_new hnew) hj
  · exact absurd hjid hne
  · exact hold

/-- As long as there is nothing new, all items were there when the item in flight was taken. -/
theorem get_of_nil (h : InFlight id extra item [] t u) (htaken : t.items.get id = .ok item)
    (hget : u.items.get j = .ok i) : t.items.get j = .ok i := by
  obtain hnew | ⟨rfl, rfl⟩ | ⟨-, hold, -⟩ := h.old j i hget
  · cases hnew
  · exact htaken
  · exact hold

/-- What was pending when the item in flight was taken still is, with the same item behind it. -/
theorem get_of_pending (h : InFlight id extra item new t u) (hj : j ∈ t.pending)
    (hget : t.items.get j = .ok i) : u.items.get j = .ok i := by
  have hmem : j ∈ u.pending := by
    rw [h.pending]
    exact List.mem_append_left _ hj
  obtain ⟨i', hi'⟩ := h.tidy.live_of_pending hmem
  obtain hnew | ⟨hjid, -⟩ | ⟨-, hold, -⟩ := h.old j i' hi'
  · have hcount := (h.tidy.of_pending hmem).1
    have hleft := List.count_pos_iff.mpr hj
    have hright := List.count_pos_iff.mpr (List.mem_map_of_mem (f := Prod.fst) hnew)
    rw [h.pending, List.count_append] at hcount
    simp only [] at hright
    omega
  · exact absurd (hjid ▸ hmem) h.not_pending
  · rw [hget] at hold
    cases hold
    exact hi'

/-- The chain of the item in flight leads back to an item without predecessor. -/
theorem rooted {current : Item L A S} (h : InFlight id extra current new t u) (htaken : t.items.get id = .ok item)
    (hsame : current.predecessor = item.predecessor) (ht : t.items.Rooted) :
    u.items.Rooted := by
  refine ht.transfer fun j i p hi hp => ?_
  obtain ⟨hnot, q, hq⟩ := h.tidy.predecessor hi hp
  by_cases hpid : p = id
  · subst hpid
    rw [h.get_current] at hq
    cases hq
    exact ⟨current, item, h.get_current, htaken, hsame⟩
  · exact ⟨q, q, hq, h.get_before hnot hpid hq, rfl⟩

/-- What the chain of the item in flight tells, it told when the item was taken: none of the items
before it was changed since. -/
theorem shows_before {current : Item L A S} {source target : A → L} {post : Disjunction S}
    {c : Counterexample L A S} (h : InFlight id extra current new t u)
    (htaken : t.items.get id = .ok item) (hlonely : t.items.successors id = 0)
    (haction : current.action = item.action) (hpre : current.pre = item.pre)
    (hpred : current.predecessor = item.predecessor)
    (hc : c.Shows u.items source target current post) :
    c.Shows t.items source target item post := by
  obtain ⟨first, hstart, hleads⟩ := hc.chain
  refine ⟨hc.action.trans haction, hc.location.trans (by rw [haction]), hc.state, first, hstart,
    (hleads.congr haction.symm hpre.symm hpred.symm).transfer
      ⟨id, current, item, h.get_current, htaken, hpred, rfl⟩ fun j i i' p q hi hi' hp hp' hq => ?_⟩
  have hne : p ≠ id := by
    rintro rfl
    have := Arena.successors_pos hi' hp'
    omega
  exact h.get_before (h.tidy.predecessor hi hp).1 hne hq

/-- The activation that the item in flight is subscribed to holds it. -/
theorem held {layer : LayerId} (h : InFlight id extra item new t u)
    (hretain : u.items.retain id = .ok u'.items)
    (hu : u'.exits = u.exits.subscribe layer id ∧ u'.worklist = u.worklist ∧
      u'.summaries = u.summaries) : InFlight id extra item new t u' := by
  obtain ⟨hexits, hworklist, hsummaries⟩ := hu
  refine h.stay (h.tidy.hold hretain h.not_pending (by rw [RunState.pending, hworklist])
    (fun j => ?_) fun j hj => .inl (by rw [hsummaries] at hj; exact hj))
    (by rw [RunState.pending, hworklist]) (h.tidy.counted.retain hretain).2.1
  simp only [RunState.held, RunState.pending, hexits, hworklist, hsummaries, Exits.held_subscribe]
  omega

/-- The item in flight is subscribed to an activation. -/
theorem subscribed {layer : LayerId} (h : InFlight id extra item new t u)
    (hsubscribed : Subscribed id layer u u') :
    ∃ new', InFlight id extra item (new ++ new') t u' ∧
      new'.map Prod.snd = (u.exits.activation layer).exits.map (fun exit =>
        .returning exit.state exit.action exit.predecessor item layer) ∧
      u'.exits = u.exits.subscribe layer id ∧ u'.layers = u.layers ∧
      u'.summaries = u.summaries ∧ u'.reachedErrors = u.reachedErrors ∧
      u'.counterexamples = u.counterexamples ∧ u'.statistics = u.statistics := by
  obtain ⟨items, events, hretain, heach⟩ := hsubscribed
  obtain ⟨v, hv⟩ : ∃ v : RunState L A S, v = { u with
    items := items, exits := u.exits.subscribe layer id, events := events } := ⟨_, rfl⟩
  rw [← hv] at heach
  have hmid : InFlight id extra item new t v :=
    h.held (by rw [hv]; exact hretain) (by rw [hv]; exact ⟨rfl, rfl, rfl⟩)
  obtain ⟨new', hgrows, hnew⟩ := Each.handed heach hmid.tidy
    (fun _ _ => by simp only [once_self]; omega)
    (fun exit hexit p hp => by
      have hmem : exit ∈ (v.exits.activation layer).exits := by
        simp only [hv, Exits.activation_subscribe, if_pos]
        exact hexit
      exact Exits.held_pos_of_exit hmem hp)
  have hunmoved := hgrows.unmoved
  refine ⟨new', hmid.grows hgrows, ?_, ?_, ?_, ?_, ?_, ?_, ?_⟩
  · refine map_snd_of_forall₂ (hnew.imp fun exit n hhands => ?_)
    obtain ⟨callItem, hcall, hitem⟩ := hhands
    rw [hmid.get_current] at hcall
    cases hcall
    exact hitem
  · rw [hunmoved.exits, hv]
  · rw [hunmoved.layers, hv]
  · rw [hunmoved.summaries, hv]
  · rw [hunmoved.reachedErrors, hv]
  · rw [hunmoved.counterexamples, hv]
  · rw [hunmoved.statistics, hv]

end InFlight

/-! ## §3. Passes. -/

/-- The positions and items before and after a pass over the item at `id`, which ends up as
`final`: some were added, some may have been freed, and all others are as they were. -/
structure Frame (id : ItemId) (final : Item L A S) (new : List (ItemId × Item L A S))
    (s s' : RunState L A S) : Prop where
  mem_pending : ∀ j, j ∈ s'.pending ↔ j ∈ s.pending ∧ j ≠ id ∨ j ∈ new.map Prod.fst
  created : ∀ n ∈ new, s'.items.get n.1 = .ok n.2
  kept : ∀ j i, j ∈ s.pending → j ≠ id → s.items.get j = .ok i → s'.items.get j = .ok i
  old : ∀ j i, s'.items.get j = .ok i → (j, i) ∈ new ∨ j = id ∧ i = final ∧ j ∉ s'.pending ∨
    j ≠ id ∧ s.items.get j = .ok i ∧ (j ∈ s'.pending → j ∈ s.pending)

namespace Frame

variable {id p : ItemId} {final q : Item L A S} {new : List (ItemId × Item L A S)}
variable {s s' : RunState L A S}

theorem mem_pending_of_new (h : Frame id final new s s') (hq : (p, q) ∈ new) : p ∈ s'.pending :=
  (h.mem_pending p).mpr (.inr (List.mem_map_of_mem (f := Prod.fst) hq))

/-- A settled item other than the one that was processed was there before. -/
theorem get_settled (h : Frame id final new s s') (hp : p ∉ s'.pending) (hne : p ≠ id)
    (hq : s'.items.get p = .ok q) : s.items.get p = .ok q := by
  obtain hnew | ⟨hpid, -, -⟩ | ⟨-, hold, -⟩ := h.old p q hq
  · exact absurd (h.mem_pending_of_new hnew) hp
  · exact absurd hpid hne
  · exact hold

theorem get_final (h : Frame id final new s s') (hid : id ∉ s'.pending)
    (hq : s'.items.get id = .ok q) : q = final := by
  obtain hnew | ⟨-, hfinal, -⟩ | ⟨hne, -, -⟩ := h.old id q hq
  · exact absurd (h.mem_pending_of_new hnew) hid
  · exact hfinal
  · exact absurd rfl hne

/-- The live items after a pass: new ones, the one that was processed, and old ones. -/
theorem live_cases {handed rest : List (Item L A S)} (h : Frame id final new s s')
    (hnew : new.map Prod.snd = handed ++ rest) (hq : s'.items.get p = .ok q) :
    q ∈ handed ∨ q ∈ rest ∨ p = id ∧ q = final ∨ s.items.get p = .ok q := by
  obtain hmem | ⟨hpid, hfinal, -⟩ | ⟨-, hold, -⟩ := h.old p q hq
  · have hmem' : q ∈ new.map Prod.snd := List.mem_map_of_mem (f := Prod.snd) hmem
    rw [hnew] at hmem'
    obtain hhanded | hrest := List.mem_append.mp hmem'
    · exact .inl hhanded
    · exact .inr (.inl hrest)
  · exact .inr (.inr (.inl ⟨hpid, hfinal⟩))
  · exact .inr (.inr (.inr hold))

/-- The pending items after a pass are new, or were pending before. -/
theorem pending_cases {handed rest : List (Item L A S)} (h : Frame id final new s s')
    (hnew : new.map Prod.snd = handed ++ rest) (hp : p ∈ s'.pending)
    (hq : s'.items.get p = .ok q) :
    q ∈ handed ∨ q ∈ rest ∨ p ∈ s.pending ∧ s.items.get p = .ok q := by
  obtain hmem | ⟨-, -, hnot⟩ | ⟨-, hold, hmem⟩ := h.old p q hq
  · have hmem' : q ∈ new.map Prod.snd := List.mem_map_of_mem (f := Prod.snd) hmem
    rw [hnew] at hmem'
    obtain hhanded | hrest := List.mem_append.mp hmem'
    · exact .inl hhanded
    · exact .inr (.inl hrest)
  · exact absurd hp hnot
  · exact .inr (.inr ⟨hmem hp, hold⟩)

end Frame

namespace Engine

variable [DecidableEq L] [DecidableEq A] [AbstractState S] (e : Engine L A S)

/-- The exit that an item takes was remembered, and `handed` to the calls that wait for it. -/
inductive ExitPart (item : Item L A S) (s : RunState L A S) (exits : Exits A S)
    (handed : List (Item L A S)) : Prop where
  | skipped (hskip : e.leaves item = false ∨ item.returned = true ∨ item.pre.isBottom = true)
      (hexits : exits = s.exits) (hhanded : handed = [])
  | known (hleaves : e.leaves item = true) (hreturned : item.returned = false)
      (hpre : item.pre.isBottom = false)
      (hrecord : s.exits.record e.domain e.options item.currentLayer item.action item.pre
        item.predecessor = .ok (none, exits)) (hhanded : handed = [])
  | grown {change : ExitChange A S} (hleaves : e.leaves item = true)
      (hreturned : item.returned = false) (hpre : item.pre.isBottom = false)
      (hrecord : s.exits.record e.domain e.options item.currentLayer item.action item.pre
        item.predecessor = .ok (some change, exits))
      (hhanded : List.Forall₂ (fun call i => s.Hands item.currentLayer call change.exit i)
        (exits.activation item.currentLayer).calls handed)

/-- The states after an item's action were computed, or taken from a summary. -/
inductive PostPart (id : ItemId) (item : Item L A S) (s : RunState L A S) (post : Disjunction S)
    (summaries : Summaries A S) : Prop where
  | interpreted (hsummary : item.summary = none) (hpost : e.evaluate item = .ok post)
      (hsummaries : summaries = s.summaries)
  | summarised {r : SummaryRef A} (hsummary : item.summary = some r)
      (hpost : s.summaries.post? r = some post) (hsummaries : summaries = s.summaries.addUse r id)

/-- The states that are stored for the states after an item's action. -/
def WidenedTo (item : Item L A S) (post widened : Disjunction S) (s s' : RunState L A S) : Prop :=
  e.widensAgainst item = none ∧ widened = post ∨
    ∃ older, e.widensAgainst item = some older ∧ older.widen post e.domain = .ok widened ∧
      widened.isEquivalent older = false ∧ s.statistics.widenings < s'.statistics.widenings

variable {e} in
theorem WidenedTo.congr {item : Item L A S} {post widened : Disjunction S}
    {s s₁ s' : RunState L A S} (h : e.WidenedTo item post widened s s₁)
    (hcount : s'.statistics.widenings = s₁.statistics.widenings) :
    e.WidenedTo item post widened s s' := by
  obtain hkept | ⟨older, hagainst, hwiden, hchanged, hlt⟩ := h
  · exact .inl hkept
  · exact .inr ⟨older, hagainst, hwiden, hchanged, by rw [hcount]; exact hlt⟩

/-- The item and the layers after the scope of an item's action was entered, if it enters one. -/
inductive EnterPart (item : Item L A S) (widened : Disjunction S) (layers : Layers L A S) :
    Item L A S → Layers L A S → Prop where
  | stayed (hstays : e.transitions.entersScope item.action = false) :
      EnterPart item widened layers item layers
  | entered {layer : LayerId} {layers' : Layers L A S}
      (henters : e.transitions.entersScope item.action = true)
      (hcreate : layers.create item.currentLayer = .ok (layer, layers')) :
      EnterPart item widened layers (item.enterScope item.action layer item.pre widened) layers'

omit [DecidableEq L] [DecidableEq A] [AbstractState S] in
variable {e} in
theorem EnterPart.action_eq {item inside : Item L A S} {widened : Disjunction S}
    {layers layers' : Layers L A S} (h : e.EnterPart item widened layers inside layers') :
    inside.action = item.action := by
  cases h with
  | stayed => rfl
  | entered => rfl

/-- How an item ends up as `final`, with `new` items on the worklist. -/
inductive EndPart (id : ItemId) (item : Item L A S) (post : Disjunction S) (s : RunState L A S)
    (exits : Exits A S) (summaries : Summaries A S) (final : Item L A S)
    (new : List (Item L A S)) (s' : RunState L A S) : Prop where
  | infeasible (hpost : post.isBottom = true) (hfinal : final = item) (hnew : new = [])
      (hlayers : s'.layers = s.layers) (hexits : s'.exits = exits)
      (hsummaries : s'.summaries = summaries)
  | covered (hpost : post.isBottom = false) (hcovered : e.covers s.layers item post = .ok true)
      (henters : e.transitions.entersScope item.action = false ∨
        item.latestEntry item.action = none)
      (hfinal : final = item) (hnew : new = [])
      (hlayers : s'.layers = s.layers) (hexits : s'.exits = exits)
      (hsummaries : s'.summaries = summaries)
  | coveredCall {layer : LayerId} {entry : Disjunction S} (hpost : post.isBottom = false)
      (hcovered : e.covers s.layers item post = .ok true)
      (henters : e.transitions.entersScope item.action = true)
      (hentry : item.latestEntry item.action = some (layer, entry)) (hfinal : final = item)
      (hnew : new = (exits.activation layer).exits.map fun exit =>
        .returning exit.state exit.action exit.predecessor item layer)
      (hlayers : s'.layers = s.layers) (hexits : s'.exits = exits.subscribe layer id)
      (hsummaries : s'.summaries = summaries)
  | loopFixpoint {older widened : Disjunction S} (hpost : post.isBottom = false)
      (hcovered : e.covers s.layers item post = .ok false)
      (hnoted : e.transitions.isError (e.transitions.target item.action) = true →
        item.action ∈ s'.reachedErrors)
      (henters : e.transitions.entersScope item.action = false)
      (hagainst : e.widensAgainst (e.advanced item) = some older)
      (hwiden : older.widen post e.domain = .ok widened)
      (hsame : widened.isEquivalent older = true)
      (hcount : s.statistics.widenings < s'.statistics.widenings)
      (hfinal : final = e.advanced item)
      (hnew : List.Forall₂ (fun j i => s.Redoes j i) (e.summarise item post summaries).1 new)
      (hlayers : s'.layers = s.layers) (hexits : s'.exits = exits)
      (hsummaries : s'.summaries = (e.summarise item post summaries).2)
  | entryFixpoint {layer : LayerId} {older widened : Disjunction S} {redone : List (Item L A S)}
      (hpost : post.isBottom = false) (hcovered : e.covers s.layers item post = .ok false)
      (hnoted : e.transitions.isError (e.transitions.target item.action) = true →
        item.action ∈ s'.reachedErrors)
      (henters : e.transitions.entersScope item.action = true)
      (hentry : (e.advanced item).latestEntry item.action = some (layer, older))
      (hagainst : e.widensAgainst (e.advanced item) = some older)
      (hwiden : older.widen post e.domain = .ok widened)
      (hsame : widened.isEquivalent older = true)
      (hcount : s.statistics.widenings < s'.statistics.widenings)
      (hfinal : final = e.advanced item)
      (hredone : List.Forall₂ (fun j i => s.Redoes j i) (e.summarise item post summaries).1 redone)
      (hnew : new = redone ++ (exits.activation layer).exits.map fun exit =>
        .returning exit.state exit.action exit.predecessor (e.advanced item) layer)
      (hlayers : s.layers.addScopeFixpoint (e.advanced item).currentLayer item.action older
        = .ok s'.layers)
      (hexits : s'.exits = exits.subscribe layer id)
      (hsummaries : s'.summaries = (e.summarise item post summaries).2)
  | stored {widened stored : Disjunction S} {layers : Layers L A S} {changed : Bool}
      {previous : Option (Disjunction S)} {redone : List (Item L A S)}
      (hpost : post.isBottom = false) (hcovered : e.covers s.layers item post = .ok false)
      (hnoted : e.transitions.isError (e.transitions.target item.action) = true →
        item.action ∈ s'.reachedErrors)
      (hwiden : e.WidenedTo (e.advanced item) post widened s s')
      (henter : e.EnterPart (e.advanced item) widened s.layers final layers)
      (hprevious : layers.state? final.currentLayer (e.transitions.target item.action)
        = .ok previous)
      (hadd : layers.addState final.currentLayer (e.transitions.target item.action) widened
        = .ok (stored, s'.layers))
      (hchanged : changed = previous.all (fun p => !stored.isEquivalent p))
      (hredone : List.Forall₂ (fun j i => s.Redoes j i) (e.summarise item post summaries).1 redone)
      (hnew : new = redone ++ if changed then
        (e.goesOn final).map (e.successorOf s'.summaries id final widened) else [])
      (hexits : s'.exits = exits) (hsummaries : s'.summaries = (e.summarise item post summaries).2)

/-- What was reported between two states, while an item was processed that was taken up at `t`:
the item's action, if it leads to new states at an error location and was not reported before,
with a counterexample that tells how the item was reached. -/
inductive ReportPart (item : Item L A S) (post : Disjunction S) (t s s' : RunState L A S) :
    Prop where
  | silent (hreached : s'.reachedErrors = s.reachedErrors)
      (hexamples : s'.counterexamples = s.counterexamples)
  | reported {c : Counterexample L A S}
      (herror : e.transitions.isError (e.transitions.target item.action) = true)
      (hpost : post.isBottom = false) (hcovered : e.covers t.layers item post = .ok false)
      (hfirst : item.action ∉ s.reachedErrors) (haction : c.errorAction = item.action)
      (hshows : t.items.Rooted →
        c.Shows t.items e.transitions.source e.transitions.target item post)
      (hreached : s'.reachedErrors = s.reachedErrors ++ [item.action])
      (hexamples : s'.counterexamples = s.counterexamples ++ [c])

variable {e} in
theorem ReportPart.congr {item : Item L A S} {post : Disjunction S}
    {t t' s s' u u' : RunState L A S} (h : e.ReportPart item post t s s')
    (ht : t'.layers = t.layers ∧ t'.items = t.items)
    (hu : u.reachedErrors = s.reachedErrors ∧ u.counterexamples = s.counterexamples)
    (hu' : u'.reachedErrors = s'.reachedErrors ∧ u'.counterexamples = s'.counterexamples) :
    e.ReportPart item post t' u u' := by
  cases h with
  | silent hr hc => exact .silent (by rw [hu'.1, hu.1, hr]) (by rw [hu'.2, hu.2, hc])
  | reported herror hpost hcovered hfirst haction hshows hr hc =>
    exact .reported herror hpost (by rw [ht.1]; exact hcovered) (by rw [hu.1]; exact hfirst)
      haction (by rw [ht.2]; exact hshows) (by rw [hu'.1, hu.1, hr]) (by rw [hu'.2, hu.2, hc])

/-- A pass over the item at a position, which ends up as `final`. -/
inductive Pass (id : ItemId) (item : Item L A S) (post : Disjunction S) (final : Item L A S)
    (s s' : RunState L A S) : Prop where
  | intro {worklist : Worklist} {exits : Exits A S} {summaries : Summaries A S}
      {handed new : List (Item L A S)}
      {added : List (ItemId × Item L A S)}
      (hpop : s.worklist.pop = some (id, worklist)) (hget : s.items.get id = .ok item)
      (hexit : e.ExitPart item s exits handed)
      (hpost : e.PostPart id item s post summaries)
      (hend : e.EndPart id item post s exits summaries final new s')
      (hadded : added.map Prod.snd = handed ++ new) (hframe : Frame id final added s s')
      (herrors : e.ReportPart item post s s s')
      (hcount : s.statistics.widenings ≤ s'.statistics.widenings)
      (htake : ∃ t, e.takeUp id item (taken worklist s) = .ok post t)

end Engine

/-! ## §4. Every iteration is a pass. -/

namespace InFlight

variable [DecidableEq A] [AbstractState S] {e : Engine L A S}
variable {t u u' : RunState L A S} {id : ItemId} {item : Item L A S} {post : Disjunction S}
variable {new : List (ItemId × Item L A S)}

/-- The first state of an exit holds the predecessor of the item, which is not pending. -/
theorem recorded (h : InFlight id (fun _ => 0) item [] t t) {change : ExitChange A S}
    {exits : Exits A S} {items : Arena L A S}
    (hrecord : t.exits.record e.domain e.options item.currentLayer item.action item.pre
      item.predecessor = .ok (some change, exits))
    (hheld : Engine.heldBy change t.items = .ok items)
    (hu : u.items = items ∧ u.exits = exits ∧ u.worklist = t.worklist ∧
      u.summaries = t.summaries) : InFlight id (fun _ => 0) item [] t u := by
  obtain ⟨rfl, rfl, hworklist, hsummaries⟩ := hu
  have hexits := Exits.held_record hrecord
  obtain ⟨-, hfirst⟩ := (Exits.record_ok hrecord).1.mem_exit
  unfold Engine.heldBy at hheld
  split at hheld
  -- The exit is new, and takes a reference to the predecessor of the item.
  · rename_i p hisFirst hp
    have hpred := h.tidy.predecessor h.get_current ((hfirst hisFirst).symm.trans hp)
    refine h.stay (h.tidy.hold hheld hpred.1 (by rw [RunState.pending, hworklist]) (fun j => ?_)
      (fun j hj => .inl (by rw [hsummaries] at hj; exact hj))) (by rw [RunState.pending, hworklist])
      (h.tidy.counted.retain hheld).2.1
    have htaken : Exits.taken (some change) j = once p j := by
      by_cases hj : j = p
      · simp [Exits.taken, hisFirst, hp, hj]
      · simp [Exits.taken, hisFirst, hp, once_of_ne hj, Ne.symm hj]
    simp only [RunState.held, RunState.pending, hexits, htaken, hworklist, hsummaries]
    omega
  · rename_i hnone
    have hitems : u.items = t.items := (Except.ok.inj hheld).symm
    refine h.stay (h.tidy.shift hitems (by rw [RunState.pending, hworklist]) (fun j => ?_)
      (fun j => by rw [hsummaries])) (by rw [RunState.pending, hworklist])
      (fun j => by rw [hitems])
    have htaken : Exits.taken (some change) j = 0 := by
      simp only [Exits.taken, ite_eq_right_iff]
      intro hboth
      exact absurd hboth.2 (hnone j hboth.1)
    simp only [RunState.held, RunState.pending, hexits, htaken, hworklist, hsummaries]
    omega

theorem exitTaken (h : InFlight id (fun _ => 0) item [] t t) (hexit : e.ExitTaken item t u) :
    ∃ new, e.ExitPart item t u.exits (new.map Prod.snd) ∧
      InFlight id (fun _ => 0) item new t u ∧ u.layers = t.layers ∧ u.summaries = t.summaries ∧
      u.reachedErrors = t.reachedErrors ∧ u.counterexamples = t.counterexamples ∧
      t.statistics.widenings ≤ u.statistics.widenings := by
  cases hexit with
  | skipped hskip =>
    refine ⟨[], .skipped hskip rfl rfl, h.stay ?_ rfl fun _ => rfl, rfl, rfl, rfl, rfl, le_rfl⟩
    exact h.tidy.shift rfl rfl (fun _ => rfl) fun _ => le_rfl
  | @known exits events hleaves hreturned hpre hrecord =>
    refine ⟨[], .known hleaves hreturned hpre hrecord rfl, h.stay ?_ rfl fun _ => rfl, rfl, rfl,
      rfl, rfl, le_rfl⟩
    refine h.tidy.shift rfl rfl (fun j => ?_) fun _ => le_rfl
    simp only [RunState.held, RunState.pending, Exits.held_record hrecord, Exits.taken]
    omega
  | @grown _ change exits items events statistics hleaves hreturned hpre hrecord hheld hcount
      hhanded =>
    -- The state before the exit is handed over gets a name, or it would be unfolded all the time.
    obtain ⟨v, hv⟩ : ∃ v : RunState L A S, v = { t with
      exits := exits, items := items, events := events, statistics := statistics } := ⟨_, rfl⟩
    rw [← hv] at hhanded
    have hmem := (Exits.record_ok hrecord).1.mem_exit.1
    have hmid : InFlight id (fun _ => 0) item [] t v :=
      h.recorded hrecord hheld (by rw [hv]; exact ⟨rfl, rfl, rfl, rfl⟩)
    obtain ⟨new, hgrows, hnew⟩ := Each.handed hhanded hmid.tidy
      (fun call hcall => by
        have : 0 < v.exits.held call := by
          rw [hv]
          exact Exits.held_pos_of_call hcall
        omega)
      (fun _ _ p hp => by
        rw [hv]
        exact Exits.held_pos_of_exit hmem hp)
    have hunmoved := hgrows.unmoved
    have hexits : u.exits = exits := by rw [hunmoved.exits, hv]
    refine ⟨new, .grown hleaves hreturned hpre (hexits ▸ hrecord) ?_, hmid.grows hgrows, ?_, ?_,
      ?_, ?_, ?_⟩
    · rw [hunmoved.exits, hv, List.forall₂_map_right_iff]
      refine hnew.imp fun call n hhands => ?_
      obtain ⟨callItem, hcall, hitem⟩ := hhands
      exact ⟨callItem, hmid.get_of_nil h.get_current hcall, hitem⟩
    · rw [hunmoved.layers, hv]
    · rw [hunmoved.summaries, hv]
    · rw [hunmoved.reachedErrors, hv]
    · rw [hunmoved.counterexamples, hv]
    · rw [hunmoved.statistics, hv]
      exact le_trans (Nat.le_add_right _ _) hcount

theorem computed (h : InFlight id (fun _ => 0) item new t u)
    (hsummaries : u.summaries = t.summaries)
    (hcomputed : e.Computed id item post u u') :
    e.PostPart id item t post u'.summaries ∧ InFlight id (fun _ => 0) item new t u' ∧
      u'.layers = u.layers ∧ u'.exits = u.exits ∧ u'.reachedErrors = u.reachedErrors ∧
      u'.counterexamples = u.counterexamples ∧
      u.statistics.widenings ≤ u'.statistics.widenings := by
  cases hcomputed with
  | interpreted hsummary hpost hlogged =>
    obtain ⟨events, statistics, hle, rfl⟩ := hlogged
    refine ⟨.interpreted hsummary hpost hsummaries, h.stay ?_ rfl fun _ => rfl, rfl, rfl, rfl, rfl,
      hle⟩
    exact h.tidy.shift rfl rfl (fun _ => rfl) fun _ => le_rfl
  | @summarised r items statistics hsummary hpost hretain hcount =>
    have hheld := fun j => Summaries.held_addUse (j := j) hpost id
    refine ⟨.summarised hsummary (hsummaries ▸ hpost) (by rw [← hsummaries]), h.stay ?_ rfl ?_, rfl,
      rfl, rfl, rfl, hcount.ge⟩
    · refine h.tidy.hold hretain h.not_pending rfl (fun j => ?_) fun j hj => ?_
      · simp only [RunState.held, RunState.pending, hheld]
        omega
      · simp only [hheld] at hj
        by_cases hjid : j = id
        · subst hjid
          refine .inr fun i hi => ?_
          rw [h.get_current] at hi
          cases hi
          rw [hsummary]
          rfl
        · rw [once_of_ne hjid] at hj
          exact .inl hj
    · exact (h.tidy.counted.retain hretain).2.1

theorem held_summarise (e : Engine L A S) (item : Item L A S) (post : Disjunction S)
    (summaries : Summaries A S) (j : ItemId) :
    (e.summarise item post summaries).2.held j + (e.summarise item post summaries).1.count j
      = summaries.held j := by
  unfold Engine.summarise
  split
  · exact Summaries.held_record _ _ _ _
  · simp

variable [DecidableEq L]

/-- The item in flight is brought up to date, and takes over the items that used a summary. -/
theorem booked (h : InFlight id (fun _ => 0) item new t u) {v : RunState L A S}
    (e : Engine L A S) (post : Disjunction S)
    (hset : u.items.set id (e.advanced item) = .ok v.items)
    (hu : v.exits = u.exits ∧ v.worklist = u.worklist ∧
      v.summaries = (e.summarise item post u.summaries).2) :
    InFlight id (e.summarise item post u.summaries).1.count (e.advanced item) new t v ∧
      ∀ j ∈ (e.summarise item post u.summaries).1, ∀ i, v.items.get j = .ok i →
        i.summary.isSome := by
  obtain ⟨hexits, hworklist, hsummaries⟩ := hu
  obtain ⟨loops, hadvanced⟩ := e.advanced_eq item
  have hheld := held_summarise e item post u.summaries
  -- The references of the summary to its users are taken over, one for each use.
  obtain ⟨htidy, hget⟩ : v.Tidy (fun j => once id j +
        (e.summarise item post u.summaries).1.count j) ∧
      ∀ j, v.items.get j = if j = id then .ok (e.advanced item) else u.items.get j := by
    refine h.tidy.set hset h.get_current (by rw [hadvanced]) (by rw [hadvanced])
      (by rw [RunState.pending, hworklist]) (fun j => ?_) (fun j => ?_)
    · have := hheld j
      simp only [RunState.held, RunState.pending, hexits, hworklist, hsummaries]
      omega
    · have := hheld j
      rw [hsummaries]
      omega
  refine ⟨h.move htidy (by rw [RunState.pending, hworklist]) hget, fun j hj i hi => ?_⟩
  have hused : 0 < u.summaries.held j := by
    have := hheld j
    have := List.count_pos_iff.mpr hj
    omega
  rw [hget] at hi
  split at hi
  · rename_i hjid
    subst hjid
    cases hi
    rw [hadvanced]
    exact h.tidy.users j item hused h.get_current
  · exact h.tidy.users j i hused hi

theorem bookkept (h : InFlight id (fun _ => 0) item new t u) (htaken : t.items.get id = .ok item)
    (hlonely : t.items.successors id = 0) (hbook : e.Bookkept id item post u u') :
    ∃ new', InFlight id (fun _ => 0) (e.advanced item) (new ++ new') t u' ∧
      List.Forall₂ (fun j i => t.Redoes j i) (e.summarise item post u.summaries).1
        (new'.map Prod.snd) ∧
      u'.summaries = (e.summarise item post u.summaries).2 ∧ u'.layers = u.layers ∧
      u'.exits = u.exits ∧ u'.reachedErrors = u.reachedErrors ∧
      u'.counterexamples = u.counterexamples ∧ u'.statistics = u.statistics := by
  obtain ⟨items, events, hset, heach⟩ := hbook
  obtain ⟨loops, hadvanced⟩ := e.advanced_eq item
  obtain ⟨v, hv⟩ : ∃ v : RunState L A S, v = { u with
    summaries := (e.summarise item post u.summaries).2, items := items, events := events } :=
    ⟨_, rfl⟩
  rw [← hv] at heach
  obtain ⟨hmid, hstale⟩ := h.booked (v := v) e post (by rw [hv]; exact hset)
    (by rw [hv]; exact ⟨rfl, rfl, rfl⟩)
  have htidy := hmid.tidy
  obtain ⟨new', hgrows, hnew⟩ := Each.requeued heach htidy hstale
  have hunmoved := hgrows.unmoved
  refine ⟨new', hmid.grows hgrows, ?_, ?_, ?_, ?_, ?_, ?_, ?_⟩
  · rw [List.forall₂_map_right_iff]
    refine forall₂_imp_of_mem hnew fun j hj n hredoes => ?_
    obtain ⟨staleItem, p, predecessor, hgetj, hp, hgetp, hitem⟩ := hredoes
    have hnot : j ∉ v.pending := htidy.not_pending (by
      have := List.count_pos_iff.mpr hj
      omega)
    -- The stale item may be the one in flight, of which only scopes and loops were changed.
    obtain ⟨before, hgetj', hpre, haction, hpred, hsame⟩ : ∃ before, t.items.get j = .ok before ∧
        before.pre = staleItem.pre ∧ before.action = staleItem.action ∧
        before.predecessor = staleItem.predecessor ∧ before.summary = staleItem.summary := by
      by_cases hjid : j = id
      · subst hjid
        rw [hmid.get_current] at hgetj
        cases hgetj
        rw [hadvanced]
        exact ⟨item, htaken, rfl, rfl, rfl, rfl⟩
      · exact ⟨staleItem, hmid.get_before hnot hjid hgetj, rfl, rfl, rfl, rfl⟩
    have hpid : p ≠ id := by
      rintro rfl
      have := Arena.successors_pos hgetj' (hpred.trans hp)
      omega
    refine ⟨before, p, predecessor, hgetj', hpred.trans hp,
      hmid.get_before (htidy.predecessor hgetj hp).1 hpid hgetp, ?_⟩
    rw [hpre, haction, hsame]
    exact hitem
  · rw [hunmoved.summaries, hv]
  · rw [hunmoved.layers, hv]
  · rw [hunmoved.exits, hv]
  · rw [hunmoved.reachedErrors, hv]
  · rw [hunmoved.counterexamples, hv]
  · rw [hunmoved.statistics, hv]

omit [DecidableEq L] [DecidableEq A] [AbstractState S] in
theorem logged {extra : ItemId → Nat} {layers : Layers L A S} {reachedErrors : List A}
    {counterexamples : List (Counterexample L A S)} {statistics : Statistics}
    {events : Array (Event L A S)} (h : InFlight id extra item new t u) :
    InFlight id extra item new t
      { u with layers := layers, reachedErrors := reachedErrors
               counterexamples := counterexamples, statistics := statistics, events := events } :=
  h.stay (h.tidy.shift rfl rfl (fun _ => rfl) fun _ => le_rfl) rfl fun _ => rfl

/-- The report of an error changes no item. -/
theorem errorReported {current : Item L A S} (h : InFlight id (fun _ => 0) current new t u)
    (htaken : t.items.get id = .ok item) (hlonely : t.items.successors id = 0)
    (hsame : current.action = item.action ∧ current.pre = item.pre ∧
      current.predecessor = item.predecessor) (hpost : post.isBottom = false)
    (hcovered : e.covers t.layers item post = .ok false)
    (herror : e.ErrorReported id current.action post u u') :
    InFlight id (fun _ => 0) current new t u' ∧ e.ReportPart item post t u u' ∧
      (e.transitions.isError (e.transitions.target item.action) = true →
        item.action ∈ u'.reachedErrors) ∧
      u'.layers = u.layers ∧ u'.exits = u.exits ∧ u'.summaries = u.summaries ∧
      u'.statistics = u.statistics := by
  obtain ⟨haction, hpre, hpred⟩ := hsame
  rw [haction] at herror
  cases herror with
  | silent hsilent => exact ⟨h, .silent rfl rfl, hsilent, rfl, rfl, rfl, rfl⟩
  | @reported c events herror hfirst hshown =>
    refine ⟨h.logged, .reported herror hpost hcovered hfirst ?_ (fun hrooted => ?_) rfl rfl,
      fun _ => by simp, rfl, rfl, rfl, rfl⟩
    · exact (Counterexample.errorAction_of_ofItem h.get_current hshown).trans haction
    · have hshows := Counterexample.shows_of_ofItem (h.rooted htaken hpred hrooted) h.get_current
        hshown
      exact h.shows_before htaken hlonely haction hpre hpred hshows

omit [DecidableEq L] [DecidableEq A] [AbstractState S] in
theorem entered {inside : Item L A S} {widened : Disjunction S}
    (h : InFlight id (fun _ => 0) item new t u) (henter : e.Entered id item widened inside u u') :
    InFlight id (fun _ => 0) inside new t u' ∧
      e.EnterPart item widened u.layers inside u'.layers ∧ u'.exits = u.exits ∧
      u'.summaries = u.summaries ∧ u'.reachedErrors = u.reachedErrors ∧
      u'.counterexamples = u.counterexamples ∧
      u'.statistics.widenings = u.statistics.widenings := by
  cases henter with
  | stayed hstays => exact ⟨h, .stayed hstays, rfl, rfl, rfl, rfl, rfl⟩
  | @entered _ layer layers items events statistics henters hcreate hset hcount =>
    obtain ⟨v, hv⟩ : ∃ v : RunState L A S, v = { u with
      layers := layers, items := items, events := events, statistics := statistics } := ⟨_, rfl⟩
    obtain ⟨htidy, hget⟩ : v.Tidy (fun j => once id j + 0) ∧ ∀ j, v.items.get j =
        if j = id then .ok (item.enterScope item.action layer item.pre widened)
        else u.items.get j := by
      refine h.tidy.set (by rw [hv]; exact hset) h.get_current rfl rfl (by rw [hv]) (fun j => ?_)
        (fun j => ?_)
      · simp only [hv, RunState.held, RunState.pending]
      · rw [hv]
    rw [← hv]
    refine ⟨h.move htidy (by rw [hv]) hget, ?_, ?_, ?_, ?_, ?_, ?_⟩
    · rw [hv]
      exact .entered henters hcreate
    · rw [hv]
    · rw [hv]
    · rw [hv]
    · rw [hv]
    · rw [hv]
      exact hcount

omit [DecidableEq L] in
theorem successorOf_predecessor (e : Engine L A S) (summaries : Summaries A S) (id : ItemId)
    (item : Item L A S) (post : Disjunction S) (action : A) :
    (e.successorOf summaries id item post action).predecessor = some id := by
  unfold Engine.successorOf
  dsimp only
  split <;> rfl

omit [DecidableEq L] in
theorem wentOn {widened : Disjunction S} (h : InFlight id (fun _ => 0) item new t u)
    (hgo : e.WentOn id item widened u u') :
    ∃ new', InFlight id (fun _ => 0) item (new ++ new') t u' ∧
      new'.map Prod.snd = (e.goesOn item).map (e.successorOf u.summaries id item widened) ∧
      Unmoved u u' := by
  obtain ⟨events, heach⟩ := hgo
  have hmid : InFlight id (fun _ => 0) item new t { u with events := events } := h.logged
  obtain ⟨new', hgrows, hnew⟩ := Each.enqueued heach hmid.tidy (by
    intro i hi
    obtain ⟨action, -, rfl⟩ := List.mem_map.mp hi
    exact ⟨id, successorOf_predecessor e _ _ _ _ _, by simp⟩)
  refine ⟨new', hmid.grows hgrows, hnew, ?_⟩
  have hlog : Unmoved u { u with events := events } := ⟨rfl, rfl, rfl, rfl, rfl, rfl⟩
  exact hlog.trans hgrows.unmoved

/-- The bookkeeping for an item and the report of an error leave all layers and exits alone. -/
theorem noted {u₁ u₂ : RunState L A S} (h : InFlight id (fun _ => 0) item new t u)
    (htaken : t.items.get id = .ok item) (hlonely : t.items.successors id = 0)
    (hpost : post.isBottom = false) (hcovered : e.covers t.layers item post = .ok false)
    (hbook : e.Bookkept id item post u u₁)
    (herror : e.ErrorReported id (e.advanced item).action post u₁ u₂) :
    ∃ new', InFlight id (fun _ => 0) (e.advanced item) (new ++ new') t u₂ ∧
      List.Forall₂ (fun j i => t.Redoes j i) (e.summarise item post u.summaries).1
        (new'.map Prod.snd) ∧
      e.ReportPart item post t u u₂ ∧
      (e.transitions.isError (e.transitions.target item.action) = true →
        item.action ∈ u₂.reachedErrors) ∧
      u₂.layers = u.layers ∧ u₂.exits = u.exits ∧
      u₂.summaries = (e.summarise item post u.summaries).2 ∧ u₂.statistics = u.statistics := by
  obtain ⟨loops, hadvanced⟩ := e.advanced_eq item
  obtain ⟨new', h₁, hredone, hsummaries₁, hlayers₁, hexits₁, herrors₁, hexamples₁, hstats₁⟩ :=
    h.bookkept htaken hlonely hbook
  obtain ⟨h₂, hreport, hnoted, hlayers₂, hexits₂, hsummaries₂, hstats₂⟩ :=
    h₁.errorReported htaken hlonely (by rw [hadvanced]; exact ⟨rfl, rfl, rfl⟩) hpost hcovered herror
  exact ⟨new', h₂, hredone,
    hreport.congr ⟨rfl, rfl⟩ ⟨herrors₁.symm, hexamples₁.symm⟩ ⟨rfl, rfl⟩, hnoted,
    hlayers₂.trans hlayers₁, hexits₂.trans hexits₁, hsummaries₂.trans hsummaries₁,
    hstats₂.trans hstats₁⟩

/-- The states to be stored were widened or not, and only the statistics tell. -/
theorem widened {widened : Disjunction S} (h : InFlight id (fun _ => 0) item new t u)
    (hcount : t.statistics.widenings ≤ u.statistics.widenings)
    (hwiden : e.Widened id item post (some widened) u u') :
    InFlight id (fun _ => 0) item new t u' ∧ e.WidenedTo item post widened t u' ∧
      ∃ events statistics, u' = { u with events := events, statistics := statistics } ∧
        t.statistics.widenings ≤ statistics.widenings := by
  cases hwiden with
  | kept hkept => exact ⟨h, .inl ⟨hkept, rfl⟩, _, _, rfl, hcount⟩
  | widened hagainst hw hchanged hlt =>
    exact ⟨h.logged, .inr ⟨_, hagainst, hw, hchanged, hcount.trans_lt hlt⟩, _, _, rfl,
      hcount.trans hlt.le⟩

/-- States are stored, and the item goes on if that changed anything. -/
theorem storedAndLeft {v : RunState L A S} {widened : Disjunction S} {changed : Bool}
    (h : InFlight id (fun _ => 0) item new t u) (hstore : e.Stored item widened changed u v)
    (hgo : if changed then e.WentOn id item widened v u' else v = u') :
    ∃ new' previous stored, InFlight id (fun _ => 0) item (new ++ new') t u' ∧
      new'.map Prod.snd = (if changed then
        (e.goesOn item).map (e.successorOf u.summaries id item widened) else []) ∧
      u.layers.state? item.currentLayer (e.transitions.target item.action) = .ok previous ∧
      u.layers.addState item.currentLayer (e.transitions.target item.action) widened
        = .ok (stored, u'.layers) ∧
      changed = previous.all (fun p => !stored.isEquivalent p) ∧ u'.exits = u.exits ∧
      u'.summaries = u.summaries ∧ u'.reachedErrors = u.reachedErrors ∧
      u'.counterexamples = u.counterexamples ∧
      u'.statistics.widenings = u.statistics.widenings := by
  obtain ⟨previous, stored, layers, events, statistics, hprevious, hadd, hchanged, hstats, hv⟩ :=
    hstore
  have hmid : InFlight id (fun _ => 0) item new t v := by
    rw [hv]
    exact h.logged
  have hsummaries : v.summaries = u.summaries := by rw [hv]
  obtain ⟨new', h', hnew, hunmoved⟩ : ∃ new', InFlight id (fun _ => 0) item (new ++ new') t u' ∧
      new'.map Prod.snd = (if changed then
        (e.goesOn item).map (e.successorOf u.summaries id item widened) else []) ∧
      Unmoved v u' := by
    rw [← hsummaries]
    cases changed with
    | true => exact hmid.wentOn hgo
    | false =>
      obtain rfl : v = u' := hgo
      exact ⟨[], by simpa using hmid, rfl, ⟨rfl, rfl, rfl, rfl, rfl, rfl⟩⟩
  refine ⟨new', previous, stored, h', hnew, hprevious, ?_, hchanged, ?_, ?_, ?_, ?_, ?_⟩
  · rw [hunmoved.layers, hv]
    exact hadd
  · rw [hunmoved.exits, hv]
  · rw [hunmoved.summaries, hv]
  · rw [hunmoved.reachedErrors, hv]
  · rw [hunmoved.counterexamples, hv]
  · rw [hunmoved.statistics, hv]
    exact hstats

variable (e) in
/-- An item in flight came to its end between two states. -/
def Ends (id : ItemId) (item : Item L A S) (post : Disjunction S)
    (new : List (ItemId × Item L A S)) (t u u' : RunState L A S) : Prop :=
  ∃ final new', InFlight id (fun _ => 0) final (new ++ new') t u' ∧
    e.EndPart id item post t u.exits u.summaries final (new'.map Prod.snd) u' ∧
    e.ReportPart item post t u u' ∧
    t.statistics.widenings ≤ u'.statistics.widenings

/-- Widening changed nothing, so the states are not stored. -/
theorem ends_fixpoint {u₁ u₂ : RunState L A S} (h : InFlight id (fun _ => 0) item new t u)
    (htaken : t.items.get id = .ok item) (hlonely : t.items.successors id = 0)
    (hpost : post.isBottom = false)
    (hcovered : e.covers t.layers item post = .ok false) (hlayers : u.layers = t.layers)
    (hcount : t.statistics.widenings ≤ u.statistics.widenings)
    (hbook : e.Bookkept id item post u u₁)
    (herror : e.ErrorReported id (e.advanced item).action post u₁ u₂)
    (hwiden : e.Widened id (e.advanced item) post none u₂ u') :
    Ends e id item post new t u u' := by
  obtain ⟨loops, hadvanced⟩ := e.advanced_eq item
  have haction : (e.advanced item).action = item.action := by rw [hadvanced]
  obtain ⟨new₁, h₂, hredone, herrors, hnoted, hlayers₂, hexits₂, hsummaries₂, hstats₂⟩ :=
    h.noted htaken hlonely hpost hcovered hbook herror
  rw [← hstats₂] at hcount
  cases hwiden with
  | @loopFixpoint _ older widened events statistics henters hagainst hw hsame hlt =>
    refine ⟨e.advanced item, new₁, h₂.logged, ?_,
      herrors.congr ⟨rfl, rfl⟩ ⟨rfl, rfl⟩ ⟨rfl, rfl⟩, hcount.trans hlt.le⟩
    exact .loopFixpoint hpost hcovered hnoted (haction ▸ henters) hagainst hw hsame
      (hcount.trans_lt hlt) rfl hredone (hlayers₂.trans hlayers) hexits₂ hsummaries₂
  | @entryFixpoint _ _ layer older widened layers events statistics henters hentry hagainst hw
      hsame hadd hlt hsubscribed =>
    have h₃ : InFlight id (fun _ => 0) (e.advanced item) (new ++ new₁) t
        { u₂ with layers := layers, events := events, statistics := statistics } := h₂.logged
    obtain ⟨new₂, h₄, hnew₂, hexits₄, hlayers₄, hsummaries₄, herrors₄, hexamples₄, hstats₄⟩ :=
      h₃.subscribed hsubscribed
    rw [haction] at henters hentry hadd
    refine ⟨e.advanced item, new₁ ++ new₂, by rw [← List.append_assoc]; exact h₄, ?_, ?_, ?_⟩
    · refine .entryFixpoint hpost hcovered ?_ henters hentry hagainst hw hsame ?_ rfl hredone ?_
        ?_ ?_ ?_
      · rw [herrors₄]
        exact hnoted
      · rw [hstats₄]
        exact hcount.trans_lt hlt
      · rw [List.map_append, hnew₂, hexits₂]
      · rw [hlayers₄, ← hlayers, ← hlayers₂]
        exact hadd
      · rw [hexits₄, hexits₂]
      · rw [hsummaries₄]
        exact hsummaries₂
    · exact herrors.congr ⟨rfl, rfl⟩ ⟨rfl, rfl⟩ ⟨herrors₄, hexamples₄⟩
    · rw [hstats₄]
      exact hcount.trans hlt.le

/-- The states are stored, widened or not. -/
theorem ends_stored {u₁ u₂ u₃ u₄ u₅ : RunState L A S} {widened : Disjunction S}
    {inside : Item L A S} {changed : Bool} (h : InFlight id (fun _ => 0) item new t u)
    (htaken : t.items.get id = .ok item) (hlonely : t.items.successors id = 0)
    (hpost : post.isBottom = false)
    (hcovered : e.covers t.layers item post = .ok false) (hlayers : u.layers = t.layers)
    (hcount : t.statistics.widenings ≤ u.statistics.widenings)
    (hbook : e.Bookkept id item post u u₁)
    (herror : e.ErrorReported id (e.advanced item).action post u₁ u₂)
    (hwiden : e.Widened id (e.advanced item) post (some widened) u₂ u₃)
    (henter : e.Entered id (e.advanced item) widened inside u₃ u₄)
    (hstore : e.Stored inside widened changed u₄ u₅)
    (hgo : if changed then e.WentOn id inside widened u₅ u' else u₅ = u') :
    Ends e id item post new t u u' := by
  obtain ⟨loops, hadvanced⟩ := e.advanced_eq item
  obtain ⟨new₁, h₂, hredone, herrors, hnoted, hlayers₂, hexits₂, hsummaries₂, hstats₂⟩ :=
    h.noted htaken hlonely hpost hcovered hbook herror
  rw [← hstats₂] at hcount
  obtain ⟨h₃, hwidened, events₃, statistics₃, hu₃, hcount₃⟩ := h₂.widened hcount hwiden
  obtain ⟨h₄, henterPart, hexits₄, hsummaries₄, herrors₄, hexamples₄, hstats₄⟩ := h₃.entered henter
  obtain ⟨new₂, previous, stored, h₅, hnew₂, hprevious, hadd, hchanged, hexits₅, hsummaries₅,
    herrors₅, hexamples₅, hstats₅⟩ := h₄.storedAndLeft hstore hgo
  have hinside : inside.action = item.action := henterPart.action_eq.trans (by rw [hadvanced])
  have hlayers₃ : u₃.layers = t.layers := by
    rw [hu₃]
    exact hlayers₂.trans hlayers
  have hsummaries : u'.summaries = (e.summarise item post u.summaries).2 := by
    rw [hsummaries₅, hsummaries₄, hu₃]
    exact hsummaries₂
  have hreached : u'.reachedErrors = u₂.reachedErrors := by rw [herrors₅, herrors₄, hu₃]
  have hexamples : u'.counterexamples = u₂.counterexamples := by rw [hexamples₅, hexamples₄, hu₃]
  refine ⟨inside, new₁ ++ new₂, by rw [← List.append_assoc]; exact h₅, ?_, ?_, ?_⟩
  · rw [hinside] at hprevious hadd
    rw [hlayers₃] at henterPart
    refine .stored hpost hcovered ?_ (hwidened.congr (hstats₅.trans hstats₄)) henterPart hprevious
      hadd hchanged hredone ?_ ?_ hsummaries
    · rw [hreached]
      exact hnoted
    · rw [List.map_append, hnew₂, hsummaries₅]
    · rw [hexits₅, hexits₄, hu₃]
      exact hexits₂
  · exact herrors.congr ⟨rfl, rfl⟩ ⟨rfl, rfl⟩ ⟨hreached, hexamples⟩
  · rw [hstats₅, hstats₄, hu₃]
    exact hcount₃

/-- However an item ends. -/
theorem ended (h : InFlight id (fun _ => 0) item new t u)
    (htaken : t.items.get id = .ok item) (hlonely : t.items.successors id = 0)
    (hlayers : u.layers = t.layers)
    (hcount : t.statistics.widenings ≤ u.statistics.widenings)
    (hended : e.Ended id item post u u') : Ends e id item post new t u u' := by
  cases hended with
  | infeasible hbottom hs =>
    subst hs
    refine ⟨item, [], by rw [List.append_nil]; exact h.logged, ?_, .silent rfl rfl, hcount⟩
    exact .infeasible hbottom rfl rfl hlayers rfl rfl
  | covered hpost hcovered hdropped =>
    rw [hlayers] at hcovered
    obtain ⟨events, hdropped⟩ := hdropped
    split at hdropped
    · rename_i layer entry henters hentry
      have hmid : InFlight id (fun _ => 0) item new t { u with events := events } := h.logged
      obtain ⟨new', h', hnew, hexits', hlayers', hsummaries', herrors', hexamples', hstats'⟩ :=
        hmid.subscribed hdropped
      refine ⟨item, new', h', ?_, .silent herrors' hexamples', by rw [hstats']; exact hcount⟩
      exact .coveredCall hpost hcovered henters hentry rfl hnew (hlayers'.trans hlayers) hexits'
        hsummaries'
    · rename_i hnone
      subst hdropped
      refine ⟨item, [], by rw [List.append_nil]; exact h.logged, ?_, .silent rfl rfl, hcount⟩
      -- The item was dropped without waiting: it enters no scope, or none that was entered before.
      refine .covered hpost hcovered ?_ rfl rfl hlayers rfl rfl
      cases henters : e.transitions.entersScope item.action with
      | false => exact .inl rfl
      | true =>
        refine .inr ?_
        cases hentry : item.latestEntry item.action with
        | none => rfl
        | some entry => exact (hnone entry.1 entry.2 henters hentry).elim
  | propagated hpost hcovered hpropagated =>
    rw [hlayers] at hcovered
    cases hpropagated with
    | fixpoint hbook herror hwiden =>
      exact h.ends_fixpoint htaken hlonely hpost hcovered hlayers hcount hbook herror hwiden
    | stored hbook herror hwiden henter hstore hgo =>
      exact h.ends_stored htaken hlonely hpost hcovered hlayers hcount hbook herror hwiden henter
        hstore hgo

omit [DecidableEq L] [DecidableEq A] [AbstractState S] in
/-- The item in flight is given back. -/
theorem release {worklist : Worklist} {s : RunState L A S} {items : Arena L A S}
    (hpop : s.worklist.pop = some (id, worklist)) (hs : s.Tidy fun _ => 0)
    (h : InFlight id (fun _ => 0) item new (Engine.taken worklist s) u)
    (hrelease : Arena.release id u.items = .ok () items) :
    RunState.Tidy (fun _ => 0) { u with items := items } ∧
      Frame id item new s { u with items := items } := by
  have htidy : u.Tidy fun j => 0 + once id j := by simpa [Nat.add_comm] using h.tidy
  obtain ⟨htidy', hkept⟩ := htidy.release hrelease
  have hperm := Worklist.perm_of_pop hpop
  have hid := (hs.of_pending (hperm.mem_iff.mpr List.mem_cons_self)).1
  -- An item is pending once, so it is not pending any more when it is taken off.
  have hmem : ∀ j, j ∈ (Engine.taken worklist s).pending ↔ j ∈ s.pending ∧ j ≠ id := by
    intro j
    have hcount := hperm.count_eq id
    rw [List.count_cons_self, show s.worklist.pending.count id = 1 from hid] at hcount
    have hnot : id ∉ worklist.pending := List.count_eq_zero.mp (by omega)
    constructor
    · exact fun hj => ⟨hperm.mem_iff.mpr (List.mem_cons_of_mem id hj), fun hjid => hnot (hjid ▸ hj)⟩
    · rintro ⟨hj, hne⟩
      exact (List.mem_cons.mp (hperm.mem_iff.mp hj)).resolve_left hne
  -- What is pending is still there after the release, since it is referred to.
  have hlive : ∀ j i, j ∈ u.pending → u.items.get j = .ok i → items.get j = .ok i := by
    intro j i hj hget
    obtain ⟨i', hi'⟩ := htidy'.live_of_pending hj
    have hsame := hkept j i' hi'
    rw [hget] at hsame
    cases hsame
    exact hi'
  refine ⟨htidy', ?_, ?_, ?_, ?_⟩
  · intro j
    show j ∈ u.pending ↔ _
    rw [h.pending, List.mem_append, hmem]
  · exact fun n hn => hlive n.1 n.2 (h.mem_pending_of_new hn) (h.created n hn)
  · intro j i hj hne hget
    have hj' := (hmem j).mpr ⟨hj, hne⟩
    refine hlive j i ?_ (h.get_of_pending hj' hget)
    rw [h.pending]
    exact List.mem_append_left _ hj'
  · intro j i hget
    obtain hnew | ⟨hjid, hi⟩ | ⟨hne, hold, hpending⟩ := h.old j i (hkept j i hget)
    · exact .inl hnew
    · refine .inr (.inl ⟨hjid, hi, ?_⟩)
      rw [hjid]
      exact h.not_pending
    · exact .inr (.inr ⟨hne, hold, fun hj => ((hmem j).mp (hpending hj)).1⟩)

end InFlight

namespace Engine

variable [DecidableEq A] [AbstractState S] {e : Engine L A S}
variable {s s' : RunState L A S}

variable {id : ItemId} {item final : Item L A S} {post : Disjunction S} {worklist : Worklist}
variable {exits : Exits A S} {summaries : Summaries A S} {new : List (Item L A S)}

theorem ExitPart.of_taken (h : e.ExitPart item (taken worklist s) exits new) :
    e.ExitPart item s exits new := by
  cases h with
  | skipped hskip hexits hhanded => exact .skipped hskip hexits hhanded
  | known hleaves hreturned hpre hrecord hhanded =>
    exact .known hleaves hreturned hpre hrecord hhanded
  | grown hleaves hreturned hpre hrecord hhanded =>
    exact .grown hleaves hreturned hpre hrecord hhanded

theorem PostPart.of_taken (h : e.PostPart id item (taken worklist s) post summaries) :
    e.PostPart id item s post summaries := by
  cases h with
  | interpreted hsummary hpost hsummaries => exact .interpreted hsummary hpost hsummaries
  | summarised hsummary hpost hsummaries => exact .summarised hsummary hpost hsummaries

variable [DecidableEq L]

theorem EndPart.of_taken {items : Arena L A S}
    (h : e.EndPart id item post (taken worklist s) exits summaries final new s') :
    e.EndPart id item post s exits summaries final new { s' with items := items } := by
  cases h with
  | infeasible hpost hfinal hnew hlayers hexits hsummaries =>
    exact .infeasible hpost hfinal hnew hlayers hexits hsummaries
  | covered hpost hcovered henters hfinal hnew hlayers hexits hsummaries =>
    exact .covered hpost hcovered henters hfinal hnew hlayers hexits hsummaries
  | coveredCall hpost hcovered henters hentry hfinal hnew hlayers hexits hsummaries =>
    exact .coveredCall hpost hcovered henters hentry hfinal hnew hlayers hexits hsummaries
  | loopFixpoint hpost hcovered hnoted henters hagainst hwiden hsame hcount hfinal hnew hlayers
      hexits hsummaries =>
    exact .loopFixpoint hpost hcovered hnoted henters hagainst hwiden hsame hcount hfinal hnew
      hlayers hexits hsummaries
  | entryFixpoint hpost hcovered hnoted henters hentry hagainst hwiden hsame hcount hfinal hredone
      hnew hlayers hexits hsummaries =>
    exact .entryFixpoint hpost hcovered hnoted henters hentry hagainst hwiden hsame hcount hfinal
      hredone hnew hlayers hexits hsummaries
  | stored hpost hcovered hnoted hwiden henter hprevious hadd hchanged hredone hnew hexits
      hsummaries =>
    exact .stored hpost hcovered hnoted hwiden henter hprevious hadd hchanged hredone hnew hexits
      hsummaries

omit [DecidableEq L] in
theorem PostPart.unique {post' : Disjunction S} {summaries' : Summaries A S}
    (h : e.PostPart id item s post summaries) (h' : e.PostPart id item s post' summaries') :
    post = post' := by
  cases h with
  | interpreted hsummary hpost =>
    cases h' with
    | interpreted _ hpost' =>
      rw [hpost] at hpost'
      exact Except.ok.inj hpost'
    | summarised hsummary' =>
      rw [hsummary] at hsummary'
      cases hsummary'
  | summarised hsummary hpost =>
    cases h' with
    | interpreted hsummary' =>
      rw [hsummary] at hsummary'
      cases hsummary'
    | summarised hsummary' hpost' =>
      rw [hsummary] at hsummary'
      cases hsummary'
      rw [hpost] at hpost'
      exact Option.some.inj hpost'

/-- What processing the item that was taken from the worklist does. -/
theorem processed_parts {u : RunState L A S} (hs : s.Tidy fun _ => 0)
    (hpop : s.worklist.pop = some (id, worklist))
    (hprocessed : e.Processed id item post (taken worklist s) u) :
    ∃ exits summaries handed new final added, e.ExitPart item s exits handed ∧
      e.PostPart id item s post summaries ∧
      (∀ items, e.EndPart id item post s exits summaries final new { u with items := items }) ∧
      added.map Prod.snd = handed ++ new ∧
      InFlight id (fun _ => 0) final added (taken worklist s) u ∧
      e.ReportPart item post s s u ∧
      s.statistics.widenings ≤ u.statistics.widenings := by
  obtain ⟨hget, u₁, ⟨u₀, hexit, hcomputed⟩, hended⟩ := hprocessed
  have hid : id ∈ s.pending := Worklist.mem_of_pop hpop
  have h₀ := InFlight.start (taken_tidy hs hpop) hget
  obtain ⟨handed, hexitPart, h₁, hlayers₁, hsummaries₁, herrors₁, hexamples₁, hcount₁⟩ :=
    h₀.exitTaken hexit
  obtain ⟨hpostPart, h₂, hlayers₂, hexits₂, herrors₂, hexamples₂, hcount₂⟩ :=
    h₁.computed hsummaries₁ hcomputed
  obtain ⟨final, new, h₃, hendPart, herrors₃, hcount₃⟩ := h₂.ended hget
    (hs.of_pending hid).2.2.2.2 (hlayers₂.trans hlayers₁) (hcount₁.trans hcount₂) hended
  rw [hexits₂] at hendPart
  have hreport : e.ReportPart item post s s u := herrors₃.congr ⟨rfl, rfl⟩
    ⟨(herrors₂.trans herrors₁).symm, (hexamples₂.trans hexamples₁).symm⟩ ⟨rfl, rfl⟩
  exact ⟨_, _, _, _, final, _, hexitPart.of_taken, hpostPart.of_taken,
    fun _ => hendPart.of_taken, List.map_append .., h₃, hreport, hcount₃⟩

/-- What it does to process an item for which the states after its action are known. -/
theorem parts_of_process {t u : RunState L A S} (hs : s.Tidy fun _ => 0)
    (hpop : s.worklist.pop = some (id, worklist)) (hget : s.items.get id = .ok item)
    (htake : e.takeUp id item (taken worklist s) = .ok post t)
    (hprocess : e.process id (taken worklist s) = .ok () u) :
    ∃ exits summaries handed new final, e.ExitPart item s exits handed ∧
      e.PostPart id item s post summaries ∧
      e.EndPart id item post s exits summaries final new u := by
  obtain ⟨item', post', t', htake', hprocessed⟩ := process_ok hprocess
  have hsame : item' = item := Except.ok.inj (hprocessed.1.symm.trans hget)
  subst hsame
  rw [htake] at htake'
  cases htake'
  obtain ⟨exits, summaries, handed, new, final, -, hexit, hpost, hend, -⟩ :=
    processed_parts hs hpop hprocessed
  exact ⟨exits, summaries, handed, new, final, hexit, hpost, hend u.items⟩

/-- Every successful iteration is a pass over some item, and keeps the state tidy. -/
theorem iterate_pass (hs : s.Tidy fun _ => 0) (h : e.iterate s = .ok true s') :
    s'.Tidy (fun _ => 0) ∧ ∃ id item post final, e.Pass id item post final s s' := by
  obtain ⟨hfalse, -⟩ |
    ⟨-, id, item, post, worklist, u, items, hpop, htake, hprocessed, hrelease, rfl⟩ := iterate_ok h
  · cases hfalse
  have hget : s.items.get id = .ok item := hprocessed.1
  obtain ⟨exits, summaries, handed, new, final, added, hexit, hpost, hend, hadded, hflight,
    herrors, hcount⟩ := processed_parts hs hpop hprocessed
  obtain ⟨htidy, hframe⟩ := hflight.release hpop hs hrelease
  exact ⟨htidy, id, item, post, final,
    .intro hpop hget hexit hpost (hend items) hadded hframe
      (herrors.congr ⟨rfl, rfl⟩ ⟨rfl, rfl⟩ ⟨rfl, rfl⟩) hcount htake⟩

end Engine

end Interproc
