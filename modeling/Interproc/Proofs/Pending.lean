/-
  Interproc.Proofs.Pending
  ────────────────────────
  Positions and the items behind them.  In a tidy state nobody but the worklist
  knows a pending item, so the steps that put items on the worklist change nothing
  that was there before.  Each of them is described by the items that it adds.
-/
import Mathlib
import Interproc.Proofs.References

namespace Interproc

variable {L A S : Type}

/-! ## §1. Tidy states. -/

namespace RunState

variable {s s' : RunState L A S} {extra : ItemId → Nat} {j : ItemId} {i : Item L A S}

/-- The positions on the worklist. -/
abbrev pending (s : RunState L A S) : List ItemId := s.worklist.pending

/-- How often a state holds an item outside of the arena. -/
def held (s : RunState L A S) (j : ItemId) : Nat :=
  s.pending.count j + s.exits.held j + s.summaries.held j

/-- References are counted right, with `extra` ones held by the step under way; the worklist alone
holds what is pending; and what stepped over a call has a predecessor. -/
structure Tidy (extra : ItemId → Nat) (s : RunState L A S) : Prop where
  counted : s.items.Counted fun j => s.held j + extra j
  fresh : ∀ j ∈ s.pending, s.items.references j = 1
  linked : ∀ j i, s.items.get j = .ok i → i.summary.isSome → i.predecessor.isSome
  users : ∀ j i, 0 < s.summaries.held j → s.items.get j = .ok i → i.summary.isSome

namespace Tidy

theorem of_pending (h : s.Tidy extra) (hj : j ∈ s.pending) :
    s.pending.count j = 1 ∧ s.exits.held j = 0 ∧ s.summaries.held j = 0 ∧ extra j = 0 ∧
      s.items.successors j = 0 := by
  have hcount := List.count_pos_iff.mpr hj
  have href := h.counted.references_eq j
  rw [h.fresh j hj] at href
  simp only [held] at href
  omega

/-- What anybody else holds is not pending. -/
theorem not_pending (h : s.Tidy extra)
    (hj : 0 < s.exits.held j + s.summaries.held j + extra j + s.items.successors j) :
    j ∉ s.pending := by
  intro hmem
  have := h.of_pending hmem
  omega

theorem live_of_pending (h : s.Tidy extra) (hj : j ∈ s.pending) : ∃ i, s.items.get j = .ok i := by
  have hcount := List.count_pos_iff.mpr hj
  exact h.counted.live (by simp only [held]; omega)

theorem live_of_held (h : s.Tidy extra)
    (hj : 0 < s.exits.held j + s.summaries.held j + extra j + s.items.successors j) :
    ∃ i, s.items.get j = .ok i :=
  h.counted.live (by simp only [held]; omega)

/-- The predecessor of a live item is live, and not pending. -/
theorem predecessor {p : ItemId} (h : s.Tidy extra) (hj : s.items.get j = .ok i)
    (hp : i.predecessor = some p) : p ∉ s.pending ∧ ∃ q, s.items.get p = .ok q := by
  have hsucc := Arena.successors_pos hj hp
  exact ⟨h.not_pending (by omega), h.live_of_held (by omega)⟩

end Tidy

end RunState

/-! ## §2. Additions to the worklist. -/

/-- Only the items, the worklist and what was reported differ. -/
structure Unmoved (s s' : RunState L A S) : Prop where
  layers : s'.layers = s.layers
  exits : s'.exits = s.exits
  summaries : s'.summaries = s.summaries
  reachedErrors : s'.reachedErrors = s.reachedErrors
  counterexamples : s'.counterexamples = s.counterexamples
  statistics : s'.statistics = s.statistics

/-- New items were put on the worklist; apart from them, nothing but what was freed differs. -/
structure Grows (extra : ItemId → Nat) (new : List (ItemId × Item L A S))
    (s s' : RunState L A S) : Prop where
  tidy : s'.Tidy extra
  unmoved : Unmoved s s'
  pending : s'.pending = s.pending ++ new.map Prod.fst
  created : ∀ n ∈ new, s'.items.get n.1 = .ok n.2
  old : ∀ j i, s'.items.get j = .ok i →
    (j, i) ∈ new ∨ s.items.get j = .ok i ∧ (j ∈ s'.pending → j ∈ s.pending)

namespace Unmoved

variable {s s₁ s' : RunState L A S}

theorem trans (h : Unmoved s s₁) (h' : Unmoved s₁ s') : Unmoved s s' where
  layers := h'.layers.trans h.layers
  exits := h'.exits.trans h.exits
  summaries := h'.summaries.trans h.summaries
  reachedErrors := h'.reachedErrors.trans h.reachedErrors
  counterexamples := h'.counterexamples.trans h.counterexamples
  statistics := h'.statistics.trans h.statistics

end Unmoved

namespace Grows

variable {s s₁ s' : RunState L A S} {extra extra' : ItemId → Nat}
variable {new new' : List (ItemId × Item L A S)} {j : ItemId} {i : Item L A S}

theorem refl (h : s.Tidy extra) : Grows extra [] s s where
  tidy := h
  unmoved := ⟨rfl, rfl, rfl, rfl, rfl, rfl⟩
  pending := by simp
  created := by simp
  old := fun _ _ hget => .inr ⟨hget, fun hj => hj⟩

theorem mem_pending (h : Grows extra new s s') (hj : j ∈ s.pending) : j ∈ s'.pending := by
  rw [h.pending]
  exact List.mem_append_left _ hj

theorem mem_pending_of_new (h : Grows extra new s s') (hj : (j, i) ∈ new) : j ∈ s'.pending := by
  rw [h.pending]
  exact List.mem_append_right _ (List.mem_map_of_mem hj)

/-- What was pending still is, with the same item behind it. -/
theorem get_of_pending (h : Grows extra new s s') (hj : j ∈ s.pending)
    (hget : s.items.get j = .ok i) : s'.items.get j = .ok i := by
  obtain ⟨i', hi'⟩ := h.tidy.live_of_pending (h.mem_pending hj)
  obtain hnew | ⟨hold, -⟩ := h.old j i' hi'
  · -- A position can be pending only once.
    have hcount := (h.tidy.of_pending (h.mem_pending hj)).1
    have hleft := List.count_pos_iff.mpr hj
    have hright := List.count_pos_iff.mpr (List.mem_map_of_mem (f := Prod.fst) hnew)
    rw [h.pending, List.count_append] at hcount
    simp only [] at hright
    omega
  · rw [hget] at hold
    cases hold
    exact hi'

/-- What somebody else holds stays as it is. -/
theorem get_of_held (h : Grows extra new s s')
    (hj : 0 < s'.exits.held j + s'.summaries.held j + extra j + s'.items.successors j)
    (hget : s.items.get j = .ok i) : s'.items.get j = .ok i := by
  obtain ⟨i', hi'⟩ := h.tidy.live_of_held hj
  obtain hnew | ⟨hold, -⟩ := h.old j i' hi'
  · exact absurd (h.mem_pending_of_new hnew) (h.tidy.not_pending hj)
  · rw [hget] at hold
    cases hold
    exact hi'

/-- What somebody else holds afterwards was there before. -/
theorem get_before (h : Grows extra new s s') (hj : j ∉ s'.pending)
    (hget : s'.items.get j = .ok i) : s.items.get j = .ok i := by
  obtain hnew | ⟨hold, -⟩ := h.old j i hget
  · exact absurd (h.mem_pending_of_new hnew) hj
  · exact hold

/-- Where one item is new, any item is that one or was there before. -/
theorem old_singleton {id : ItemId} {item : Item L A S} (h : Grows extra [(id, item)] s s')
    (hi : s'.items.get j = .ok i) :
    j = id ∧ i = item ∨ s.items.get j = .ok i ∧ (j ∈ s'.pending → j ∈ s.pending) := by
  obtain hnew | hold := h.old j i hi
  · cases List.mem_singleton.mp hnew
    exact .inl ⟨rfl, rfl⟩
  · exact .inr hold

/-- New items are pending, and so nobody's predecessor. -/
theorem get_predecessor {p : ItemId} {q : Item L A S} (h : Grows extra new s s')
    (hi : s'.items.get j = .ok i) (hp : i.predecessor = some p) (hq : s'.items.get p = .ok q) :
    s.items.get p = .ok q :=
  h.get_before (h.tidy.predecessor hi hp).1 hq

theorem trans (h : Grows extra new s s₁) (h' : Grows extra' new' s₁ s') :
    Grows extra' (new ++ new') s s' where
  tidy := h'.tidy
  unmoved := h.unmoved.trans h'.unmoved
  pending := by rw [h'.pending, h.pending, List.map_append, List.append_assoc]
  created := by
    intro n hn
    obtain hn | hn := List.mem_append.mp hn
    · exact h'.get_of_pending (h.mem_pending_of_new hn) (h.created n hn)
    · exact h'.created n hn
  old := by
    intro j i hget
    obtain hnew | ⟨hget₁, hj₁⟩ := h'.old j i hget
    · exact .inl (List.mem_append_right _ hnew)
    · obtain hnew | ⟨hget₀, hj₀⟩ := h.old j i hget₁
      · exact .inl (List.mem_append_left _ hnew)
      · exact .inr ⟨hget₀, fun hj => hj₀ (hj₁ hj)⟩

end Grows

/-- Putting one item on the worklist, whose predecessor is not pending. -/
theorem Enqueued.grows {s s' : RunState L A S} {extra : ItemId → Nat} {item : Item L A S}
    (h : Enqueued item s s') (ht : s.Tidy extra)
    (hp : ∀ p, item.predecessor = some p → p ∉ s.pending)
    (hlinked : item.summary.isSome → item.predecessor.isSome) :
    ∃ id, Grows extra [(id, item)] s s' := by
  obtain ⟨id, items, items', events, hinsert, hretain, rfl⟩ := h
  obtain ⟨hcounted, hnone, hget, hnew, hrefs⟩ := ht.counted.insert hinsert
  obtain ⟨hcounted', hget', hrefs', -⟩ := hcounted.retain hretain
  have hgets : ∀ j, items'.get j = if j = id then .ok item else s.items.get j := fun j =>
    (hget' j).trans (hget j)
  -- The slot was vacant, so nobody held the new position before.
  have hfree := ht.counted.references_eq id
  rw [Arena.references_of_none hnone] at hfree
  have hcount : ∀ j, List.count j [id] = once id j := by
    intro j
    rw [count_cons_once, List.count_nil, Nat.zero_add]
  have hid : id ∉ s.pending := by
    intro hmem
    have := List.count_pos_iff.mpr hmem
    simp only [RunState.held] at hfree
    omega
  have href : items'.references id = 1 := by rw [hrefs', hnew, once_self]
  refine ⟨id, ⟨?_, ?_, ?_, ?_⟩, ⟨rfl, rfl, rfl, rfl, rfl, rfl⟩, ?_, ?_, ?_⟩
  · refine cast (congrArg _ (funext fun j => ?_)) hcounted'
    simp only [RunState.held, RunState.pending, Worklist.push, List.count_append, hcount]
    omega
  · intro j hj
    obtain hj | hj := List.mem_append.mp hj
    · have hne : j ≠ id := fun hjid => hid (hjid ▸ hj)
      rw [hrefs', once_of_ne hne, hrefs j hne fun hpj => hp j hpj hj]
      exact ht.fresh j hj
    · rw [List.mem_singleton.mp hj]
      exact href
  · intro j i hi hsummary
    have hi : items'.get j = .ok i := hi
    rw [hgets] at hi
    split at hi
    · cases hi
      exact hlinked hsummary
    · exact ht.linked j i hi hsummary
  · intro j i hj hi
    have hi : items'.get j = .ok i := hi
    have hj : 0 < s.summaries.held j := hj
    rw [hgets] at hi
    split at hi
    · rename_i hjid
      subst hjid
      simp only [RunState.held] at hfree
      omega
    · exact ht.users j i hj hi
  · rfl
  · intro n hn
    rw [List.mem_singleton.mp hn]
    exact (hgets id).trans (if_pos rfl)
  · intro j i hi
    have hi : items'.get j = .ok i := hi
    rw [hgets] at hi
    split at hi
    · rename_i hjid
      cases hi
      subst hjid
      exact .inl (List.mem_singleton.mpr rfl)
    · rename_i hne
      refine .inr ⟨hi, fun hj => ?_⟩
      obtain hj | hj := List.mem_append.mp hj
      · exact hj
      · exact absurd (List.mem_singleton.mp hj) hne

/-- Giving back a reference keeps a state tidy, and changes no item that stays. -/
theorem RunState.Tidy.release {s : RunState L A S} {extra : ItemId → Nat} {id : ItemId}
    {items : Arena L A S} (h : s.Tidy fun j => extra j + once id j)
    (hrelease : Arena.release id s.items = .ok () items) :
    RunState.Tidy extra { s with items := items } ∧
      ∀ j i, items.get j = .ok i → s.items.get j = .ok i := by
  have hcounted : s.items.Counted fun j => (s.held j + extra j) + once id j := by
    simpa only [Nat.add_assoc] using h.counted
  obtain ⟨hcounted', hkept⟩ := hcounted.release hrelease
  refine ⟨⟨hcounted', ?_, fun j i hget => h.linked j i (hkept j i hget),
    fun j i hj hget => h.users j i hj (hkept j i hget)⟩, hkept⟩
  intro j hj
  have hbefore := h.of_pending hj
  -- Nobody can have become a successor of a pending item.
  have hsucc : items.successors j = 0 := by
    by_contra hne
    obtain ⟨k, i, hget, hp⟩ := Arena.exists_of_successors_pos (Nat.pos_of_ne_zero hne)
    have := Arena.successors_pos (hkept k i hget) hp
    omega
  have href := hcounted'.references_eq j
  simp only [RunState.held] at href
  show items.references j = 1
  omega

/-- Giving back a reference after items were put on the worklist. -/
theorem Grows.release {s s₁ : RunState L A S} {extra : ItemId → Nat} {id : ItemId}
    {new : List (ItemId × Item L A S)} {items : Arena L A S}
    (h : Grows (fun j => extra j + once id j) new s s₁)
    (hrelease : Arena.release id s₁.items = .ok () items) :
    Grows extra new s { s₁ with items := items } := by
  obtain ⟨htidy, hkept⟩ := h.tidy.release hrelease
  have hunmoved : Unmoved s { s₁ with items := items } :=
    h.unmoved.trans ⟨rfl, rfl, rfl, rfl, rfl, rfl⟩
  refine ⟨htidy, hunmoved, h.pending, ?_, fun j i hget => h.old j i (hkept j i hget)⟩
  intro n hn
  obtain ⟨i, hi⟩ := htidy.live_of_pending (h.mem_pending_of_new hn)
  have hsame := hkept n.1 i hi
  rw [h.created n hn] at hsame
  cases hsame
  exact hi

/-! ## §3. Several additions. -/

/-- The item for a call that is handed an exit of the activation at a layer. -/
def RunState.Hands (s : RunState L A S) (layer : LayerId) (call : ItemId) (exit : ScopeExit A S)
    (item : Item L A S) : Prop :=
  ∃ callItem, s.items.get call = .ok callItem ∧
    item = .returning exit.state exit.action exit.predecessor callItem layer

/-- The item that steps over a call once more, in place of a stale one. -/
def RunState.Redoes (s : RunState L A S) (stale : ItemId) (item : Item L A S) : Prop :=
  ∃ staleItem p predecessor, s.items.get stale = .ok staleItem ∧
    staleItem.predecessor = some p ∧ s.items.get p = .ok predecessor ∧
    staleItem.summary.isSome ∧
    item = { Item.successor staleItem.pre staleItem.action p predecessor with
      summary := staleItem.summary }

theorem forall₂_imp_of_mem {α β : Type} {R R' : α → β → Prop} {l : List α} {l' : List β}
    (h : List.Forall₂ R l l') (himp : ∀ a ∈ l, ∀ b, R a b → R' a b) : List.Forall₂ R' l l' := by
  induction h with
  | nil => exact .nil
  | @cons a b l l' hab _ ih =>
    exact .cons (himp a List.mem_cons_self b hab)
      (ih fun c hc => himp c (List.mem_cons_of_mem a hc))

theorem map_snd_of_forall₂ {α β γ : Type} {f : α → β} {l : List α} {new : List (γ × β)}
    (h : List.Forall₂ (fun a n => n.2 = f a) l new) : new.map Prod.snd = l.map f := by
  induction h with
  | nil => rfl
  | cons hab _ ih => rw [List.map_cons, List.map_cons, hab, ih]

section Several

variable {s s' : RunState L A S} {extra : ItemId → Nat}

theorem Each.handed {α : Type} {l : List α} {call : α → ItemId} {exit : α → ScopeExit A S}
    {layer : LayerId} (h : Each (fun a => HandedTo (call a) layer (exit a)) l s s')
    (ht : s.Tidy extra) (hcall : ∀ a ∈ l, 0 < s.exits.held (call a) + extra (call a))
    (hexit : ∀ a ∈ l, ∀ p, (exit a).predecessor = some p → 0 < s.exits.held p) :
    ∃ new, Grows extra new s s' ∧
      List.Forall₂ (fun a n => s.Hands layer (call a) (exit a) n.2) l new := by
  induction h with
  | nil => exact ⟨[], .refl ht, .nil⟩
  | @cons a l s s₁ s' hstep _ ih =>
    obtain ⟨callItem, hget, henqueued⟩ := hstep
    obtain ⟨id, hgrows⟩ := henqueued.grows ht
      (fun p hp => ht.not_pending (by
        have := hexit a List.mem_cons_self p hp
        omega))
      (by simp [Item.returning, Item.enterScope])
    obtain ⟨new, hgrows', hnew⟩ := ih hgrows.tidy
      (fun b hb => by
        rw [hgrows.unmoved.exits]
        exact hcall b (List.mem_cons_of_mem a hb))
      (fun b hb p hp => by
        rw [hgrows.unmoved.exits]
        exact hexit b (List.mem_cons_of_mem a hb) p hp)
    refine ⟨_, hgrows.trans hgrows', .cons ⟨callItem, hget, rfl⟩ ?_⟩
    refine forall₂_imp_of_mem hnew fun b hb n hhands => ?_
    obtain ⟨callItem', hget', hitem⟩ := hhands
    refine ⟨callItem', hgrows.get_before (hgrows.tidy.not_pending ?_) hget', hitem⟩
    rw [hgrows.unmoved.exits]
    have := hcall b (List.mem_cons_of_mem a hb)
    omega

theorem Requeued.grows {stale : ItemId} (h : Requeued stale s s')
    (ht : s.Tidy fun j => extra j + once stale j)
    (hstale : ∀ i, s.items.get stale = .ok i → i.summary.isSome) :
    ∃ n, Grows extra [n] s s' ∧ s.Redoes stale n.2 := by
  obtain ⟨staleItem, hget, hcases⟩ := h
  have hlinked := ht.linked stale staleItem hget (hstale staleItem hget)
  obtain ⟨hnone, -⟩ | ⟨p, predecessor, s₁, items, hp, hgetp, henqueued, hrelease, rfl⟩ := hcases
  · rw [hnone] at hlinked
    cases hlinked
  · obtain ⟨id, hgrows⟩ := henqueued.grows ht
      (fun q hq => by
        cases hq
        exact (ht.predecessor hget hp).1)
      (fun _ => rfl)
    exact ⟨_, hgrows.release hrelease, staleItem, p, predecessor, hget, hp, hgetp,
      hstale staleItem hget, rfl⟩

theorem Each.requeued {stale : List ItemId} (h : Each Requeued stale s s')
    (ht : s.Tidy fun j => extra j + stale.count j)
    (hstale : ∀ j ∈ stale, ∀ i, s.items.get j = .ok i → i.summary.isSome) :
    ∃ new, Grows extra new s s' ∧ List.Forall₂ (fun j n => s.Redoes j n.2) stale new := by
  induction h with
  | nil => exact ⟨[], .refl (by simpa using ht), .nil⟩
  | @cons j l s s₁ s' hstep _ ih =>
    simp only [count_cons_once, ← Nat.add_assoc] at ht
    obtain ⟨n, hgrows, hredoes⟩ := hstep.grows ht (hstale j List.mem_cons_self)
    have hheld : ∀ k ∈ l, k ∉ s₁.pending := fun k hk => hgrows.tidy.not_pending (by
      have := List.count_pos_iff.mpr hk
      omega)
    obtain ⟨new, hgrows', hnew⟩ := ih hgrows.tidy fun k hk i hget =>
      hstale k (List.mem_cons_of_mem j hk) i (hgrows.get_before (hheld k hk) hget)
    refine ⟨_, hgrows.trans hgrows', .cons hredoes (forall₂_imp_of_mem hnew fun k hk m hm => ?_)⟩
    obtain ⟨staleItem, p, predecessor, hget, hp, hgetp, hitem⟩ := hm
    exact ⟨staleItem, p, predecessor, hgrows.get_before (hheld k hk) hget, hp,
      hgrows.get_before (hgrows.tidy.predecessor hget hp).1 hgetp, hitem⟩

theorem Each.enqueued {items : List (Item L A S)} (h : Each Enqueued items s s')
    (ht : s.Tidy extra) (hp : ∀ i ∈ items, ∃ p, i.predecessor = some p ∧ 0 < extra p) :
    ∃ new, Grows extra new s s' ∧ new.map Prod.snd = items := by
  induction h with
  | nil => exact ⟨[], .refl ht, rfl⟩
  | @cons i l s s₁ s' hstep _ ih =>
    obtain ⟨p, hpred, hextra⟩ := hp i List.mem_cons_self
    obtain ⟨id, hgrows⟩ := hstep.grows ht
      (fun q hq => by
        rw [hpred] at hq
        cases hq
        exact ht.not_pending (by omega))
      (fun _ => by rw [hpred]; rfl)
    obtain ⟨new, hgrows', hnew⟩ := ih hgrows.tidy fun k hk => hp k (List.mem_cons_of_mem i hk)
    exact ⟨_, hgrows.trans hgrows', by simp [hnew]⟩

end Several

end Interproc
