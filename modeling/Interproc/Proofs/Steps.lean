/-
  Interproc.Proofs.Steps
  ──────────────────────
  What a successful step of a computation does.  Each function of the computation
  gets one lemma that turns "it succeeded" into equations between the states before
  and after, so that later proofs never open the function itself.  What was
  reported and counted on the way is left open wherever nothing depends on it.
-/
import Mathlib
import Interproc.Fixpoint.Run

namespace Interproc

variable {L A S α β : Type}

/-! ## §1. Sequencing. -/

theorem except_bind_eq_ok {x : Except Error α} {f : α → Except Error β} {b : β} :
    x >>= f = .ok b ↔ ∃ a, x = .ok a ∧ f a = .ok b := by
  cases x with
  | ok a =>
    constructor
    · intro h
      exact ⟨a, rfl, h⟩
    · rintro ⟨a', h, hf⟩
      cases h
      exact hf
  | error cause =>
    constructor
    · intro h
      cases h
    · rintro ⟨a, h, -⟩
      cases h

namespace Run

variable {s s' : RunState L A S}

@[simp] theorem bind_eq_ok {x : Run L A S α} {f : α → Run L A S β} {b : β} :
    (x >>= f) s = .ok b s' ↔ ∃ a s₁, x s = .ok a s₁ ∧ f a s₁ = .ok b s' := by
  show EStateM.bind x f s = .ok b s' ↔ _
  unfold EStateM.bind
  cases x s with
  | ok a s₁ =>
    constructor
    · intro h
      exact ⟨a, s₁, rfl, h⟩
    · rintro ⟨a', s₂, h, hf⟩
      cases h
      exact hf
  | error c s₁ => simp

@[simp] theorem pure_eq_ok {a b : α} : (pure a : Run L A S α) s = .ok b s' ↔ a = b ∧ s = s' := by
  show EStateM.Result.ok a s = .ok b s' ↔ _
  simp

@[simp] theorem map_eq_ok {x : Run L A S α} {f : α → β} {b : β} :
    (f <$> x) s = .ok b s' ↔ ∃ a, x s = .ok a s' ∧ f a = b := by
  show (x >>= fun a => pure (f a)) s = .ok b s' ↔ _
  rw [bind_eq_ok]
  constructor
  · rintro ⟨a, s₁, hx, hpure⟩
    obtain ⟨hb, rfl⟩ := pure_eq_ok.mp hpure
    exact ⟨a, hx, hb⟩
  · rintro ⟨a, hx, hb⟩
    exact ⟨a, s', hx, pure_eq_ok.mpr ⟨hb, rfl⟩⟩

@[simp] theorem throw_eq_ok {halt : Halt A} {b : α} :
    (throw halt : Run L A S α) s = .ok b s' ↔ False := by
  show EStateM.Result.error halt s = .ok b s' ↔ _
  simp

@[simp] theorem get_eq_ok {b : RunState L A S} :
    (get : Run L A S (RunState L A S)) s = .ok b s' ↔ s = b ∧ s = s' := by
  show EStateM.Result.ok s s = .ok b s' ↔ _
  simp

@[simp] theorem modify_eq_ok {f : RunState L A S → RunState L A S} {u : Unit} :
    (modify f : Run L A S Unit) s = .ok u s' ↔ f s = s' := by
  show EStateM.Result.ok PUnit.unit (f s) = .ok u s' ↔ _
  simp

@[simp] theorem ask_eq_ok {x : Except Error α} {b : α} :
    (ask x : Run L A S α) s = .ok b s' ↔ x = .ok b ∧ s = s' := by
  cases x with
  | ok a => simp [ask]
  | error c => simp [ask]

@[simp] theorem expect_eq_ok {x : Except Error α} {b : α} :
    (expect x : Run L A S α) s = .ok b s' ↔ x = .ok b ∧ s = s' := by
  cases x with
  | ok a => simp [expect]
  | error c => simp [expect]

@[simp] theorem onlyIf_eq_ok {c : Bool} {x : Run L A S Unit} {u : Unit} :
    onlyIf c x s = .ok u s' ↔ if c then x s = .ok u s' else s = s' := by
  unfold onlyIf
  split <;> simp

end Run

/-- One step after the other, one for each element of a list. -/
inductive Each {σ : Type} (R : α → σ → σ → Prop) : List α → σ → σ → Prop where
  | nil {s : σ} : Each R [] s s
  | cons {a : α} {l : List α} {s s₁ s₂ : σ} :
      R a s s₁ → Each R l s₁ s₂ → Each R (a :: l) s s₂

namespace Each

variable {σ : Type} {R : α → σ → σ → Prop} {l : List α} {s s' : σ}

/-- What every step keeps, all steps keep. -/
theorem preserves {P : σ → Prop} (h : Each R l s s')
    (hstep : ∀ a ∈ l, ∀ s s', R a s s' → P s → P s') (hs : P s) : P s' := by
  induction h with
  | nil => exact hs
  | @cons a l s s₁ s₂ hR _ ih =>
    refine ih (fun b hb => hstep b (List.mem_cons_of_mem a hb)) ?_
    exact hstep a List.mem_cons_self s s₁ hR hs

/-- What the step for an element achieves, and all steps keep, holds at the end. -/
theorem achieves {P : σ → Prop} {Q : α → σ → Prop} (h : Each R l s s')
    (hmake : ∀ a ∈ l, ∀ s s', R a s s' → P s → P s' ∧ Q a s')
    (hkeep : ∀ a ∈ l, ∀ b s s', R a s s' → P s → Q b s → Q b s') (hs : P s) :
    P s' ∧ ∀ a ∈ l, Q a s' := by
  induction h with
  | nil => exact ⟨hs, fun a ha => by cases ha⟩
  | @cons a l s s₁ s₂ hR hrest ih =>
    obtain ⟨hP, hQ⟩ := hmake a List.mem_cons_self s s₁ hR hs
    have hmake' := fun b hb => hmake b (List.mem_cons_of_mem a hb)
    have hkeep' := fun b hb => hkeep b (List.mem_cons_of_mem a hb)
    obtain ⟨hP', hQ'⟩ := ih hmake' hkeep' hP
    refine ⟨hP', fun b hb => ?_⟩
    obtain rfl | hb := List.mem_cons.mp hb
    · -- The first element: its step achieved it, and the others kept it.
      refine (hrest.preserves (P := fun s => P s ∧ Q b s) (fun c hc t t' ht hPQ => ?_) ⟨hP, hQ⟩).2
      exact ⟨(hmake' c hc t t' ht hPQ.1).1, hkeep' c hc b t t' ht hPQ.1 hPQ.2⟩
    · exact hQ' b hb

theorem mono {R' : α → σ → σ → Prop} (h : Each R l s s')
    (himp : ∀ a s s', R a s s' → R' a s s') : Each R' l s s' := by
  induction h with
  | nil => exact .nil
  | cons hR _ ih => exact .cons (himp _ _ _ hR) ih

end Each

namespace Run

variable {s s' : RunState L A S}

theorem each_of_forM {f : α → Run L A S PUnit} {l : List α} {u : PUnit}
    (h : l.forM f s = .ok u s') : Each (fun a s s' => f a s = .ok PUnit.unit s') l s s' := by
  induction l generalizing s with
  | nil =>
    cases h
    exact .nil
  | cons a l ih =>
    have hbind : (f a >>= fun _ => l.forM f) s = .ok u s' := h
    rw [bind_eq_ok] at hbind
    obtain ⟨_, s₁, hstep, hrest⟩ := hbind
    exact .cons hstep (ih hrest)

/-! ## §2. Items. -/

@[simp] theorem emit_eq_ok {event : Event L A S} {u : Unit} :
    emit event s = .ok u s' ↔ { s with events := s.events.push event } = s' := by
  simp [emit]

@[simp] theorem count_eq_ok {f : Statistics → Statistics} {u : Unit} :
    count f s = .ok u s' ↔ { s with statistics := f s.statistics } = s' := by
  simp [count]

@[simp] theorem item_eq_ok {id : ItemId} {i : Item L A S} :
    item id s = .ok i s' ↔ s.items.get id = .ok i ∧ s = s' := by
  simp [item, and_comm]

@[simp] theorem setItem_eq_ok {id : ItemId} {i : Item L A S} {u : Unit} :
    setItem id i s = .ok u s' ↔
      ∃ items, s.items.set id i = .ok items ∧ { s with items := items } = s' := by
  simp [setItem]

@[simp] theorem retain_eq_ok {id : ItemId} {u : Unit} :
    retain id s = .ok u s' ↔
      ∃ items, s.items.retain id = .ok items ∧ { s with items := items } = s' := by
  simp [retain]

@[simp] theorem release_eq_ok {id : ItemId} {u : Unit} :
    release id s = .ok u s' ↔
      ∃ items, Arena.release id s.items = .ok () items ∧ { s with items := items } = s' := by
  unfold release
  cases Arena.release id s.items with
  | ok u items => simp
  | error c items => simp

@[simp] theorem insert_eq_ok {i : Item L A S} {id : ItemId} :
    insert i s = .ok id s' ↔
      ∃ items, s.items.insert i = .ok (id, items) ∧ { s with items := items } = s' := by
  simp [insert]

@[simp] theorem enqueue_eq_ok {id : ItemId} {u : Unit} :
    enqueue id s = .ok u s' ↔
      ∃ items, s.items.retain id = .ok items ∧
        { s with items := items, worklist := s.worklist.push id } = s' := by
  simp [enqueue]

end Run

/-- Nothing but what was reported and counted has changed, and no widening was forgotten. -/
def Logged (s s' : RunState L A S) : Prop :=
  ∃ events statistics, s.statistics.widenings ≤ statistics.widenings ∧
    s' = { s with events := events, statistics := statistics }

theorem Logged.refl (s : RunState L A S) : Logged s s := ⟨_, _, le_rfl, rfl⟩

theorem Logged.trans {s s₁ s' : RunState L A S} (h : Logged s s₁) (h' : Logged s₁ s') :
    Logged s s' := by
  obtain ⟨events, statistics, hle, rfl⟩ := h
  obtain ⟨events', statistics', hle', rfl⟩ := h'
  exact ⟨events', statistics', hle.trans hle', rfl⟩

/-- An item was inserted and put on the worklist. -/
def Enqueued (item : Item L A S) (s s' : RunState L A S) : Prop :=
  ∃ id items items' events, s.items.insert item = .ok (id, items) ∧
    items.retain id = .ok items' ∧
    s' = { s with items := items', worklist := s.worklist.push id, events := events }

/-! ## §3. Covered calls. -/

/-- A call was handed an exit of the activation at a layer. -/
def HandedTo (call : ItemId) (layer : LayerId) (exit : ScopeExit A S)
    (s s' : RunState L A S) : Prop :=
  ∃ callItem, s.items.get call = .ok callItem ∧
    Enqueued (.returning exit.state exit.action exit.predecessor callItem layer) s s'

/-- A call was subscribed to the activation at a layer, and handed the exits known so far. -/
def Subscribed (call : ItemId) (layer : LayerId) (s s' : RunState L A S) : Prop :=
  ∃ items events, s.items.retain call = .ok items ∧
    Each (HandedTo call layer) (s.exits.activation layer).exits
      { s with items := items, exits := s.exits.subscribe layer call, events := events } s'

/-- An item that stepped over a call was put on the worklist once more. -/
def Requeued (stale : ItemId) (s s' : RunState L A S) : Prop :=
  ∃ staleItem, s.items.get stale = .ok staleItem ∧
    (staleItem.predecessor = none ∧ s' = s ∨
      ∃ p predecessor s₁ items, staleItem.predecessor = some p ∧
        s.items.get p = .ok predecessor ∧
        Enqueued { Item.successor staleItem.pre staleItem.action p predecessor with
          summary := staleItem.summary } s s₁ ∧
        Arena.release stale s₁.items = .ok () items ∧ s' = { s₁ with items := items })

namespace Run

variable {s s' : RunState L A S}

theorem enqueued_of_ok {i : Item L A S} {event : ItemId → Event L A S} {u : Unit}
    (h : (insert i >>= fun id => emit (event id) >>= fun _ => enqueue id) s = .ok u s') :
    Enqueued i s s' := by
  simp only [bind_eq_ok, insert_eq_ok, emit_eq_ok, enqueue_eq_ok] at h
  obtain ⟨id, _, ⟨items, hinsert, rfl⟩, _, _, rfl, items', hretain, rfl⟩ := h
  exact ⟨id, items, items', _, hinsert, hretain, rfl⟩

theorem returnTo_ok {call : ItemId} {layer : LayerId} {exit : ScopeExit A S} {u : Unit}
    (h : returnTo call layer exit s = .ok u s') : HandedTo call layer exit s s' := by
  unfold returnTo at h
  obtain ⟨callItem, _, hitem, hrest⟩ := bind_eq_ok.mp h
  obtain ⟨hget, rfl⟩ := item_eq_ok.mp hitem
  exact ⟨callItem, hget, enqueued_of_ok hrest⟩

theorem subscribe_ok {call : ItemId} {layer : LayerId} {u : Unit}
    (h : subscribe call layer s = .ok u s') : Subscribed call layer s s' := by
  unfold subscribe at h
  simp only [bind_eq_ok, emit_eq_ok, retain_eq_ok, get_eq_ok, modify_eq_ok] at h
  obtain ⟨_, _, rfl, _, _, ⟨items, hretain, rfl⟩, _, _, ⟨rfl, rfl⟩, _, _, rfl, hforM⟩ := h
  exact ⟨items, s.events.push (.subscribed call layer), hretain,
    (each_of_forM hforM).mono fun _ _ _ => returnTo_ok⟩

theorem requeue_ok {stale : ItemId} {u : Unit} (h : requeue stale s = .ok u s') :
    Requeued stale s s' := by
  unfold requeue at h
  obtain ⟨staleItem, _, hitem, hrest⟩ := bind_eq_ok.mp h
  obtain ⟨hget, rfl⟩ := item_eq_ok.mp hitem
  refine ⟨staleItem, hget, ?_⟩
  cases hp : staleItem.predecessor with
  | none =>
    rw [hp] at hrest
    exact .inl ⟨rfl, (pure_eq_ok.mp hrest).2.symm⟩
  | some p =>
    rw [hp] at hrest
    obtain ⟨predecessor, _, hpred, hrest⟩ := bind_eq_ok.mp hrest
    obtain ⟨hgetp, rfl⟩ := item_eq_ok.mp hpred
    simp only [bind_eq_ok, insert_eq_ok, emit_eq_ok, enqueue_eq_ok, release_eq_ok] at hrest
    obtain ⟨id, _, ⟨items, hinsert, rfl⟩, _, _, rfl, _, _, ⟨items', hretain, rfl⟩, items'',
      hrelease, rfl⟩ := hrest
    exact .inr ⟨p, predecessor, _, items'', rfl, hgetp,
      ⟨id, items, items', _, hinsert, hretain, rfl⟩, hrelease, rfl⟩

end Run

/-! ## §4. Taking up an item. -/

namespace Engine

open Run

variable [DecidableEq A] [AbstractState S] (e : Engine L A S)
variable {s s' : RunState L A S}

/-- The states after an item's action, from states in which the variables that come into scope
are defined. -/
def postOf (item : Item L A S) (fresh : Disjunction S) : Except Error (Disjunction S) :=
  match e.leaves item, item.beforeScope with
  | true, some before =>
    fresh.postLeaving before e.domain item.action e.options.maxParallelStates
  | _, _ => fresh.post e.domain item.action e.options.maxParallelStates

/-- The states after an item's action, by the declarations and the domain. -/
def evaluate (item : Item L A S) : Except Error (Disjunction S) := do
  let outer := item.beforeScope.bind Disjunction.collapse
  let fresh ← item.pre.mapDisjuncts e.options.maxParallelStates fun s =>
    e.declarations.after item.action s (outer.getD s)
  e.postOf item fresh

/-- The items after a recorded exit changed: the first time, the exit holds its predecessor. -/
def heldBy (change : ExitChange A S) (items : Arena L A S) : Except Error (Arena L A S) :=
  match change.first, change.exit.predecessor with
  | true, some p => items.retain p
  | _, _ => .ok items

/-- The exit that an item takes was remembered, and handed to the calls that wait for it. -/
inductive ExitTaken (item : Item L A S) : RunState L A S → RunState L A S → Prop where
  | skipped {s : RunState L A S} {events}
      (hskip : e.leaves item = false ∨ item.returned = true ∨ item.pre.isBottom = true) :
      ExitTaken item s { s with events := events }
  | known {s : RunState L A S} {exits events} (hleaves : e.leaves item = true)
      (hreturned : item.returned = false) (hpre : item.pre.isBottom = false)
      (hrecord : s.exits.record e.domain e.options item.currentLayer item.action item.pre
        item.predecessor = .ok (none, exits)) :
      ExitTaken item s { s with exits := exits, events := events }
  | grown {s s' : RunState L A S} {change exits items events statistics}
      (hleaves : e.leaves item = true) (hreturned : item.returned = false)
      (hpre : item.pre.isBottom = false)
      (hrecord : s.exits.record e.domain e.options item.currentLayer item.action item.pre
        item.predecessor = .ok (some change, exits))
      (hheld : heldBy change s.items = .ok items)
      (hcount : s.statistics.widenings + (if change.widened then 1 else 0) ≤ statistics.widenings)
      (hhanded : Each (fun call => HandedTo call item.currentLayer change.exit)
        (exits.activation item.currentLayer).calls
        { s with exits := exits, items := items, events := events, statistics := statistics } s') :
      ExitTaken item s s'

/-- The states after an item's action were computed: by interpreting the action, or by the summary
of a call, which then remembers the item. -/
inductive Computed (id : ItemId) (item : Item L A S) (post : Disjunction S) :
    RunState L A S → RunState L A S → Prop where
  | interpreted {s s' : RunState L A S} (hsummary : item.summary = none)
      (hpost : e.evaluate item = .ok post) (hlogged : Logged s s') : Computed id item post s s'
  | summarised {s : RunState L A S} {r items statistics} (hsummary : item.summary = some r)
      (hpost : s.summaries.post? r = some post) (hretain : s.items.retain id = .ok items)
      (hcount : statistics.widenings = s.statistics.widenings) :
      Computed id item post s
        { s with summaries := s.summaries.addUse r id, items := items, statistics := statistics }

/-- An item was taken up. -/
def TakenUp (id : ItemId) (item : Item L A S) (post : Disjunction S)
    (s s' : RunState L A S) : Prop :=
  ∃ s₁, e.ExitTaken item s s₁ ∧ e.Computed id item post s₁ s'

variable {e}

omit [DecidableEq A] [AbstractState S] in
theorem heldBy_ok {change : ExitChange A S} {u : PUnit}
    (h : onlyIf change.first (change.exit.predecessor.forM retain) s = .ok u s') :
    ∃ items, heldBy change s.items = .ok items ∧ s' = { s with items := items } := by
  rw [onlyIf_eq_ok] at h
  unfold heldBy
  cases hfirst : change.first with
  | false =>
    rw [hfirst] at h
    exact ⟨s.items, rfl, (by simpa using h.symm)⟩
  | true =>
    rw [hfirst, if_pos rfl] at h
    cases hp : change.exit.predecessor with
    | none =>
      rw [hp] at h
      exact ⟨s.items, rfl, (pure_eq_ok.mp h).2.symm⟩
    | some p =>
      rw [hp] at h
      obtain ⟨items, hretain, rfl⟩ := retain_eq_ok.mp h
      exact ⟨items, hretain, rfl⟩

theorem ExitTaken.of_logged {item : Item L A S} {events}
    (h : e.ExitTaken item { s with events := events } s') : e.ExitTaken item s s' := by
  cases h with
  | skipped hskip => exact .skipped hskip
  | known hleaves hreturned hpre hrecord => exact .known hleaves hreturned hpre hrecord
  | grown hleaves hreturned hpre hrecord hheld hcount hhanded =>
    exact .grown hleaves hreturned hpre hrecord hheld hcount hhanded

theorem recordExit_ok {item : Item L A S} {u : Unit} (hleaves : e.leaves item = true)
    (h : e.recordExit item s = .ok u s') : e.ExitTaken item s s' := by
  unfold recordExit at h
  split at h
  · rename_i hskip
    obtain ⟨-, rfl⟩ := pure_eq_ok.mp h
    exact .skipped (.inr (by simpa using hskip))
  · rename_i hskip
    simp only [Bool.or_eq_true, not_or, Bool.not_eq_true] at hskip
    simp only [bind_eq_ok, get_eq_ok, ask_eq_ok, modify_eq_ok] at h
    obtain ⟨_, _, ⟨rfl, rfl⟩, ⟨change, exits⟩, _, ⟨hrecord, rfl⟩, _, _, rfl, h⟩ := h
    cases change with
    | none =>
      obtain ⟨-, rfl⟩ := pure_eq_ok.mp h
      exact .known hleaves hskip.1 hskip.2 hrecord
    | some change =>
      obtain ⟨_, s₁, hfirst, h⟩ := bind_eq_ok.mp h
      obtain ⟨_, s₂, hlog, hforM⟩ := bind_eq_ok.mp h
      obtain ⟨items, hheld, rfl⟩ := heldBy_ok hfirst
      have hhanded := (each_of_forM hforM).mono fun _ _ _ => returnTo_ok
      simp only [onlyIf_eq_ok, bind_eq_ok, count_eq_ok, emit_eq_ok] at hlog
      split at hlog
      · rename_i hwidened
        obtain ⟨_, _, rfl, rfl⟩ := hlog
        exact .grown hleaves hskip.1 hskip.2 hrecord hheld (by simp [hwidened]) hhanded
      · rename_i hkept
        subst hlog
        exact .grown hleaves hskip.1 hskip.2 hrecord hheld (by simp [hkept]) hhanded

omit [DecidableEq A] in
theorem applyPost_ok {item : Item L A S} {fresh post : Disjunction S}
    (h : e.applyPost item (e.leaves item) fresh s = .ok post s') :
    e.postOf item fresh = .ok post ∧ Logged s s' := by
  unfold applyPost at h
  unfold postOf
  cases hleaving : e.leaves item with
  | false =>
    rw [hleaving] at h
    obtain ⟨hpost, rfl⟩ := ask_eq_ok.mp h
    exact ⟨hpost, .refl s⟩
  | true =>
    cases hbefore : item.beforeScope with
    | none =>
      rw [hleaving, hbefore] at h
      obtain ⟨hpost, rfl⟩ := ask_eq_ok.mp h
      exact ⟨hpost, .refl s⟩
    | some before =>
      rw [hleaving, hbefore] at h
      simp only [bind_eq_ok, ask_eq_ok, onlyIf_eq_ok, emit_eq_ok, pure_eq_ok] at h
      obtain ⟨_, _, ⟨hpost, rfl⟩, _, s₁, hlost, rfl, rfl⟩ := h
      refine ⟨hpost, ?_⟩
      split at hlost
      · exact ⟨_, _, le_rfl, hlost.symm⟩
      · exact ⟨_, _, le_rfl, hlost.symm⟩

omit [DecidableEq A] [AbstractState S] in
theorem checkPost_ok {item : Item L A S} {fresh post : Disjunction S} {u : Unit}
    (h : e.checkPost item fresh post s = .ok u s') : Logged s s' := by
  unfold checkPost at h
  cases hcheck : e.postCheck with
  | none =>
    rw [hcheck] at h
    exact ⟨_, _, le_rfl, (pure_eq_ok.mp h).2.symm⟩
  | some isSound =>
    simp only [hcheck] at h
    split at h
    · exact ⟨_, _, le_rfl, (pure_eq_ok.mp h).2.symm⟩
    · obtain ⟨_, s₁, hemit, h⟩ := bind_eq_ok.mp h
      rw [emit_eq_ok] at hemit
      split at h
      · obtain ⟨-, rfl⟩ := pure_eq_ok.mp h
        exact ⟨_, _, le_rfl, hemit.symm⟩
      · exact (throw_eq_ok.mp h).elim

omit [DecidableEq A] in
theorem interpret_ok {item : Item L A S} {post : Disjunction S}
    (h : e.interpret item (e.leaves item) s = .ok post s') :
    e.evaluate item = .ok post ∧ Logged s s' := by
  unfold interpret at h
  obtain ⟨fresh, _, hask, h⟩ := bind_eq_ok.mp h
  obtain ⟨hfresh, rfl⟩ := ask_eq_ok.mp hask
  obtain ⟨_, s₁, happly, h⟩ := bind_eq_ok.mp h
  obtain ⟨_, s₂, hcheck, h⟩ := bind_eq_ok.mp h
  obtain ⟨rfl, rfl⟩ := pure_eq_ok.mp h
  obtain ⟨hpost, hlogged⟩ := applyPost_ok happly
  exact ⟨by simp [evaluate, hfresh, hpost, bind, Except.bind], hlogged.trans (checkPost_ok hcheck)⟩

theorem applySummary_ok {id : ItemId} {r : SummaryRef A} {item : Item L A S}
    {post : Disjunction S} (hsummary : item.summary = some r)
    (h : applySummary id r s = .ok post s') : e.Computed id item post s s' := by
  unfold applySummary at h
  obtain ⟨_, _, hget, h⟩ := bind_eq_ok.mp h
  obtain ⟨rfl, rfl⟩ := get_eq_ok.mp hget
  cases hpost : s.summaries.post? r with
  | none =>
    rw [hpost] at h
    exact (throw_eq_ok.mp h).elim
  | some post' =>
    rw [hpost] at h
    simp only [bind_eq_ok, modify_eq_ok, retain_eq_ok, count_eq_ok, pure_eq_ok] at h
    obtain ⟨_, _, rfl, _, _, ⟨items, hretain, rfl⟩, _, _, rfl, rfl, rfl⟩ := h
    exact .summarised hsummary hpost hretain rfl

/-- What taking up an item does. -/
theorem takeUp_ok {id : ItemId} {item : Item L A S} {post : Disjunction S}
    (h : e.takeUp id item s = .ok post s') : e.TakenUp id item post s s' := by
  unfold takeUp at h
  simp only [bind_eq_ok, emit_eq_ok, onlyIf_eq_ok] at h
  obtain ⟨_, _, rfl, _, s₁, hexit, hpost⟩ := h
  refine ⟨s₁, ?_, ?_⟩
  · split at hexit
    · rename_i hleaves
      exact (recordExit_ok hleaves hexit).of_logged
    · rename_i hstays
      subst hexit
      exact .skipped (.inl (by simpa using hstays))
  · unfold postState at hpost
    cases hsummary : item.summary with
    | some r =>
      rw [hsummary] at hpost
      exact applySummary_ok hsummary hpost
    | none =>
      rw [hsummary] at hpost
      obtain ⟨hpost, hlogged⟩ := interpret_ok hpost
      exact .interpreted hsummary hpost hlogged

end Engine

end Interproc
