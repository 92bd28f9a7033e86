/-
  Interproc.Proofs.Failures
  ─────────────────────────
  How steps of a computation can fail.  `FailsWith P` says of a step that it fails
  with halts of which `P` holds, if it fails at all; it is established one bind at
  a time, and what is known after a successful first step comes from the lemmas
  that describe successful steps.

  A look-up of an item succeeds because references are counted right, and a look-up
  of a layer or a summary because there are never fewer of them than before.  What
  is left are the answers of the domain, of the declarations, of the second opinion
  and of the timer.
-/
import Mathlib
import Interproc.Proofs.Passes

namespace Interproc

variable {L A S α β : Type}

/-! ## §1. Failing with a halt of some kind. -/

namespace Run

variable {P : Halt A → Prop} {s s' : RunState L A S}

/-- If a step fails, it does so with a halt of which `P` holds. -/
def FailsWith (P : Halt A → Prop) (step : Run L A S α) (s : RunState L A S) : Prop :=
  ∀ halt s', step s = .error halt s' → P halt

theorem failsWith_bind {x : Run L A S α} {f : α → Run L A S β} (hx : FailsWith P x s)
    (hf : ∀ a s₁, x s = .ok a s₁ → FailsWith P (f a) s₁) : FailsWith P (x >>= f) s := by
  intro halt s' h
  have hbind : EStateM.bind x f s = .error halt s' := h
  unfold EStateM.bind at hbind
  cases hstep : x s with
  | ok a s₁ =>
    rw [hstep] at hbind
    exact hf a s₁ hstep halt s' hbind
  | error cause s₁ =>
    rw [hstep] at hbind
    cases hbind
    exact hx halt s' hstep

theorem failsWith_pure {a : α} : FailsWith P (pure a : Run L A S α) s := by
  intro halt s' h
  cases h

theorem failsWith_get : FailsWith P (get : Run L A S (RunState L A S)) s := by
  intro halt s' h
  cases h

theorem failsWith_modify {f : RunState L A S → RunState L A S} :
    FailsWith P (modify f : Run L A S Unit) s := by
  intro halt s' h
  cases h

theorem failsWith_emit {event : Event L A S} : FailsWith P (emit event) s := failsWith_modify

theorem failsWith_count {f : Statistics → Statistics} :
    FailsWith P (count f : Run L A S Unit) s := failsWith_modify

theorem failsWith_throw {halt : Halt A} (h : P halt) :
    FailsWith P (throw halt : Run L A S α) s := by
  intro halt' s' hthrow
  cases hthrow
  exact h

theorem failsWith_onlyIf {c : Bool} {x : Run L A S Unit} (h : c = true → FailsWith P x s) :
    FailsWith P (onlyIf c x) s := by
  unfold onlyIf
  split
  · rename_i hc
    exact h hc
  · exact failsWith_pure

theorem failsWith_ask {x : Except Error α} (h : ∀ cause, x = .error cause → P (.refused cause)) :
    FailsWith P (ask x : Run L A S α) s := by
  cases x with
  | ok a => exact failsWith_pure
  | error cause => exact failsWith_throw (h cause rfl)

theorem failsWith_expect {x : Except Error α} {a : α} (h : x = .ok a) :
    FailsWith P (expect x : Run L A S α) s := by
  rw [h]
  exact failsWith_pure

/-- A loop fails as its steps do, as long as what they rely on is kept. -/
theorem failsWith_forM {f : α → Run L A S PUnit} {l : List α} {I : RunState L A S → Prop}
    (hs : I s) (hstep : ∀ a ∈ l, ∀ t, I t → FailsWith P (f a) t)
    (hkeep : ∀ a ∈ l, ∀ t t', I t → f a t = .ok PUnit.unit t' → I t') :
    FailsWith P (l.forM f) s := by
  induction l generalizing s with
  | nil => exact failsWith_pure
  | cons a l ih =>
    refine failsWith_bind (hstep a List.mem_cons_self s hs) fun _ s₁ hok => ?_
    exact ih (hkeep a List.mem_cons_self s s₁ hs hok)
      (fun b hb => hstep b (List.mem_cons_of_mem a hb))
      fun b hb => hkeep b (List.mem_cons_of_mem a hb)

end Run

/-! ## §2. Look-ups. -/

namespace Arena

variable {a : Arena L A S} {id : ItemId} {item : Item L A S} {held : ItemId → Nat}

theorem exists_retain (h : a.get id = .ok item) : ∃ a', a.retain id = .ok a' := by
  obtain ⟨n, hslot⟩ := get_eq_ok_iff.mp h
  unfold retain
  rw [hslot]
  exact ⟨_, rfl⟩

theorem exists_set (h : a.get id = .ok item) (item' : Item L A S) :
    ∃ a', a.set id item' = .ok a' := by
  obtain ⟨n, hslot⟩ := get_eq_ok_iff.mp h
  unfold set
  rw [hslot]
  exact ⟨_, rfl⟩

theorem exists_insert (h : ∀ p, item.predecessor = some p → ∃ q, a.get p = .ok q) :
    ∃ r, a.insert item = .ok r := by
  unfold insert
  cases hp : item.predecessor with
  | none => exact ⟨_, rfl⟩
  | some p =>
    obtain ⟨q, hq⟩ := h p hp
    obtain ⟨a', hretain⟩ := exists_retain hq
    exact ⟨a'.place item, by simp [hretain, bind, Except.bind, pure, Except.pure]⟩

/-- A reference that is counted can be given back. -/
theorem exists_releaseChain (n : Nat) (h : a.Counted fun j => held j + once id j) :
    ∃ a', releaseChain n id a = .ok () a' := by
  induction n generalizing a id with
  | zero => exact ⟨a, rfl⟩
  | succ n ih =>
    obtain ⟨item, hget⟩ := h.live (j := id) (by simp only [once_self]; omega)
    obtain ⟨references, hslot⟩ := get_eq_ok_iff.mp hget
    unfold releaseChain
    simp only [hslot]
    split
    · exact ⟨_, rfl⟩
    · rename_i hlast
      obtain ⟨hvacated, -⟩ := h.vacate hslot (Nat.le_of_not_lt hlast)
      cases hp : item.predecessor with
      | none => exact ⟨_, rfl⟩
      | some p =>
        simp only [toNat_follows, hp, Option.elim_some] at hvacated
        exact ih hvacated

theorem exists_release (h : a.Counted fun j => held j + once id j) :
    ∃ a', release id a = .ok () a' :=
  exists_releaseChain _ h

end Arena

namespace Layers

variable {m : Layers L A S} {id : LayerId}

theorem exists_layer (h : id.index < m.size) : ∃ layer, m.layer id = .ok layer := by
  unfold layer
  rw [Array.getElem?_eq_getElem h]
  exact ⟨_, rfl⟩

theorem exists_create (h : id.index < m.size) : ∃ r, m.create id = .ok r := by
  obtain ⟨layer, hlayer⟩ := exists_layer h
  exact ⟨_, by simp [create, hlayer, bind, Except.bind, pure, Except.pure]; rfl⟩

variable [DecidableEq L] in
theorem exists_state? (h : id.index < m.size) (location : L) :
    ∃ r, m.state? id location = .ok r := by
  obtain ⟨layer, hlayer⟩ := exists_layer h
  exact ⟨_, by simp [state?, hlayer, bind, Except.bind, pure, Except.pure]; rfl⟩

variable [DecidableEq L] [AbstractState S] in
theorem exists_addState (h : id.index < m.size) (location : L) (candidate : Disjunction S) :
    ∃ r, m.addState id location candidate = .ok r := by
  obtain ⟨layer, hlayer⟩ := exists_layer h
  exact ⟨_, by simp [addState, hlayer, bind, Except.bind, pure, Except.pure]; rfl⟩

variable [DecidableEq A] [AbstractState S]

theorem exists_addScopeFixpoint (h : id.index < m.size) (action : A) (state : Disjunction S) :
    ∃ r, m.addScopeFixpoint id action state = .ok r := by
  obtain ⟨layer, hlayer⟩ := exists_layer h
  exact ⟨_, by simp [addScopeFixpoint, hlayer, bind, Except.bind, pure, Except.pure]; rfl⟩

theorem exists_isScopeFixpoint (h : id.index < m.size) (action : A) (state : Disjunction S) :
    ∃ r, m.isScopeFixpoint id action state = .ok r := by
  obtain ⟨layer, hlayer⟩ := exists_layer h
  exact ⟨_, by simp [isScopeFixpoint, hlayer, bind, Except.bind, pure, Except.pure]; rfl⟩

end Layers

/-! ## §3. Steps on items. -/

namespace Run

variable {P : Halt A → Prop} {s s' : RunState L A S} {id : ItemId} {i : Item L A S}
variable {extra : ItemId → Nat}

theorem failsWith_item (h : s.items.get id = .ok i) : FailsWith P (item id) s :=
  failsWith_bind failsWith_get fun _ _ hget => by
    obtain ⟨rfl, rfl⟩ := get_eq_ok.mp hget
    exact failsWith_expect h

theorem failsWith_setItem (h : s.items.get id = .ok i) (i' : Item L A S) :
    FailsWith P (setItem id i') s := by
  obtain ⟨items, hset⟩ := Arena.exists_set h i'
  refine failsWith_bind failsWith_get fun _ _ hget => ?_
  obtain ⟨rfl, rfl⟩ := get_eq_ok.mp hget
  exact failsWith_bind (failsWith_expect hset) fun _ _ _ => failsWith_modify

theorem failsWith_retain (h : s.items.get id = .ok i) : FailsWith P (retain id) s := by
  obtain ⟨items, hretain⟩ := Arena.exists_retain h
  refine failsWith_bind failsWith_get fun _ _ hget => ?_
  obtain ⟨rfl, rfl⟩ := get_eq_ok.mp hget
  exact failsWith_bind (failsWith_expect hretain) fun _ _ _ => failsWith_modify

theorem failsWith_release {held : ItemId → Nat}
    (h : s.items.Counted fun j => held j + once id j) : FailsWith P (release id) s := by
  intro halt s' hrelease
  obtain ⟨items, hok⟩ := Arena.exists_release h
  unfold release at hrelease
  rw [hok] at hrelease
  cases hrelease

/-- An item can be put on the worklist if its predecessor is live. -/
theorem failsWith_enqueued {event : ItemId → Event L A S} (ht : s.Tidy extra)
    (hp : ∀ p, i.predecessor = some p → ∃ q, s.items.get p = .ok q) :
    FailsWith P (insert i >>= fun id => emit (event id) >>= fun _ => enqueue id) s := by
  obtain ⟨r, hinsert⟩ := Arena.exists_insert hp
  refine failsWith_bind (failsWith_bind failsWith_get fun _ _ hget => ?_) fun id s₁ hok => ?_
  · obtain ⟨rfl, rfl⟩ := get_eq_ok.mp hget
    refine failsWith_bind (failsWith_expect hinsert) fun _ _ _ => ?_
    exact failsWith_bind failsWith_modify fun _ _ _ => failsWith_pure
  · obtain ⟨items, hinsert, rfl⟩ := insert_eq_ok.mp hok
    refine failsWith_bind failsWith_emit fun _ _ hemit => ?_
    cases emit_eq_ok.mp hemit
    have hget := (ht.counted.insert hinsert).get_eq id
    rw [if_pos rfl] at hget
    exact failsWith_bind (failsWith_retain hget) fun _ _ _ => failsWith_modify

theorem failsWith_returnTo {call : ItemId} {layer : LayerId} {exit : ScopeExit A S}
    (ht : s.Tidy extra) (hcall : ∃ c, s.items.get call = .ok c)
    (hexit : ∀ p, exit.predecessor = some p → ∃ q, s.items.get p = .ok q) :
    FailsWith P (returnTo call layer exit) s := by
  obtain ⟨c, hc⟩ := hcall
  refine failsWith_bind (failsWith_item hc) fun _ _ hitem => ?_
  obtain ⟨-, rfl⟩ := item_eq_ok.mp hitem
  exact failsWith_enqueued ht hexit

/-- Exits can be handed to calls, as long as somebody holds the calls and the exits. -/
theorem failsWith_handed {l : List α} {call : α → ItemId} {exit : α → ScopeExit A S}
    {layer : LayerId} (ht : s.Tidy extra)
    (hcall : ∀ a ∈ l, 0 < s.exits.held (call a) + extra (call a))
    (hexit : ∀ a ∈ l, ∀ p, (exit a).predecessor = some p → 0 < s.exits.held p) :
    FailsWith P (l.forM fun a => returnTo (call a) layer (exit a)) s := by
  refine failsWith_forM (I := fun t => t.Tidy extra ∧ t.exits = s.exits) ⟨ht, rfl⟩ ?_ ?_
  · rintro a ha t ⟨ht, hexits⟩
    refine failsWith_returnTo ht (ht.live_of_held ?_) fun p hp => ht.live_of_held ?_
    · rw [hexits]
      have := hcall a ha
      omega
    · rw [hexits]
      have := hexit a ha p hp
      omega
  · rintro a ha t t' ⟨ht, hexits⟩ hok
    obtain ⟨c, -, henqueued⟩ := returnTo_ok hok
    obtain ⟨id, hgrows⟩ := henqueued.grows ht
      (fun p hp => ht.not_pending (by
        rw [hexits]
        have := hexit a ha p hp
        omega))
      (by simp [Item.returning, Item.enterScope])
    exact ⟨hgrows.tidy, hgrows.unmoved.exits.trans hexits⟩

theorem failsWith_requeue {stale : ItemId} (ht : s.Tidy fun j => extra j + once stale j) :
    FailsWith P (requeue stale) s := by
  obtain ⟨staleItem, hget⟩ := ht.live_of_held (j := stale) (by simp only [once_self]; omega)
  refine failsWith_bind (failsWith_item hget) fun _ _ hitem => ?_
  obtain ⟨hsame, rfl⟩ := item_eq_ok.mp hitem
  rw [hget] at hsame
  cases hsame
  cases hp : staleItem.predecessor with
  | none => exact failsWith_pure
  | some p =>
    obtain ⟨hnot, q, hq⟩ := ht.predecessor hget hp
    refine failsWith_bind (failsWith_item hq) fun _ _ hitem => ?_
    obtain ⟨hsame, rfl⟩ := item_eq_ok.mp hitem
    rw [hq] at hsame
    cases hsame
    -- Giving back the stale item comes after the new one was put on the worklist.
    have hassoc : ∀ (i : Item L A S) (event : ItemId → Event L A S),
        (insert i >>= fun id => emit (event id) >>= fun _ => enqueue id >>= fun _ => release stale)
          = ((insert i >>= fun id => emit (event id) >>= fun _ => enqueue id) >>= fun _ =>
            release stale) := fun _ _ => by simp only [bind_assoc]
    show FailsWith P (insert _ >>= fun id => emit _ >>= fun _ => enqueue id >>= fun _ =>
      release stale) _
    rw [hassoc]
    refine failsWith_bind (failsWith_enqueued ht ?_) fun _ s₁ hok => ?_
    · intro p' hp'
      cases hp'
      exact ⟨q, hq⟩
    · obtain ⟨id, hgrows⟩ := (enqueued_of_ok hok).grows ht
        (fun p' hp' => by
          cases hp'
          exact hnot)
        (fun _ => rfl)
      have hcounted : s₁.items.Counted fun j => (s₁.held j + extra j) + once stale j := by
        simpa only [Nat.add_assoc] using hgrows.tidy.counted
      exact failsWith_release hcounted

/-- Items that stepped over a call can be put on the worklist once more. -/
theorem failsWith_requeueAll {stale : List ItemId} (ht : s.Tidy fun j => extra j + stale.count j)
    (hstale : ∀ j ∈ stale, ∀ i, s.items.get j = .ok i → i.summary.isSome) :
    FailsWith P (stale.forM requeue) s := by
  induction stale generalizing s with
  | nil => exact failsWith_pure
  | cons j l ih =>
    simp only [count_cons_once, ← Nat.add_assoc] at ht
    refine failsWith_bind (failsWith_requeue ht) fun _ s₁ hok => ?_
    obtain ⟨n, hgrows, -⟩ := (requeue_ok hok).grows ht (hstale j List.mem_cons_self)
    refine ih hgrows.tidy fun k hk i hget => ?_
    refine hstale k (List.mem_cons_of_mem j hk) i (hgrows.get_before ?_ hget)
    have := List.count_pos_iff.mpr hk
    exact hgrows.tidy.not_pending (by omega)

end Run

/-! ## §4. Answers that are refused. -/

theorem except_bind_eq_error {x : Except Error α} {f : α → Except Error β} {cause : Error} :
    x >>= f = .error cause ↔ x = .error cause ∨ ∃ a, x = .ok a ∧ f a = .error cause := by
  cases x with
  | ok a =>
    constructor
    · intro h
      exact .inr ⟨a, rfl, h⟩
    · rintro (h | ⟨a', h, hf⟩)
      · cases h
      · cases h
        exact hf
  | error cause' =>
    constructor
    · intro h
      have h : (Except.error cause' : Except Error β) = .error cause := h
      cases h
      exact .inl rfl
    · rintro (h | ⟨a, h, -⟩)
      · cases h
        rfl
      · cases h

theorem forall₂_of_mapM {f : α → Except Error β} {l : List α} {l' : List β}
    (h : l.mapM f = .ok l') : List.Forall₂ (fun a b => f a = .ok b) l l' := by
  induction l generalizing l' with
  | nil =>
    cases h
    exact .nil
  | cons a l ih =>
    rw [List.mapM_cons] at h
    obtain ⟨b, hb, h⟩ := except_bind_eq_ok.mp h
    obtain ⟨rest, hrest, h⟩ := except_bind_eq_ok.mp h
    cases h
    exact .cons hb (ih hrest)

theorem exists_of_mapM_error {f : α → Except Error β} {l : List α} {cause : Error}
    (h : l.mapM f = .error cause) : ∃ a ∈ l, f a = .error cause := by
  induction l with
  | nil => cases h
  | cons a l ih =>
    rw [List.mapM_cons, except_bind_eq_error] at h
    obtain h | ⟨b, -, h⟩ := h
    · exact ⟨a, List.mem_cons_self, h⟩
    · obtain h | ⟨bs, -, h⟩ := except_bind_eq_error.mp h
      · obtain ⟨a', ha', h⟩ := ih h
        exact ⟨a', List.mem_cons_of_mem a ha', h⟩
      · cases h

namespace Engine

variable (e : Engine L A S)

/-- A call to the domain or to the declarations is answered with an error. -/
inductive Refuses (cause : Error) : Prop where
  | initial {action : A} {state : S} (h : e.declarations.initial action state = .error cause)
  | after {action : A} {state outer : S}
      (h : e.declarations.after action state outer = .error cause)
  | post {state : S} {action : A} (h : e.domain.post state action = .error cause)
  | postLeaving {state outer : S} {action : A}
      (h : e.domain.postLeaving state outer action = .error cause)
  | widen {older newer : S} (h : e.domain.widen older newer = .error cause)

/-- Halts that are not the engine's own doing: the timer does not go on, the domain or the
declarations refuse to answer, or the second opinion rejects states. -/
inductive Excused : Halt A → Prop where
  | cancelled {iterations : Nat} (h : e.timer.allows iterations = false) :
      Excused (.cancelled iterations)
  | refused {cause : Error} (h : e.Refuses cause) : Excused (.refused cause)
  | unsound {check : PostCheck A S} {pre fresh post : List S} {action : A}
      (hcheck : e.postCheck = some check) (h : check pre fresh post action = false) :
      Excused (.unsound action)

variable [AbstractState S] {e}

theorem refuses_of_widen {older newer : Disjunction S} {cause : Error}
    (h : older.widen newer e.domain = .error cause) : e.Refuses cause := by
  unfold Disjunction.widen at h
  split at h
  · obtain h | ⟨w, -, h⟩ := except_bind_eq_error.mp h
    · exact .widen h
    · cases h
  · cases h
  · cases h

theorem refuses_of_post {d : Disjunction S} {action : A} {width : Nat} {cause : Error}
    (h : d.post e.domain action width = .error cause) : e.Refuses cause := by
  obtain h | ⟨posts, -, h⟩ := except_bind_eq_error.mp h
  · obtain ⟨s, -, h⟩ := exists_of_mapM_error h
    exact .post h
  · cases h

theorem refuses_of_postLeaving {d outer : Disjunction S} {action : A} {width : Nat} {cause : Error}
    (h : d.postLeaving outer e.domain action width = .error cause) : e.Refuses cause := by
  obtain h | ⟨posts, -, h⟩ := except_bind_eq_error.mp h
  · obtain ⟨p, -, h⟩ := exists_of_mapM_error h
    exact .postLeaving h
  · cases h

variable [DecidableEq A]

theorem refuses_of_recordIn {action : A} {state : Disjunction S} {predecessor : Option ItemId}
    {exits : List (ScopeExit A S)} {cause : Error}
    (h : Exits.recordIn e.domain e.options action state predecessor exits = .error cause) :
    e.Refuses cause := by
  induction exits with
  | nil => cases h
  | cons exit rest ih =>
    unfold Exits.recordIn at h
    split at h
    · split at h
      · cases h
      · obtain h | ⟨change, -, h⟩ := except_bind_eq_error.mp h
        · unfold Exits.grow at h
          dsimp only at h
          split at h
          · obtain h | ⟨w, -, h⟩ := except_bind_eq_error.mp h
            · exact refuses_of_widen h
            · cases h
          · cases h
        · cases h
    · obtain h | ⟨r, -, h⟩ := except_bind_eq_error.mp h
      · exact ih h
      · cases h

theorem refuses_of_record {exits : Exits A S} {layer : LayerId} {action : A}
    {state : Disjunction S} {predecessor : Option ItemId} {cause : Error}
    (h : exits.record e.domain e.options layer action state predecessor = .error cause) :
    e.Refuses cause := by
  obtain h | ⟨r, -, h⟩ := except_bind_eq_error.mp h
  · exact refuses_of_recordIn h
  · cases h

/-! ## §5. The item in flight. -/

open Run

variable {t u : RunState L A S} {id : ItemId} {item : Item L A S} {post : Disjunction S}
variable {new : List (ItemId × Item L A S)} {extra : ItemId → Nat} {P : Halt A → Prop}

omit [DecidableEq A] [AbstractState S] in
theorem failsWith_subscribe (h : InFlight id extra item new t u) (layer : LayerId) :
    FailsWith P (subscribe id layer) u := by
  refine failsWith_bind failsWith_emit fun _ _ hemit => ?_
  cases emit_eq_ok.mp hemit
  refine failsWith_bind (failsWith_retain h.get_current) fun _ _ hretain => ?_
  obtain ⟨items, hitems, rfl⟩ := retain_eq_ok.mp hretain
  refine failsWith_bind failsWith_get fun _ _ hget => ?_
  obtain ⟨rfl, rfl⟩ := get_eq_ok.mp hget
  refine failsWith_bind failsWith_modify fun _ v hmodify => ?_
  cases modify_eq_ok.mp hmodify
  have hmid : InFlight id extra item new t
      { u with items := items, exits := u.exits.subscribe layer id } :=
    h.held hitems ⟨rfl, rfl, rfl⟩
  refine failsWith_handed (hmid.tidy.shift rfl rfl (fun _ => rfl) fun _ => le_rfl)
    (fun _ _ => by simp only [once_self]; omega) fun exit hexit p hp => ?_
  have hmem : exit ∈ ((u.exits.subscribe layer id).activation layer).exits := by
    rw [Exits.activation_subscribe, if_pos rfl]
    exact hexit
  exact Exits.held_pos_of_exit hmem hp

/-- The exit that an item takes can be remembered. -/
theorem failsWith_recordExit (h : InFlight id (fun _ => 0) item [] t t) :
    FailsWith e.Excused (e.recordExit item) t := by
  unfold recordExit
  split
  · exact failsWith_pure
  · refine failsWith_bind failsWith_get fun _ _ hget => ?_
    obtain ⟨rfl, rfl⟩ := get_eq_ok.mp hget
    refine failsWith_bind (failsWith_ask fun _ hrecord => .refused (refuses_of_record hrecord))
      fun r _ hask => ?_
    obtain ⟨hrecord, rfl⟩ := ask_eq_ok.mp hask
    obtain ⟨change, exits⟩ := r
    refine failsWith_bind failsWith_modify fun _ _ hmodify => ?_
    cases modify_eq_ok.mp hmodify
    cases change with
    | none => exact failsWith_pure
    | some change =>
      obtain ⟨hmem, hfirst⟩ := (Exits.record_ok hrecord).1.mem_exit
      refine failsWith_bind (failsWith_onlyIf fun hisFirst => ?_) fun _ _ hstep => ?_
      · -- The predecessor of the item in flight is live.
        cases hp : change.exit.predecessor with
        | none => exact failsWith_pure
        | some p =>
          obtain ⟨-, q, hq⟩ := h.tidy.predecessor h.get_current ((hfirst hisFirst).symm.trans hp)
          exact failsWith_retain hq
      · obtain ⟨items, hheld, rfl⟩ := heldBy_ok hstep
        refine failsWith_bind (failsWith_onlyIf fun _ =>
          failsWith_bind failsWith_count fun _ _ _ => failsWith_emit) fun _ v hlog => ?_
        have hv : v.items = items ∧ v.exits = exits ∧ v.worklist = t.worklist ∧
            v.summaries = t.summaries := by
          simp only [onlyIf_eq_ok, bind_eq_ok, count_eq_ok, emit_eq_ok] at hlog
          split at hlog
          · obtain ⟨_, _, rfl, rfl⟩ := hlog
            exact ⟨rfl, rfl, rfl, rfl⟩
          · subst hlog
            exact ⟨rfl, rfl, rfl, rfl⟩
        -- Waiting calls and the predecessors of exits are held, and so live.
        have hmid := h.recorded hrecord hheld hv
        refine failsWith_handed hmid.tidy (fun call hcall => ?_) fun _ _ p hp => ?_
        · have : 0 < v.exits.held call := by
            rw [hv.2.1]
            exact Exits.held_pos_of_call hcall
          omega
        · rw [hv.2.1]
          exact Exits.held_pos_of_exit hmem hp

omit [DecidableEq A] in
theorem failsWith_interpret (leaving : Bool) :
    FailsWith e.Excused (e.interpret item leaving) u := by
  refine failsWith_bind (failsWith_ask fun cause hfresh => ?_) fun fresh s₁ _ => ?_
  · obtain h | ⟨states, -, h⟩ := except_bind_eq_error.mp hfresh
    · obtain ⟨s, -, h⟩ := exists_of_mapM_error h
      exact .refused (.after h)
    · cases h
  refine failsWith_bind ?_ fun post s₂ _ => failsWith_bind ?_ fun _ _ _ => failsWith_pure
  · unfold applyPost
    split
    · refine failsWith_bind (failsWith_ask fun _ h => .refused (refuses_of_postLeaving h))
        fun _ _ _ => ?_
      exact failsWith_bind (failsWith_onlyIf fun _ => failsWith_emit) fun _ _ _ => failsWith_pure
    · exact failsWith_ask fun _ h => .refused (refuses_of_post h)
  · unfold checkPost
    split
    · exact failsWith_pure
    · rename_i check hcheck
      split
      · exact failsWith_pure
      · refine failsWith_bind failsWith_emit fun _ _ _ => ?_
        split
        · exact failsWith_pure
        · rename_i hrejects
          exact failsWith_throw (.unsound hcheck (by simpa using hrejects))

/-- An item can be taken up, if the summary by which it steps over a call is there. -/
theorem failsWith_takeUp (h : InFlight id (fun _ => 0) item [] t t)
    (hsummary : ∀ r, item.summary = some r → ∃ post, t.summaries.post? r = some post) :
    FailsWith e.Excused (e.takeUp id item) t := by
  refine failsWith_bind failsWith_emit fun _ t' hemit => ?_
  have ht' := emit_eq_ok.mp hemit
  have hstart : InFlight id (fun _ => 0) item [] t' t' := by
    subst ht'
    exact .start (h.tidy.shift rfl rfl (fun _ => rfl) fun _ => le_rfl) h.get_current
  refine failsWith_bind (failsWith_onlyIf fun _ => failsWith_recordExit hstart) fun _ u hexit => ?_
  have htaken : e.ExitTaken item t' u := by
    rw [onlyIf_eq_ok] at hexit
    split at hexit
    · rename_i hleaves
      exact recordExit_ok hleaves hexit
    · rename_i hstays
      subst hexit
      exact .skipped (.inl (by simpa using hstays))
  obtain ⟨_, -, hflight, -, hsummaries, -⟩ := hstart.exitTaken htaken
  unfold postState
  cases hs : item.summary with
  | none => exact failsWith_interpret _
  | some r =>
    obtain ⟨post, hpost⟩ := hsummary r hs
    refine failsWith_bind failsWith_get fun _ _ hget => ?_
    obtain ⟨rfl, rfl⟩ := get_eq_ok.mp hget
    have hpost' : u.summaries.post? r = some post := by
      rw [hsummaries, ← ht']
      exact hpost
    rw [hpost']
    refine failsWith_bind failsWith_modify fun _ _ hmodify => ?_
    cases modify_eq_ok.mp hmodify
    refine failsWith_bind (failsWith_retain hflight.get_current) fun _ _ _ => ?_
    exact failsWith_bind failsWith_count fun _ _ _ => failsWith_pure

variable [DecidableEq L]

theorem failsWith_isCovered (leaving : Bool) (hcurrent : item.currentLayer.index < u.layers.size)
    (hcaller : item.callerLayer.index < u.layers.size) :
    FailsWith P (e.isCovered item leaving post) u := by
  refine failsWith_bind failsWith_get fun _ _ hget => ?_
  obtain ⟨rfl, rfl⟩ := get_eq_ok.mp hget
  split
  · obtain ⟨r, hr⟩ := Layers.exists_isScopeFixpoint hcurrent item.action post
    exact failsWith_expect hr
  · have hlt : (if leaving then item.callerLayer else item.currentLayer).index < u.layers.size := by
      split
      · exact hcaller
      · exact hcurrent
    obtain ⟨r, hr⟩ := Layers.exists_state? hlt (e.transitions.target item.action)
    exact failsWith_bind (failsWith_expect hr) fun _ _ _ => failsWith_pure

omit [DecidableEq L] [AbstractState S] in
theorem failsWith_dropCovered (h : InFlight id extra item new t u) :
    FailsWith P (e.dropCovered id item) u := by
  refine failsWith_bind failsWith_emit fun _ _ hemit => failsWith_onlyIf fun _ => ?_
  cases emit_eq_ok.mp hemit
  cases item.latestEntry item.action with
  | none => exact failsWith_pure
  | some entry => exact failsWith_subscribe h.logged entry.1

theorem failsWith_bookkeep (h : InFlight id (fun _ => 0) item new t u) :
    FailsWith P (e.bookkeep id item (e.leaves item) post) u := by
  refine failsWith_bind ?_ fun r s₁ hleave => ?_
  · unfold leaveScope
    split
    · refine failsWith_bind failsWith_emit fun _ _ _ => failsWith_bind failsWith_get fun _ _ _ => ?_
      exact failsWith_bind failsWith_modify fun _ _ _ => failsWith_pure
    · exact failsWith_pure
  obtain ⟨outside, stale⟩ := r
  obtain ⟨rfl, rfl, events, rfl⟩ := leaveScope_ok hleave
  refine failsWith_bind ?_ fun tracked s₂ htrack => ?_
  · unfold trackLoop
    dsimp only
    split
    · exact failsWith_bind failsWith_emit fun _ _ _ => failsWith_pure
    · split
      · exact failsWith_bind failsWith_emit fun _ _ _ => failsWith_pure
      · exact failsWith_pure
  obtain ⟨rfl, events', rfl⟩ := trackLoop_ok htrack
  refine failsWith_bind (failsWith_setItem (i := item) (by exact h.get_current) _)
    fun _ s₃ hset => ?_
  obtain ⟨items, hitems, rfl⟩ := setItem_eq_ok.mp hset
  obtain ⟨v, hv⟩ : ∃ v : RunState L A S, v = { u with
    summaries := (e.summarise item post u.summaries).2, events := events', items := items } :=
    ⟨_, rfl⟩
  rw [← hv]
  obtain ⟨hmid, hstale⟩ := h.booked (v := v) e post (by rw [hv]; exact hitems)
    (by rw [hv]; exact ⟨rfl, rfl, rfl⟩)
  exact failsWith_bind (failsWith_requeueAll hmid.tidy hstale) fun _ _ _ => failsWith_pure

omit [DecidableEq L] [AbstractState S] in
theorem failsWith_reportError {action : A} {counterexample : Counterexample L A S}
    (h : Counterexample.ofItem u.items e.transitions.source e.transitions.target id post
      = .ok counterexample) : FailsWith P (e.reportError id action post) u := by
  refine failsWith_bind failsWith_get fun _ _ hget => ?_
  obtain ⟨rfl, rfl⟩ := get_eq_ok.mp hget
  refine failsWith_onlyIf fun _ => failsWith_bind failsWith_modify fun _ _ _ => ?_
  refine failsWith_bind failsWith_emit fun _ _ _ => ?_
  exact failsWith_bind (failsWith_expect h) fun _ _ _ => failsWith_modify

/-- Widening fails only if the domain refuses to widen against the states that are due. -/
theorem failsWith_widen (h : InFlight id (fun _ => 0) item new t u)
    (hlayer : item.currentLayer.index < u.layers.size)
    (hrefused : ∀ older cause, e.widensAgainst item = some older →
      older.widen post e.domain = .error cause → P (.refused cause)) :
    FailsWith P (e.widen id item post) u := by
  unfold widensAgainst at hrefused
  unfold widen
  split
  · rename_i henters
    rw [if_pos henters] at hrefused
    unfold widenEntry
    split
    · rename_i hdeep
      rw [if_pos hdeep] at hrefused
      split
      · exact failsWith_pure
      · rename_i activation snapshot hentry
        rw [hentry] at hrefused
        refine failsWith_bind (failsWith_ask fun cause => hrefused snapshot cause rfl)
          fun _ _ hask => ?_
        obtain ⟨-, rfl⟩ := ask_eq_ok.mp hask
        refine failsWith_bind failsWith_count fun _ _ hcount => ?_
        cases count_eq_ok.mp hcount
        refine failsWith_bind failsWith_emit fun _ _ hemit => ?_
        cases emit_eq_ok.mp hemit
        split
        · refine failsWith_bind failsWith_count fun _ _ hcount => ?_
          cases count_eq_ok.mp hcount
          refine failsWith_bind failsWith_emit fun _ _ hemit => ?_
          cases emit_eq_ok.mp hemit
          refine failsWith_bind failsWith_get fun _ _ hget => ?_
          obtain ⟨rfl, rfl⟩ := get_eq_ok.mp hget
          -- The fixpoint is noted in the layer of the item, which is there.
          obtain ⟨layers, hlayers⟩ :=
            Layers.exists_addScopeFixpoint hlayer item.action snapshot
          refine failsWith_bind (failsWith_expect hlayers) fun _ _ hexpect => ?_
          obtain ⟨-, rfl⟩ := expect_eq_ok.mp hexpect
          refine failsWith_bind failsWith_modify fun _ _ hmodify => ?_
          cases modify_eq_ok.mp hmodify
          exact failsWith_bind (failsWith_subscribe h.logged activation) fun _ _ _ => failsWith_pure
        · exact failsWith_pure
    · exact failsWith_pure
  · rename_i hstays
    rw [if_neg hstays] at hrefused
    unfold widenLoop
    dsimp only
    split
    · exact failsWith_pure
    · rename_i counter snapshot hloop
      rw [hloop] at hrefused
      split
      · rename_i hmany
        refine failsWith_bind (failsWith_ask fun cause => hrefused snapshot cause (if_pos hmany))
          fun _ _ _ => ?_
        refine failsWith_bind failsWith_count fun _ _ _ => failsWith_bind failsWith_emit
          fun _ _ _ => ?_
        split
        · refine failsWith_bind failsWith_count fun _ _ _ => failsWith_bind failsWith_emit
            fun _ _ _ => failsWith_pure
        · exact failsWith_pure
      · exact failsWith_pure

omit [DecidableEq L] [DecidableEq A] [AbstractState S] in
theorem failsWith_enterScope (h : InFlight id (fun _ => 0) item new t u)
    (hlayer : item.currentLayer.index < u.layers.size) :
    FailsWith P (e.enterScope id item post) u := by
  unfold enterScope
  split
  · refine failsWith_bind failsWith_get fun _ _ hget => ?_
    obtain ⟨rfl, rfl⟩ := get_eq_ok.mp hget
    obtain ⟨r, hr⟩ := Layers.exists_create hlayer
    refine failsWith_bind (failsWith_expect hr) fun _ _ hexpect => ?_
    obtain ⟨-, rfl⟩ := expect_eq_ok.mp hexpect
    refine failsWith_bind failsWith_modify fun _ _ hmodify => ?_
    cases modify_eq_ok.mp hmodify
    refine failsWith_bind (failsWith_setItem (i := item) (by exact h.get_current) _) fun _ _ _ => ?_
    refine failsWith_bind failsWith_count fun _ _ _ => failsWith_bind failsWith_emit
      fun _ _ _ => failsWith_pure
  · exact failsWith_pure

omit [DecidableEq A] in
theorem failsWith_store (hlayer : item.currentLayer.index < u.layers.size) :
    FailsWith P (e.store item post) u := by
  refine failsWith_bind failsWith_get fun _ _ hget => ?_
  obtain ⟨rfl, rfl⟩ := get_eq_ok.mp hget
  obtain ⟨previous, hprevious⟩ := Layers.exists_state? hlayer (e.transitions.target item.action)
  refine failsWith_bind (failsWith_expect hprevious) fun _ _ hexpect => ?_
  obtain ⟨-, rfl⟩ := expect_eq_ok.mp hexpect
  refine failsWith_bind failsWith_get fun _ _ hget => ?_
  obtain ⟨rfl, rfl⟩ := get_eq_ok.mp hget
  obtain ⟨r, hr⟩ := Layers.exists_addState hlayer (e.transitions.target item.action) post
  refine failsWith_bind (failsWith_expect hr) fun _ _ _ => ?_
  refine failsWith_bind failsWith_modify fun _ _ _ => failsWith_bind failsWith_count
    fun _ _ _ => ?_
  split
  · exact failsWith_pure
  · split
    · exact failsWith_bind failsWith_emit fun _ _ _ => failsWith_pure
    · exact failsWith_bind failsWith_count fun _ _ _ => failsWith_pure

omit [DecidableEq L] in
theorem failsWith_enqueueSuccessors (h : InFlight id (fun _ => 0) item new t u) :
    FailsWith P (e.enqueueSuccessors id item post) u := by
  refine failsWith_bind ?_ fun successors u' hok => ?_
  · generalize (e.transitions.following item.action item.currentScope).filter _ = actions
    clear h
    induction actions generalizing u with
    | nil => exact failsWith_pure
    | cons action actions ih =>
      rw [List.mapM_cons]
      refine failsWith_bind ?_ fun _ _ _ => failsWith_bind ih fun _ _ _ => failsWith_pure
      refine failsWith_bind failsWith_get fun v _ _ => ?_
      dsimp only
      generalize (if e.options.useSummaries && e.transitions.entersScope action then
        v.summaries.lookup action post else none) = known
      split
      · exact failsWith_bind failsWith_emit fun _ _ _ => failsWith_pure
      · exact failsWith_pure
  · obtain ⟨rfl, events, rfl⟩ := successorItems_ok hok
    have hmid : InFlight id (fun _ => 0) item new t { u with events := events } := h.logged
    refine failsWith_forM (I := fun v => v.Tidy fun j => once id j + 0) hmid.tidy ?_ ?_
    · intro i hi v hv
      obtain ⟨action, -, rfl⟩ := List.mem_map.mp hi
      refine failsWith_enqueued hv fun p hp => ?_
      rw [InFlight.successorOf_predecessor] at hp
      cases hp
      exact hv.live_of_held (by simp only [once_self]; omega)
    · intro i hi v v' hv hok
      obtain ⟨action, -, rfl⟩ := List.mem_map.mp hi
      have hpredecessor := InFlight.successorOf_predecessor e u.summaries id item post action
      obtain ⟨_, hgrows⟩ := (enqueued_of_ok hok).grows hv
        (fun p hp => by
          rw [hpredecessor] at hp
          cases hp
          exact hv.not_pending (by simp only [once_self]; omega))
        (fun _ => by rw [hpredecessor]; rfl)
      exact hgrows.tidy

end Engine

end Interproc
