/-
  Interproc.Proofs.Handover
  ─────────────────────────
  Returns of calls that are not entered.  A call that waits for an activation is handed
  every exit of it: those that are known when the call starts to wait, and later every
  exit that is new or has grown.  An exit covers all states that the activation left its
  scope with, so no return is lost, in whatever order calls and exits turn up.

  Main result: `Engine.returns_of_exits`.
-/
import Mathlib
import Interproc.Proofs.Activations
import Interproc.Proofs.Intervals
import Interproc.Proofs.Summaries

namespace Interproc

variable {L A S : Type}

/-! ## §1. Exits only grow. -/

namespace Exits

variable [DecidableEq L] [AbstractState S] {domain : Domain A S} {options : Options} {t : S}

section Leading

variable [GroundedState S]

/-- A grown exit covers what it covered before, and what it grew by. -/
theorem covers_grow (hlaws : domain.Lawful) {exit : ScopeExit A S} {state : Disjunction S}
    {change : ExitChange A S} (h : grow domain options exit state = .ok change)
    (ht : isBottom t = false) (hcovers : exit.state.Covers t ∨ state.Covers t) :
    change.exit.state.Covers t := by
  have hmerged : (exit.state.merge state options.maxParallelStates).Covers t := by
    obtain hcovers | hcovers := hcovers
    · exact Disjunction.covers_merge_left hcovers ht
    · exact Disjunction.covers_merge_right hcovers ht
  unfold grow at h
  dsimp only at h
  split at h
  · obtain ⟨widened, hwiden, h⟩ := except_bind_eq_ok.mp h
    cases h
    obtain ⟨u, hu, htu⟩ := hmerged
    have hbottom : (exit.state.merge state options.maxParallelStates).isBottom = false := by
      unfold Disjunction.isBottom
      rw [List.all_eq_false]
      exact ⟨u, hu, by rw [Disjunction.not_isBottom_of_below htu ht]; exact Bool.noConfusion⟩
    exact Disjunction.Covers.of_isSubset ⟨u, hu, htu⟩
      (Disjunction.covers_widen hlaws hwiden hbottom).1
  · cases h
    exact hmerged

/-- The exits by an action that cover a state. -/
def Leads (exits : List (ScopeExit A S)) (action : A) (t : S) : Prop :=
  ∃ x ∈ exits, x.action = action ∧ x.state.Covers t

/-- Recording a state keeps what the exits cover, and covers the state. -/
theorem RecordedIn.leads (hlaws : domain.Lawful) {action b : A} {state : Disjunction S}
    {predecessor : Option ItemId} {l l' : List (ScopeExit A S)} {change : Option (ExitChange A S)}
    (h : RecordedIn domain options action state predecessor l change l')
    (ht : isBottom t = false) (hleads : Leads l b t ∨ b = action ∧ state.Covers t) :
    Leads l' b t := by
  cases h with
  | @known l₁ l₂ exit haction hcovered =>
    obtain hleads | ⟨rfl, hcovers⟩ := hleads
    · exact hleads
    · exact ⟨exit, List.mem_append_right _ List.mem_cons_self, haction,
        hcovers.of_isSubset hcovered⟩
  | first =>
    obtain ⟨x, hx, hsame, hcovers⟩ | ⟨rfl, hcovers⟩ := hleads
    · exact ⟨x, List.mem_append_left _ hx, hsame, hcovers⟩
    · exact ⟨_, List.mem_append_right _ List.mem_cons_self, rfl, hcovers⟩
  | @grown l₁ l₂ exit change haction hgrow =>
    have hsame := (grow_ok hgrow).2.1
    obtain ⟨x, hx, hb, hcovers⟩ | ⟨rfl, hcovers⟩ := hleads
    · obtain hx | hx := List.mem_append.mp hx
      · exact ⟨x, List.mem_append_left _ hx, hb, hcovers⟩
      · obtain rfl | hx := List.mem_cons.mp hx
        · exact ⟨change.exit, List.mem_append_right _ List.mem_cons_self, hsame.trans hb,
            covers_grow hlaws hgrow ht (.inl hcovers)⟩
        · exact ⟨x, List.mem_append_right _ (List.mem_cons_of_mem _ hx), hb, hcovers⟩
    · exact ⟨change.exit, List.mem_append_right _ List.mem_cons_self, hsame.trans haction,
        covers_grow hlaws hgrow ht (.inr hcovers)⟩

end Leading

theorem RecordedIn.mem_cases {action : A} {state : Disjunction S} {predecessor : Option ItemId}
    {l l' : List (ScopeExit A S)} {change : Option (ExitChange A S)} {x : ScopeExit A S}
    (h : RecordedIn domain options action state predecessor l change l') (hx : x ∈ l') :
    x ∈ l ∨ ∃ change', change = some change' ∧ x = change'.exit := by
  cases h with
  | known => exact .inl hx
  | first =>
    obtain hx | hx := List.mem_append.mp hx
    · exact .inl hx
    · exact .inr ⟨_, rfl, List.mem_singleton.mp hx⟩
  | grown =>
    obtain hx | hx := List.mem_append.mp hx
    · exact .inl (List.mem_append_left _ hx)
    · obtain hx | hx := List.mem_cons.mp hx
      · exact .inr ⟨_, rfl, hx⟩
      · exact .inl (List.mem_append_right _ (List.mem_cons_of_mem _ hx))

/-- There is one exit for each action. -/
theorem RecordedIn.nodup {action : A} {state : Disjunction S} {predecessor : Option ItemId}
    {l l' : List (ScopeExit A S)} {change : Option (ExitChange A S)}
    (h : RecordedIn domain options action state predecessor l change l')
    (hl : (l.map ScopeExit.action).Nodup) : (l'.map ScopeExit.action).Nodup := by
  cases h with
  | known => exact hl
  | first hnew =>
    rw [List.map_append, List.nodup_append]
    refine ⟨hl, List.nodup_singleton _, fun a ha b hb hab => ?_⟩
    obtain ⟨x, hx, rfl⟩ := List.mem_map.mp ha
    exact hnew x hx (hab.trans (List.mem_singleton.mp hb))
  | grown haction hgrow =>
    rw [List.map_append, List.map_cons] at hl ⊢
    rw [(grow_ok hgrow).2.1]
    exact hl

/-- An exit that grows has no bottoms. -/
theorem proper_grow {exit : ScopeExit A S} {state : Disjunction S} {change : ExitChange A S}
    (h : grow domain options exit state = .ok change) (hexit : exit.state.Proper) :
    change.exit.state.Proper := by
  unfold grow at h
  dsimp only at h
  split at h
  · obtain ⟨widened, hwiden, h⟩ := except_bind_eq_ok.mp h
    cases h
    exact Disjunction.proper_widen hwiden (Disjunction.proper_merge hexit _ _) fun _ => hexit
  · cases h
    exact Disjunction.proper_merge hexit _ _

theorem RecordedIn.proper {action : A} {state : Disjunction S} {predecessor : Option ItemId}
    {l l' : List (ScopeExit A S)} {change : Option (ExitChange A S)}
    (h : RecordedIn domain options action state predecessor l change l') (hstate : state.Proper)
    (hl : ∀ x ∈ l, x.state.Proper) : ∀ x ∈ l', x.state.Proper := by
  intro x hx
  cases h with
  | known => exact hl x hx
  | first =>
    obtain hx | hx := List.mem_append.mp hx
    · exact hl x hx
    · rw [List.mem_singleton.mp hx]
      exact hstate
  | @grown l₁ l₂ exit _ _ hgrow =>
    obtain hx | hx := List.mem_append.mp hx
    · exact hl x (List.mem_append_left _ hx)
    · obtain rfl | hx := List.mem_cons.mp hx
      · exact proper_grow hgrow (hl exit (List.mem_append_right _ List.mem_cons_self))
      · exact hl x (List.mem_append_right _ (List.mem_cons_of_mem _ hx))

end Exits

/-- The item is on the worklist. -/
def RunState.Waits (s : RunState L A S) (item : Item L A S) : Prop :=
  ∃ j ∈ s.pending, s.items.get j = .ok item

/-- What a pass adds is on the worklist. -/
theorem Frame.waits_of_mem {s s' : RunState L A S} {id : ItemId} {final i : Item L A S}
    {added : List (ItemId × Item L A S)} {new : List (Item L A S)}
    (h : Frame id final added s s') (hadded : added.map Prod.snd = new) (hi : i ∈ new) :
    s'.Waits i := by
  rw [← hadded] at hi
  obtain ⟨⟨j, i⟩, hmem, rfl⟩ := List.mem_map.mp hi
  exact ⟨j, h.mem_pending_of_new hmem, h.created _ hmem⟩

namespace Engine

variable [DecidableEq A] [AbstractState S]
variable {e : Engine L A S} {s s' v : RunState L A S} {id : ItemId} {item final : Item L A S}
variable {post : Disjunction S} {layer : LayerId} {starts : List L}
variable {exits : Exits A S} {summaries : Summaries A S} {handed new : List (Item L A S)}

section Growth

variable [GroundedState S]

theorem ExitPart.leads (hlaws : e.domain.Lawful) (h : e.ExitPart item s exits handed) {b : A}
    {t : S} (ht : isBottom t = false)
    (hleads : Exits.Leads (s.exits.activation layer).exits b t) :
    Exits.Leads (exits.activation layer).exits b t := by
  obtain hsame | ⟨-, -, -, -, -, _, hin⟩ := h.activation_cases layer
  · rw [hsame]
    exact hleads
  · exact hin.leads hlaws ht (.inl hleads)

/-- The exit that an item takes covers the state that it takes it with. -/
theorem ExitPart.leads_item (hlaws : e.domain.Lawful) (h : e.ExitPart item s exits handed)
    (hleaves : e.leaves item = true) (hreturned : item.returned = false) {t : S}
    (ht : t ∈ item.pre.states) (hbottom : isBottom t = false) :
    Exits.Leads (exits.activation item.currentLayer).exits item.action t := by
  have hcovers := Disjunction.covers_of_mem ht
  cases h with
  | skipped hskip =>
    obtain hskip | hskip | hskip := hskip
    · rw [hleaves] at hskip
      cases hskip
    · rw [hreturned] at hskip
      cases hskip
    · rw [Disjunction.isBottom_iff.mp hskip t ht] at hbottom
      cases hbottom
  | known _ _ _ hrecord =>
    exact (Exits.record_ok hrecord).1.leads hlaws hbottom (.inr ⟨rfl, hcovers⟩)
  | grown _ _ _ hrecord =>
    exact (Exits.record_ok hrecord).1.leads hlaws hbottom (.inr ⟨rfl, hcovers⟩)

variable [DecidableEq L]

/-- What the exits of an activation cover, they cover after every pass. -/
theorem Pass.leads (hlaws : e.domain.Lawful) (h : e.Pass id item post final s s') {b : A} {t : S}
    (ht : isBottom t = false) (hleads : Exits.Leads (s.exits.activation layer).exits b t) :
    Exits.Leads (s'.exits.activation layer).exits b t := by
  cases h with
  | intro _ _ hexit _ hend =>
    rw [hend.calls_mem.1]
    exact hexit.leads hlaws ht hleads

end Growth

/-- An activation is left by each action through one exit. -/
def Distinct (m : Exits A S) : Prop :=
  ∀ layer, ((m.activation layer).exits.map ScopeExit.action).Nodup

theorem ExitPart.distinct (h : e.ExitPart item s exits handed) (hs : Distinct s.exits) :
    Distinct exits := by
  intro layer
  obtain hsame | ⟨-, -, -, -, -, _, hin⟩ := h.activation_cases layer
  · rw [hsame]
    exact hs layer
  · exact hin.nodup (hs layer)

variable [DecidableEq L]

theorem Distinct.pass (h : Distinct s.exits) (hpass : e.Pass id item post final s s') :
    Distinct s'.exits := by
  cases hpass with
  | intro _ _ hexit _ hend =>
    intro layer
    rw [hend.calls_mem.1]
    exact hexit.distinct h layer

/-! ## §2. States without bottoms. -/

/-- No state that an item, an exit or a summary holds is bottom. -/
structure Clean (s : RunState L A S) : Prop where
  items : ∀ j i, s.items.get j = .ok i → i.pre.Proper
  exits : ∀ layer, ∀ x ∈ (s.exits.activation layer).exits, x.state.Proper
  posts : s.summaries.AllPosts Disjunction.Proper

theorem proper_of_evaluate (h : e.evaluate item = .ok post) : post.Proper :=
  (normal_of_evaluate h).proper

theorem PostPart.proper (h : e.PostPart id item s post summaries) (hs : Clean s) :
    post.Proper := by
  cases h with
  | interpreted _ hpost => exact proper_of_evaluate hpost
  | summarised _ hpost => exact hs.posts.post? hpost

theorem WidenedTo.proper {widened : Disjunction S} (h : e.WidenedTo item post widened s s')
    (hbottom : post.isBottom = false) (hpost : post.Proper) : widened.Proper := by
  obtain ⟨-, rfl⟩ | ⟨older, -, hwiden, -⟩ := h
  · exact hpost
  · refine Disjunction.proper_widen hwiden hpost fun hpost => ?_
    rw [hbottom] at hpost
    cases hpost

theorem Stores.proper {widened : Disjunction S} (h : e.Stores item post final widened s s')
    (hpost : post.Proper) : widened.Proper :=
  h.2.1.proper h.1 hpost

omit [DecidableEq L] in
theorem ExitPart.proper (h : e.ExitPart item s exits handed) (hpre : item.pre.Proper)
    (hs : ∀ layer, ∀ x ∈ (s.exits.activation layer).exits, x.state.Proper) :
    ∀ layer, ∀ x ∈ (exits.activation layer).exits, x.state.Proper := by
  intro layer
  obtain hsame | ⟨-, -, -, -, -, _, hin⟩ := h.activation_cases layer
  · rw [hsame]
    exact hs layer
  · exact hin.proper hpre (hs layer)

theorem Clean.pass (h : Clean s) (hpass : e.Pass id item post final s s') : Clean s' := by
  cases hpass with
  | @intro worklist exits summaries handed new added hpop hget hexit hpost hend hadded hframe =>
    have hproper := hpost.proper h
    have hexits := hexit.proper (h.items id item hget) h.exits
    refine ⟨fun j i hi => ?_, fun layer x hx => ?_, ?_⟩
    · obtain hmem | hmem | ⟨rfl, rfl⟩ | hold := hframe.live_cases hadded hi
      · obtain ⟨_, -, x, hx, _, -, rfl⟩ := hexit.handed_eq hmem
        exact hexits _ x hx
      · obtain ⟨k, stale, p, q, hstale, -, -, -, rfl⟩ | ⟨layer, x, _, hx, -, -, -, rfl⟩ |
          ⟨widened, hstores, action, -, rfl⟩ := hend.mem_new hmem
        · exact h.items k stale hstale
        · exact hexits layer x hx
        · obtain ⟨_, _, hshape⟩ := e.successorOf_eq s'.summaries id final widened action
          rw [hshape]
          exact hstores.proper hproper
      · obtain ⟨scopes, loops, hshape⟩ := hend.final_eq
        rw [hshape]
        exact h.items j item hget
      · exact h.items j i hold
    · rw [hend.calls_mem.1] at hx
      exact hexits layer x hx
    · exact allPosts_pass hpost hend (fun _ _ hd _ => Disjunction.proper_merge hd _ _) h.posts
        hproper

theorem Clean.seed (h : Clean s) {location : L} {action : A}
    (hseed : e.SeedPart location action s s') : Clean s' := by
  obtain ⟨state, _, _, _, -, -, hgrows⟩ := hseed
  refine ⟨fun j i hi => ?_, ?_, ?_⟩
  · obtain ⟨rfl, rfl⟩ | ⟨hold, -⟩ := hgrows.old_singleton hi
    · exact Disjunction.proper_single state
    · exact h.items j i hold
  · rw [hgrows.unmoved.exits]
    exact h.exits
  · rw [hgrows.unmoved.summaries]
    exact h.posts

omit [DecidableEq L] in
theorem Clean.start : Clean (.start e.options : RunState L A S) := by
  refine ⟨?_, ?_, ?_⟩
  · intro j i hi
    cases hi
  · intro layer x hx
    cases hx
  · intro call summary hsummary
    cases hsummary

theorem Reachable.clean (h : e.Reachable starts s) : Clean s :=
  (h.induct .start (fun _ _ _ _ _ _ _ hseed hs => hs.seed hseed)
    fun _ _ _ _ _ _ _ _ hpass hclean => hclean.pass hpass).2

/-! ## §3. Calls that wait. -/

omit [DecidableEq L] in
/-- An exit that changes is handed to every call that waits for it. -/
theorem ExitPart.handed_all (h : e.ExitPart item s exits handed) (layer : LayerId)
    {x : ScopeExit A S} (hx : x ∈ (exits.activation layer).exits) :
    x ∈ (s.exits.activation layer).exits ∨ ∀ k ∈ (s.exits.activation layer).calls, ∀ c,
      s.items.get k = .ok c →
        Item.returning x.state x.action x.predecessor c layer ∈ handed := by
  cases h with
  | skipped _ hexits =>
    rw [hexits] at hx
    exact .inl hx
  | known _ _ _ hrecord =>
    obtain ⟨hin, -, hother⟩ := Exits.record_ok hrecord
    by_cases hlayer : item.currentLayer = layer
    · subst hlayer
      obtain hx | ⟨_, hsome, -⟩ := hin.mem_cases hx
      · exact .inl hx
      · cases hsome
    · rw [hother layer hlayer] at hx
      exact .inl hx
  | @grown change _ _ _ hrecord hhanded =>
    obtain ⟨hin, hcalls, hother⟩ := Exits.record_ok hrecord
    by_cases hlayer : item.currentLayer = layer
    · subst hlayer
      obtain hx | ⟨_, hsome, rfl⟩ := hin.mem_cases hx
      · exact .inl hx
      · cases hsome
        refine .inr fun k hk c hget => ?_
        rw [← hcalls] at hk
        obtain ⟨i, hi, callItem, hcallItem, rfl⟩ := exists_of_forall₂ hhanded.flip hk
        rw [hget] at hcallItem
        cases hcallItem
        exact hi
    · rw [hother layer hlayer] at hx
      exact .inl hx

/-- A call that starts to wait is handed the exits that are known. -/
theorem EndPart.subscribed (h : e.EndPart id item post s exits summaries final new s') :
    s'.exits = exits ∨ ∃ layer, post.isBottom = false ∧
      e.transitions.entersScope item.action = true ∧ s'.exits = exits.subscribe layer id ∧
      ∀ x ∈ (exits.activation layer).exits,
        Item.returning x.state x.action x.predecessor final layer ∈ new := by
  cases h with
  | infeasible _ _ _ _ hexits => exact .inl hexits
  | covered _ _ _ _ _ _ hexits => exact .inl hexits
  | coveredCall hpost _ henters _ hfinal hnew _ hexits =>
    refine .inr ⟨_, hpost, henters, hexits, fun x hx => ?_⟩
    rw [hnew, hfinal]
    exact List.mem_map_of_mem hx
  | loopFixpoint _ _ _ _ _ _ _ _ _ _ _ hexits => exact .inl hexits
  | entryFixpoint hpost _ _ henters _ _ _ _ _ hfinal _ hnew _ hexits =>
    refine .inr ⟨_, hpost, henters, hexits, fun x hx => ?_⟩
    rw [hnew, hfinal]
    exact List.mem_append_right _ (List.mem_map_of_mem hx)
  | stored _ _ _ _ _ _ _ _ _ _ hexits => exact .inl hexits

/-- Every exit of an activation was handed, as it is, to every call that waits for it; `W` holds
the items that were on the worklist. -/
def Informed (W : Set (Item L A S)) (s : RunState L A S) : Prop :=
  ∀ layer, ∀ k ∈ (s.exits.activation layer).calls, ∀ c, s.items.get k = .ok c →
    ∀ x ∈ (s.exits.activation layer).exits,
      Item.returning x.state x.action x.predecessor c layer ∈ W

theorem Informed.pass {W W' : Set (Item L A S)} (hs : e.Orderly s) (hs' : e.Orderly s')
    (h : Informed W s) (hpass : e.Pass id item post final s s') (hW : W ⊆ W')
    (hnew : ∀ i, s'.Waits i → i ∈ W') : Informed W' s' := by
  have hpass' := hpass
  cases hpass with
  | @intro worklist exits summaries handed new added hpop hget hexit hpost hend hadded hframe =>
    have hid : id ∈ s.pending := Worklist.mem_of_pop hpop
    have hadded' : ∀ i ∈ handed ++ new, i ∈ W' := fun i hi =>
      hnew i (hframe.waits_of_mem hadded hi)
    intro layer k hcall c hk x hx
    rw [hend.calls_mem.1] at hx
    have hold : k ∈ (exits.activation layer).calls →
        Item.returning x.state x.action x.predecessor c layer ∈ W' := by
      intro hcall
      rw [hexit.exits_mem.1] at hcall
      have hheld := Exits.held_pos_of_call hcall
      obtain ⟨c', hc'⟩ := hs.tidy.live_of_held (j := k) (by omega)
      rw [hpass'.get_call hs hs' hcall hc'] at hk
      cases hk
      obtain hx | hall := hexit.handed_all layer hx
      · exact hW (h layer k hcall c hc' x hx)
      · exact hadded' _ (List.mem_append_left _ (hall k hcall c hc'))
    -- The only call that may start to wait is the item itself, and all exits are handed to it.
    obtain hexits | ⟨layer', -, -, hexits, hreturning⟩ := hend.subscribed
    · exact hold (by rw [← hexits]; exact hcall)
    · have hfinal := fun hkid : k = id => hpass'.get_waiting hs' (hkid ▸ hcall)
      rw [hexits, Exits.activation_subscribe] at hcall
      split at hcall
      · rename_i hlayer
        subst hlayer
        obtain hcall | hcall := List.mem_append.mp hcall
        · exact hold hcall
        · have hkid := List.mem_singleton.mp hcall
          rw [hkid, hfinal hkid] at hk
          cases hk
          exact hadded' _ (List.mem_append_right _ (hreturning x hx))
      · exact hold hcall

/-! ## §4. No return is lost. -/

/-- What the start leaves untouched while actions are seeded. -/
structure Pristine (s : RunState L A S) : Prop where
  exits : s.exits = {}
  summaries : s.summaries = {}
  size : s.layers.size = 1

theorem pristine_of_seed {starts : List L} (h : e.seed starts (.start e.options) = .ok () s) :
    Pristine s := by
  refine (seed_induct (P := Pristine) ⟨rfl, rfl, rfl⟩ ?_ h).2
  intro l _ a _ t t' _ hseed ht
  obtain ⟨state, stored, layers, id, -, hadd, hgrows⟩ := hseed
  refine ⟨hgrows.unmoved.exits.trans ht.exits, hgrows.unmoved.summaries.trans ht.summaries, ?_⟩
  rw [hgrows.unmoved.layers]
  exact (Layers.addState_ok hadd).size_eq.trans ht.size

omit [DecidableEq A] in
/-- Before the first pass there are items at starts only. -/
theorem initial_of_seed {starts : List L} (h : e.seed starts (.start e.options) = .ok () s) :
    ∀ j i, s.items.get j = .ok i → ∃ action pre, i = .initial action pre Layers.root := by
  refine (seed_induct (P := fun s => ∀ j i, s.items.get j = .ok i →
    ∃ action pre, i = .initial action pre Layers.root) (fun j i hi => by cases hi) ?_ h).2
  intro l _ a _ t t' _ hseed ht j i hi
  obtain ⟨state, _, _, _, -, -, hgrows⟩ := hseed
  obtain ⟨rfl, rfl⟩ | ⟨hold, -⟩ := hgrows.old_singleton hi
  · exact ⟨a, _, rfl⟩
  · exact ht j i hold

variable (e) in
/-- The item was on the worklist at some time before a state of a computation. -/
def HasWaited (starts : List L) (s : RunState L A S) (i : Item L A S) : Prop :=
  ∃ t, e.Reachable starts t ∧ e.Later t s ∧ t.Waits i

theorem Reachable.informed (h : e.Reachable starts s) :
    Informed { i | e.HasWaited starts s i } s := by
  induction h with
  | seeded hseed =>
    intro layer k hcall
    rw [(pristine_of_seed hseed).exits] at hcall
    cases hcall
  | @iterated s s' hs hiterate ih =>
    have hordered := hs.orderly
    obtain ⟨hordered', id, item, post, final, hpass⟩ := hordered.pass hiterate
    refine ih.pass hordered hordered' hpass (fun i hi => ?_) fun i hi => ?_
    · obtain ⟨t, ht, hlater, hwaits⟩ := hi
      exact ⟨t, ht, hlater.next hiterate, hwaits⟩
    · exact ⟨s', hs.iterated hiterate, .refl, hi⟩

theorem Reachable.distinct (h : e.Reachable starts s) : Distinct s.exits := by
  refine (h.induct (P := fun s => Distinct s.exits) (fun _ => List.nodup_nil) ?_ ?_).2
  · intro _ _ _ _ t t' _ hseed ht
    obtain ⟨_, _, _, _, -, -, hgrows⟩ := hseed
    rw [hgrows.unmoved.exits]
    exact ht
  · exact fun _ _ _ _ _ _ _ _ hpass hdistinct => hdistinct.pass hpass

variable [GroundedState S]

/-- The exit that an item takes covers the states that it takes it with, after the pass over the
item and ever since. -/
theorem leads_of_pass (hlaws : e.domain.Lawful) (h : e.Orderly s) {worklist : Worklist}
    (hpop : s.worklist.pop = some (id, worklist)) (hget : s.items.get id = .ok item)
    (hleaves : e.leaves item = true) (hreturned : item.returned = false)
    (hiterate : e.iterate s = .ok true s') (hlater : e.Later s' v) {t : S}
    (ht : t ∈ item.pre.states) (hbottom : isBottom t = false) :
    Exits.Leads (v.exits.activation item.currentLayer).exits item.action t := by
  obtain ⟨hordered, id', item', post, final, hpass⟩ := h.pass hiterate
  have hafter : Exits.Leads (s'.exits.activation item.currentLayer).exits item.action t := by
    cases hpass with
    | intro hpop' hget' hexit _ hend =>
      rw [hpop] at hpop'
      cases hpop'
      rw [hget] at hget'
      cases hget'
      rw [hend.calls_mem.1]
      exact hexit.leads_item hlaws hleaves hreturned ht hbottom
  refine (hlater.preserves (P := fun u => e.Orderly u ∧
    Exits.Leads (u.exits.activation item.currentLayer).exits item.action t)
    (fun u u' hstep hu => ?_) ⟨hordered, hafter⟩).2
  obtain ⟨hu', _, _, _, _, hpass⟩ := hu.1.pass hstep
  exact ⟨hu', hpass.leads hlaws hbottom hu.2⟩

/-- No return is lost, in whatever order calls start to wait and exits are taken.  An item that
leaves a scope is covered by the exit it takes, from the pass over it on.  Every exit, as it is now,
was on the worklist as a return to every call that waits for it.  There is one exit for each
action by which a layer is left. -/
theorem returns_of_exits (hlaws : e.domain.Lawful) (h : e.Reachable starts s) :
    (∀ id worklist item s' v, s.worklist.pop = some (id, worklist) →
      s.items.get id = .ok item → e.leaves item = true → item.returned = false →
      item.pre.isBottom = false → e.iterate s = .ok true s' → e.Later s' v →
      ∃ x ∈ (v.exits.activation item.currentLayer).exits, x.action = item.action ∧
        item.pre.isSubset x.state = true) ∧
    (∀ m, ∀ c ∈ (s.exits.activation m).calls, ∃ call, s.items.get c = .ok call ∧
      ∀ x ∈ (s.exits.activation m).exits,
        e.HasWaited starts s (.returning x.state x.action x.predecessor call m)) ∧
    ∀ m, ((s.exits.activation m).exits.map ScopeExit.action).Nodup := by
  refine ⟨?_, fun m c hc => ?_, h.distinct⟩
  · intro id worklist item s' v hpop hget hleaves hreturned hpre hiterate hlater
    have hleads := fun t ht => leads_of_pass hlaws h.orderly hpop hget hleaves hreturned hiterate
      hlater ht (h.clean.items id item hget t ht)
    obtain ⟨t, ht, -⟩ := Disjunction.exists_of_not_isBottom hpre
    obtain ⟨x, hx, haction, -⟩ := hleads t ht
    refine ⟨x, hx, haction, Disjunction.isSubset_iff.mpr fun t ht => ?_⟩
    -- All disjuncts are covered by the same exit, since there is only one for the action.
    obtain ⟨y, hy, haction', hcovers⟩ := hleads t ht
    have hdistinct := (hlater.reachable (h.iterated hiterate)).distinct item.currentLayer
    rw [List.inj_on_of_nodup_map hdistinct hx hy (haction.trans haction'.symm)]
    exact hcovers
  · have hheld := Exits.held_pos_of_call hc
    obtain ⟨call, hcall⟩ := h.orderly.tidy.live_of_held (j := c) (by omega)
    exact ⟨call, hcall, h.informed m c hc call hcall⟩

/-- A procedure that adds to what it returns with whenever it calls itself. -/
def climbing : Program Statement := .ofAdditions
  [.procedure "f", .node "f", .node "f", .internal 0 1 (.assign "x" 0), .internal 0 2 .nop,
    .call 2 3 "f" .nop, .internal 3 1 (.add "x" 1)]

/-- The interval analysis of `climbing`, which has no loops. -/
def climbingIntervals : Engine Nat (Transition Statement) IntervalState :=
  climbing.intervals ⟨.empty⟩ ⟨1, 1, .fifo, false, Nat.one_pos, Nat.one_pos⟩

set_option maxRecDepth 100000 in
/-- The thirteenth item lets the exit grow for the second time, after a call started to wait. -/
theorem returns_of_exits_climbing : ∃ s s' id worklist item call x,
    climbingIntervals.stateAfter [2] 12 = some s ∧ s.worklist.pop = some (id, worklist) ∧
    s.items.get id = .ok item ∧ climbingIntervals.leaves item = true ∧ item.returned = false ∧
    item.pre.isBottom = false ∧ climbingIntervals.iterate s = .ok true s' ∧
    (∃ y ∈ (s'.exits.activation item.currentLayer).exits, y.action = item.action ∧
      item.pre.isSubset y.state = true) ∧
    ⟨6⟩ ∈ (s'.exits.activation ⟨1⟩).calls ∧ s'.items.get ⟨6⟩ = .ok call ∧
    x ∈ (s'.exits.activation ⟨1⟩).exits ∧ x.growths = 2 ∧
    climbingIntervals.HasWaited [2] s' (.returning x.state x.action x.predecessor call ⟨1⟩) := by
  have hcheck : (climbingIntervals.stateAfter [2] 12).any (climbingIntervals.processesNext
      fun item _ => climbingIntervals.leaves item = true ∧ item.returned = false ∧
        item.pre.isBottom = false) = true := by
    decide +kernel
  have hcheck' : (climbingIntervals.stateAfter [2] 13).any (fun s =>
      decide (⟨6⟩ ∈ (s.exits.activation ⟨1⟩).calls) &&
      (s.exits.activation ⟨1⟩).exits.any fun x => x.growths = 2) = true := by
    decide +kernel
  obtain ⟨s, hs, hreachable, hnext⟩ := exists_of_stateAfter hcheck
  obtain ⟨s', hs', hreachable', hexits⟩ := exists_of_stateAfter hcheck'
  obtain ⟨t, ht, hiterate⟩ := iterate_of_stateAfter hs'
  rw [hs] at ht
  cases ht
  obtain ⟨id, worklist, item, _, _, _, hpop, hget, -, -, hfacts⟩ := exists_of_processesNext hnext
  obtain ⟨hleaves, hreturned, hpre⟩ := of_decide_eq_true hfacts
  rw [Bool.and_eq_true, decide_eq_true_iff, List.any_eq_true] at hexits
  obtain ⟨hcall, x, hx, hgrowths⟩ := hexits
  obtain ⟨hcovered, -⟩ := returns_of_exits IntervalState.domain_lawful hreachable
  obtain ⟨-, hhanded, -⟩ := returns_of_exits IntervalState.domain_lawful hreachable'
  obtain ⟨call, hget', hwaited⟩ := hhanded _ _ hcall
  exact ⟨s, s', id, worklist, item, call, x, hs, hpop, hget, hleaves, hreturned, hpre, hiterate,
    hcovered id worklist item s' s' hpop hget hleaves hreturned hpre hiterate .refl, hcall, hget',
    hx, of_decide_eq_true hgrowths, hwaited x hx⟩

end Engine

end Interproc
