/-
  Interproc.Proofs.Origins
  ────────────────────────
  Where everything comes from that is there after a pass: the live items, the
  calls that wait, the exits and the stored states.  A property of all items is
  then proved once per origin, and a property of single states that the steps of
  the engine keep holds throughout.

  Main result: `Engine.Reachable.sustained` — what evaluating, merging and
  widening keep holds of every state of a computation.
-/
import Mathlib
import Interproc.Proofs.Accounting

namespace Interproc

variable {L A S : Type} [DecidableEq L]

namespace Engine

variable {e : Engine L A S} {s s' : RunState L A S} {id j : ItemId} {item final i : Item L A S}
variable {post widened : Disjunction S} {layer : LayerId} {starts : List L}
variable {exits : Exits A S} {summaries : Summaries A S} {handed new : List (Item L A S)}

/-! ## §1. The item in flight. -/

theorem mem_scopes_advanced {scope : Scope A S} (h : scope ∈ (e.advanced item).scopes) :
    scope ∈ item.scopes := by
  obtain ⟨loops, hadvanced⟩ := e.advanced_eq item
  rw [hadvanced] at h
  dsimp only at h
  split at h
  · exact List.mem_of_mem_tail h
  · exact h

omit [DecidableEq L] in
theorem mem_loops_outside {l : ActiveLoop L S} (h : l ∈ (e.outside item).loops) :
    l ∈ item.loops := by
  obtain hsame | ⟨scope, outer, -, hout⟩ := e.outside_cases item
  · rw [hsame] at h
    exact h
  · rw [hout] at h
    exact List.mem_of_mem_take h

/-- A loop that is active once an item was brought up to date was active before, or was entered at
the source of the item's action. -/
theorem mem_loops_advanced {l : ActiveLoop L S} (h : l ∈ (e.advanced item).loops) :
    l ∈ item.loops ∨ l.head = e.transitions.source item.action ∧ l.snapshot = item.pre := by
  obtain ⟨loops, hout⟩ := e.outside_eq item
  have haction : (e.outside item).action = item.action := by rw [hout]
  have hpre : (e.outside item).pre = item.pre := by rw [hout]
  unfold advanced track at h
  split at h
  · rw [Item.enterLoop_eq] at h
    obtain h | h := List.mem_append.mp h
    · exact .inl (mem_loops_outside (List.mem_of_mem_take h))
    · obtain h | h := List.mem_append.mp h
      · refine .inl (mem_loops_outside (e := e) ?_)
        exact List.mem_of_mem_drop ((List.takeWhile_sublist _).subset h)
      · rw [List.mem_singleton.mp h, ← haction, ← hpre]
        exact .inr ⟨rfl, rfl⟩
  · split at h
    · rw [Item.leaveLoop_eq] at h
      obtain h | h := List.mem_append.mp h
      · exact .inl (mem_loops_outside (List.mem_of_mem_take h))
      · exact .inl (mem_loops_outside (List.mem_of_mem_drop (List.mem_of_mem_dropLast h)))
    · exact .inl (mem_loops_outside h)

variable [DecidableEq A]

/-- States are widened against the snapshot of an active loop at the target, or against the entry
of a scope that the same action entered. -/
theorem widensAgainst_cases {older : Disjunction S} (h : e.widensAgainst item = some older) :
    (∃ l ∈ item.loops, l.head = e.transitions.target item.action ∧ l.snapshot = older) ∨
      ∃ scope ∈ item.scopes, scope.action = item.action ∧ scope.entry = older := by
  cases hkind : e.transitions.entersScope item.action with
  | false =>
    obtain ⟨l, hl, hhead, hsnapshot, -⟩ := widensAgainst_loop hkind h
    exact .inl ⟨l, List.mem_of_mem_drop hl, hhead, hsnapshot⟩
  | true =>
    unfold widensAgainst at h
    rw [hkind, if_pos rfl] at h
    split at h
    · obtain ⟨⟨layer, entry⟩, hentry, rfl⟩ := Option.map_eq_some_iff.mp h
      obtain ⟨scope, hscope, haction, -, hstate⟩ := Item.latestEntry_mem hentry
      exact .inr ⟨scope, hscope, haction, hstate⟩
    · cases h

/-! ## §2. Origins. -/

variable [AbstractState S]

variable (e) in
/-- Where a live item after a pass comes from. -/
inductive Origin (id : ItemId) (item : Item L A S) (post : Disjunction S) (final : Item L A S)
    (s s' : RunState L A S) (j : ItemId) : Item L A S → Prop where
  | returned {layer : LayerId} {x : ScopeExit A S} {c : ItemId} {call : Item L A S}
      (hexit : x ∈ (s'.exits.activation layer).exits)
      (hcall : c ∈ (s'.exits.activation layer).calls) (hget : s'.items.get c = .ok call) :
      Origin id item post final s s' j (.returning x.state x.action x.predecessor call layer)
  | redone {k p : ItemId} {stale q : Item L A S} (hstale : s.items.get k = .ok stale)
      (hp : stale.predecessor = some p) (hq : s.items.get p = .ok q)
      (hsummary : stale.summary.isSome) :
      Origin id item post final s s' j
        { Item.successor stale.pre stale.action p q with summary := stale.summary }
  | successor {widened : Disjunction S} {action : A}
      (hstores : e.Stores item post final widened s s') (hmem : action ∈ e.goesOn final) :
      Origin id item post final s s' j (e.successorOf s'.summaries id final widened action)
  | final (hj : j = id) (hsettled : j ∉ s'.pending) : Origin id item post final s s' j final
  | old {i : Item L A S} (hne : j ≠ id) (hold : s.items.get j = .ok i)
      (hpending : j ∈ s'.pending → j ∈ s.pending) : Origin id item post final s s' j i

/-- Every live item after a pass comes from somewhere. -/
theorem Pass.origin (hs : e.Orderly s) (hs' : e.Orderly s')
    (hpass : e.Pass id item post final s s') (hi : s'.items.get j = .ok i) :
    e.Origin id item post final s s' j i := by
  have hpass' := hpass
  cases hpass with
  | @intro worklist exits summaries handed new added hpop hget hexit hpost hend hadded hframe =>
    have hexits := hend.calls_mem.1
    obtain hmem | ⟨hj, rfl, hsettled⟩ | ⟨hne, hold, hpending⟩ := hframe.old j i hi
    · have hmem' : i ∈ added.map Prod.snd := List.mem_map_of_mem (f := Prod.snd) hmem
      rw [hadded] at hmem'
      obtain hhand | hnew := List.mem_append.mp hmem'
      · obtain ⟨c, hc, x, hx, call, hcall, rfl⟩ := hexit.handed_eq hhand
        rw [hexit.exits_mem.1] at hc
        exact .returned (by rw [hexits]; exact hx) (hpass'.calls_mono hc)
          (hpass'.get_call hs hs' hc hcall)
      · obtain ⟨k, stale, p, q, hstale, hp, hq, hsummary, rfl⟩ |
          ⟨layer, x, entry, hx, henters, hentry, hcall, rfl⟩ |
          ⟨widened, hstores, action, haction, rfl⟩ := hend.mem_new hnew
        · exact .redone hstale hp hq hsummary
        · exact .returned (by rw [hexits]; exact hx) hcall (hpass'.get_waiting hs' hcall)
        · exact .successor hstores haction
    · exact .final hj hsettled
    · exact .old hne hold hpending

/-- A call that waits after a pass waited before, or is the item that was processed and has
entered its scope further up. -/
theorem Pass.call_cases (hs : e.Orderly s) (hs' : e.Orderly s')
    (hpass : e.Pass id item post final s s') {c : ItemId} {call : Item L A S}
    (hcall : c ∈ (s'.exits.activation layer).calls) (hget : s'.items.get c = .ok call) :
    c ∈ (s.exits.activation layer).calls ∧ s.items.get c = .ok call ∨
      c = id ∧ call = final ∧ e.transitions.entersScope item.action = true ∧
        ∃ entry, final.latestEntry item.action = some (layer, entry) := by
  have hpass' := hpass
  cases hpass with
  | intro hpop _ hexit _ hend _ hframe =>
    obtain hold | ⟨rfl, henters, hentry⟩ := hend.calls_mem.2 layer c hcall
    · rw [hexit.exits_mem.1] at hold
      have hid : id ∈ s.pending := Worklist.mem_of_pop hpop
      -- Waiting calls are held, and what is held is not pending; the item was pending.
      have hheld := Exits.held_pos_of_call hold
      have hheld' := Exits.held_pos_of_call hcall
      have hne : c ≠ id := fun hc => hs.tidy.not_pending (j := c) (by omega) (hc ▸ hid)
      exact .inl ⟨hold, hframe.get_settled (hs'.tidy.not_pending (by omega)) hne hget⟩
    · rw [hpass'.get_waiting hs' hcall] at hget
      cases hget
      exact .inr ⟨rfl, rfl, henters, hentry⟩

variable (e) in
/-- Where an exit of the activation at a layer comes from after a pass. -/
inductive ExitOrigin (item : Item L A S) (s : RunState L A S) (layer : LayerId) :
    ScopeExit A S → Prop where
  | kept {x : ScopeExit A S} (hold : x ∈ (s.exits.activation layer).exits) :
      ExitOrigin item s layer x
  | first (hleaves : e.leaves item = true) (hreturned : item.returned = false)
      (hlayer : layer = item.currentLayer) :
      ExitOrigin item s layer ⟨item.action, item.pre, item.predecessor, 0⟩
  | grown {y : ScopeExit A S} {change : ExitChange A S} (hleaves : e.leaves item = true)
      (hreturned : item.returned = false) (hold : y ∈ (s.exits.activation layer).exits)
      (haction : y.action = item.action) (hpre : item.pre.isBottom = false)
      (hgrow : Exits.grow e.domain e.options y item.pre = .ok change) :
      ExitOrigin item s layer change.exit

omit [DecidableEq L] in
theorem ExitPart.origin (h : e.ExitPart item s exits handed) {x : ScopeExit A S}
    (hx : x ∈ (exits.activation layer).exits) : e.ExitOrigin item s layer x := by
  -- Either no exit is taken, or one is recorded, at the layer of the item.
  obtain hsame | ⟨hlayer, hleaves, hreturned, hpre, -, change, hin⟩ := h.activation_cases layer
  · rw [hsame] at hx
    exact .kept hx
  have hkept : ∀ y, y ∈ (s.exits.activation layer).exits → e.ExitOrigin item s layer y :=
    fun _ hy => .kept hy
  -- What is recorded is told for lists, so the two lists of exits become variables.
  generalize hl : (s.exits.activation layer).exits = l at hin hkept
  generalize (exits.activation layer).exits = l' at hin hx
  cases hin with
  | known => exact hkept x hx
  | first =>
    obtain hx | hx := List.mem_append.mp hx
    · exact hkept x hx
    · rw [List.mem_singleton.mp hx]
      exact .first hleaves hreturned hlayer
  | @grown l₁ l₂ exit change haction hgrow =>
    obtain hx | hx := List.mem_append.mp hx
    · exact hkept x (List.mem_append_left _ hx)
    · obtain rfl | hx := List.mem_cons.mp hx
      · refine .grown hleaves hreturned ?_ haction hpre hgrow
        rw [hl]
        exact List.mem_append_right _ List.mem_cons_self
      · exact hkept x (List.mem_append_right _ (List.mem_cons_of_mem _ hx))

/-- Every exit after a pass was there before, or is how the item that was processed left. -/
theorem Pass.exit_origin (hpass : e.Pass id item post final s s') {x : ScopeExit A S}
    (hx : x ∈ (s'.exits.activation layer).exits) : e.ExitOrigin item s layer x := by
  cases hpass with
  | intro _ _ hexit _ hend =>
    rw [hend.calls_mem.1] at hx
    exact hexit.origin hx

/-- What is stored after a pass was stored before, or is what the pass stored at the target of the
item's action, merged with what was there. -/
theorem Pass.stored_cases (hpass : e.Pass id item post final s s') {l : L} {d : Disjunction S}
    (hd : s'.layers.stored? layer l = some d) :
    s.layers.stored? layer l = some d ∨
      ∃ widened, e.Stores item post final widened s s' ∧ layer = final.currentLayer ∧
        l = e.transitions.target item.action ∧
        d = ((s.layers.stored? layer l).getD .bottom).merge widened s.layers.width := by
  cases hpass with
  | intro _ _ _ _ hend =>
    obtain hsame | ⟨_, _, -, -, hadd, -⟩ | ⟨widened, hstores⟩ := hend.layers_cases
    · exact .inl (by rw [← hsame]; exact hd)
    · rw [(Layers.addScopeFixpoint_ok hadd).stored_eq] at hd
      exact .inl hd
    · have hstores' := hstores
      obtain ⟨-, -, layers, stored, henter, hadd⟩ := hstores
      have hmerged := Layers.addState_ok hadd
      rw [hmerged.stored_eq] at hd
      split at hd
      · rename_i hsame
        obtain ⟨rfl, rfl⟩ := hsame
        refine .inr ⟨widened, hstores', rfl, rfl, ?_⟩
        rw [← henter.stored_eq, ← henter.width_eq, ← hmerged.stored_def]
        exact (Option.some.inj hd).symm
      · rw [henter.stored_eq] at hd
        exact .inl hd

/-! ## §3. What holds throughout. -/

variable (e) in
/-- A property of actions and one of states that all steps of a computation keep. -/
structure Sustains (R : A → Prop) (Q : Disjunction S → Prop) : Prop where
  bottom : Q .bottom
  initial : ∀ {l a state}, a ∈ e.transitions.actionsFrom l →
    e.declarations.initial a e.domain.fresh = .ok state → R a ∧ Q (.single state)
  following : ∀ {a b scope}, b ∈ e.transitions.following a scope → R b
  summaryOf : ∀ {a b}, e.transitions.summaryOf a = some b → R b
  evaluate : ∀ {item : Item L A S} {post}, R item.action → Q item.pre →
    (∀ d ∈ item.beforeScope, Q d) → e.evaluate item = .ok post → Q post
  merge : ∀ {d d'}, Q d → Q d' → Q (d.merge d' e.options.maxParallelStates)
  widen : ∀ {older newer widened}, Q older → Q newer →
    older.widen newer e.domain = .ok widened → Q widened

/-- The action and all states of an item have a property. -/
structure ItemOf (R : A → Prop) (Q : Disjunction S → Prop) (item : Item L A S) : Prop where
  action : R item.action
  pre : Q item.pre
  before : ∀ scope ∈ item.scopes, Q scope.before
  entry : ∀ scope ∈ item.scopes, Q scope.entry
  loops : ∀ l ∈ item.loops, Q l.snapshot

variable (e) in
/-- All actions and states that a state of a computation holds have a property. -/
structure Sustained (R : A → Prop) (Q : Disjunction S → Prop) (s : RunState L A S) : Prop where
  width : s.layers.width = e.options.maxParallelStates
  items : ∀ j i, s.items.get j = .ok i → ItemOf R Q i
  exits : ∀ layer, ∀ x ∈ (s.exits.activation layer).exits, R x.action ∧ Q x.state
  posts : s.summaries.AllPosts Q
  stored : ∀ layer l d, s.layers.stored? layer l = some d → Q d

section Sustained

variable {R : A → Prop} {Q : Disjunction S → Prop}

omit [DecidableEq A] [AbstractState S] in
theorem ItemOf.advanced (h : ItemOf R Q item) : ItemOf R Q (e.advanced item) := by
  obtain ⟨loops, hadvanced⟩ := e.advanced_eq item
  constructor
  · rw [hadvanced]
    exact h.action
  · rw [hadvanced]
    exact h.pre
  · exact fun scope hscope => h.before scope (mem_scopes_advanced hscope)
  · exact fun scope hscope => h.entry scope (mem_scopes_advanced hscope)
  · intro l hl
    obtain hold | ⟨-, hsnapshot⟩ := mem_loops_advanced hl
    · exact h.loops l hold
    · rw [hsnapshot]
      exact h.pre

omit [DecidableEq L] [DecidableEq A] [AbstractState S] in
theorem ItemOf.enterScope (h : ItemOf R Q item) {action : A} {before entry : Disjunction S}
    (hbefore : Q before) (hentry : Q entry) :
    ItemOf R Q (item.enterScope action layer before entry) := by
  refine ⟨h.action, h.pre, fun scope hscope => ?_, fun scope hscope => ?_, h.loops⟩
  · obtain rfl | hscope := List.mem_cons.mp hscope
    · exact hbefore
    · exact h.before scope hscope
  · obtain rfl | hscope := List.mem_cons.mp hscope
    · exact hentry
    · exact h.entry scope hscope

omit [DecidableEq L] [DecidableEq A] [AbstractState S] in
theorem ItemOf.successor (h : ItemOf R Q item) {action : A} {p : ItemId} {summary} (ha : R action)
    (hpre : Q post) : ItemOf R Q { Item.successor post action p item with summary := summary } :=
  ⟨ha, hpre, h.before, h.entry, h.loops⟩

omit [DecidableEq L] [DecidableEq A] [AbstractState S] in
theorem ItemOf.returning {x : ScopeExit A S} {call : Item L A S} (h : ItemOf R Q call)
    (hx : R x.action ∧ Q x.state) :
    ItemOf R Q (.returning x.state x.action x.predecessor call layer) := by
  refine ItemOf.enterScope ?_ h.pre h.pre
  exact ⟨hx.1, hx.2, h.before, h.entry, h.loops⟩

/-- The states that a pass stores are widened against states that have the property. -/
theorem Sustains.stores (hQ : e.Sustains R Q) (hitem : ItemOf R Q item) (hpost : Q post)
    (hstores : e.Stores item post final widened s s') : Q widened := by
  obtain ⟨-, ⟨-, rfl⟩ | ⟨older, hagainst, hwiden, -⟩, -⟩ := hstores
  · exact hpost
  · refine hQ.widen ?_ hpost hwiden
    obtain ⟨l, hl, -, rfl⟩ | ⟨scope, hscope, -, rfl⟩ := widensAgainst_cases hagainst
    · exact hitem.advanced.loops l hl
    · exact hitem.advanced.entry scope hscope

omit [DecidableEq L] [DecidableEq A] in
theorem Sustains.grow (hQ : e.Sustains R Q) {y : ScopeExit A S} {change : ExitChange A S}
    {state : Disjunction S} (hy : Q y.state) (hstate : Q state)
    (hgrow : Exits.grow e.domain e.options y state = .ok change) : Q change.exit.state := by
  unfold Exits.grow at hgrow
  dsimp only at hgrow
  split at hgrow
  · obtain ⟨widened, hwiden, hgrow⟩ := except_bind_eq_ok.mp hgrow
    cases hgrow
    exact hQ.widen hy (hQ.merge hy hstate) hwiden
  · cases hgrow
    exact hQ.merge hy hstate

theorem Sustains.exit (hQ : e.Sustains R Q) (h : e.Sustained R Q s) (hitem : ItemOf R Q item)
    {x : ScopeExit A S} (hx : e.ExitOrigin item s layer x) : R x.action ∧ Q x.state := by
  cases hx with
  | kept hold => exact h.exits layer x hold
  | first => exact ⟨hitem.action, hitem.pre⟩
  | grown _ _ hold _ _ hgrow =>
    obtain ⟨ha, hy⟩ := h.exits layer _ hold
    exact ⟨by rw [(Exits.grow_ok hgrow).2.1]; exact ha, hQ.grow hy hitem.pre hgrow⟩

theorem Sustained.of_postPart (hQ : e.Sustains R Q) (h : e.Sustained R Q s)
    (hitem : ItemOf R Q item) (hpost : e.PostPart id item s post summaries) : Q post := by
  cases hpost with
  | interpreted _ hpost =>
    refine hQ.evaluate hitem.action hitem.pre (fun d hd => ?_) hpost
    obtain ⟨scope, hscope, rfl⟩ := Option.map_eq_some_iff.mp hd
    exact hitem.before scope (List.mem_of_head? hscope)
  | summarised _ hpost => exact h.posts.post? hpost

theorem Sustained.stored_getD (hQ : e.Sustains R Q) (h : e.Sustained R Q s) (layer : LayerId)
    (l : L) : Q ((s.layers.stored? layer l).getD .bottom) := by
  cases hstored : s.layers.stored? layer l with
  | none => exact hQ.bottom
  | some d => exact h.stored layer l d hstored

/-- The item that was processed keeps the property when it enters the scope of its action. -/
theorem Sustains.of_endPart (hQ : e.Sustains R Q) (hitem : ItemOf R Q item) (hpost : Q post)
    (hend : e.EndPart id item post s exits summaries final new s') : ItemOf R Q final := by
  cases hend with
  | infeasible _ hfinal => exact hfinal ▸ hitem
  | covered _ _ _ hfinal => exact hfinal ▸ hitem
  | coveredCall _ _ _ _ hfinal => exact hfinal ▸ hitem
  | loopFixpoint _ _ _ _ _ _ _ _ hfinal => exact hfinal ▸ hitem.advanced
  | entryFixpoint _ _ _ _ _ _ _ _ _ hfinal => exact hfinal ▸ hitem.advanced
  | stored hbottom _ _ hwiden henter _ hadd =>
    have hstores : e.Stores item post final _ s s' := ⟨hbottom, hwiden, _, _, henter, hadd⟩
    generalize s.layers = layers at henter
    cases henter with
    | stayed => exact hitem.advanced
    | entered =>
      exact hitem.advanced.enterScope hitem.advanced.pre (hQ.stores hitem hpost hstores)

omit [DecidableEq L] in
theorem Sustains.successor (hQ : e.Sustains R Q) (hfinal : ItemOf R Q final) (hwidened : Q widened)
    (summaries : Summaries A S) {action : A} (hmem : action ∈ e.goesOn final) :
    ItemOf R Q (e.successorOf summaries id final widened action) := by
  have haction := hQ.following (List.mem_filter.mp hmem).1
  unfold successorOf
  dsimp only
  split
  · rename_i hstandIn
    exact hfinal.successor (hQ.summaryOf hstandIn) hwidened
  · exact hfinal.successor haction hwidened

/-- Every pass keeps what all steps keep. -/
theorem Sustained.pass (hQ : e.Sustains R Q) (hs : e.Orderly s) (hs' : e.Orderly s')
    (h : e.Sustained R Q s) (hpass : e.Pass id item post final s s') : e.Sustained R Q s' := by
  have hitem := h.items id item hpass.get
  have hexits : ∀ layer, ∀ x ∈ (s'.exits.activation layer).exits, R x.action ∧ Q x.state :=
    fun layer x hx => hQ.exit h hitem (hpass.exit_origin hx)
  obtain ⟨hpost, hfinal, hposts, hwidth⟩ : Q post ∧ ItemOf R Q final ∧ s'.summaries.AllPosts Q ∧
      s'.layers.width = s.layers.width := by
    cases hpass with
    | intro _ _ _ hpost hend =>
      have hq := h.of_postPart hQ hitem hpost
      exact ⟨hq, hQ.of_endPart hitem hq hend,
        allPosts_pass hpost hend (fun _ _ => hQ.merge) h.posts hq, hend.width_eq⟩
  refine ⟨hwidth.trans h.width, fun j i hi => ?_, hexits, hposts, fun layer l d hd => ?_⟩
  · cases hpass.origin hs hs' hi with
    | returned hexit hcall hget =>
      refine ItemOf.returning ?_ (hexits _ _ hexit)
      obtain ⟨-, hold⟩ | ⟨-, rfl, -⟩ := hpass.call_cases hs hs' hcall hget
      · exact h.items _ _ hold
      · exact hfinal
    | redone hstale _ hq =>
      have hstale := h.items _ _ hstale
      exact (h.items _ _ hq).successor hstale.action hstale.pre
    | successor hstores hmem => exact hQ.successor hfinal (hQ.stores hitem hpost hstores) _ hmem
    | final => exact hfinal
    | old _ hold => exact h.items j i hold
  · obtain hold | ⟨widened, hstores, -, -, rfl⟩ := hpass.stored_cases hd
    · exact h.stored layer l d hold
    · rw [h.width]
      exact hQ.merge (h.stored_getD hQ layer l) (hQ.stores hitem hpost hstores)

theorem Sustained.seed (hQ : e.Sustains R Q) (h : e.Sustained R Q s) {location : L} {action : A}
    (haction : action ∈ e.transitions.actionsFrom location)
    (hseed : e.SeedPart location action s s') : e.Sustained R Q s' := by
  obtain ⟨state, stored, layers, id, hstate, hadd, hgrows⟩ := hseed
  obtain ⟨ha, hsingle⟩ := hQ.initial haction hstate
  have hlayers : s'.layers = layers := hgrows.unmoved.layers
  have hmerged := Layers.addState_ok hadd
  refine ⟨by rw [hlayers, hmerged.width_eq]; exact h.width, fun j i hi => ?_, ?_, ?_,
    fun layer l d hd => ?_⟩
  · obtain ⟨rfl, rfl⟩ | ⟨hold, -⟩ := hgrows.old_singleton hi
    · exact ⟨ha, hsingle, fun _ hscope => (nomatch hscope), fun _ hscope => (nomatch hscope),
        fun _ hl => (nomatch hl)⟩
    · exact h.items j i hold
  · rw [hgrows.unmoved.exits]
    exact h.exits
  · rw [hgrows.unmoved.summaries]
    exact h.posts
  · rw [hlayers, hmerged.stored_eq] at hd
    split at hd
    · cases hd
      rw [hmerged.stored_def, h.width]
      exact hQ.merge (h.stored_getD hQ Layers.root location) hsingle
    · exact h.stored layer l d hd

omit [AbstractState S] in
theorem Sustained.start : e.Sustained R Q (.start e.options) := by
  refine ⟨rfl, fun j i hi => ?_, fun layer x hx => ?_, fun call summary hsummary => ?_,
    fun layer l d hd => ?_⟩
  · cases hi
  · cases hx
  · cases hsummary
  · cases (Layers.stored?_empty e.options.maxParallelStates).symm.trans hd

/-- What all steps keep holds of everything in every reachable state. -/
theorem Reachable.sustained (hQ : e.Sustains R Q) (h : e.Reachable starts s) :
    e.Sustained R Q s :=
  (h.induct .start (fun _ _ _ ha _ _ _ hseed hs => hs.seed hQ ha hseed)
    fun _ _ _ _ _ _ hs hs' hpass h => h.pass hQ hs hs' hpass).2

end Sustained

variable (e) in
/-- All steps keep disjunctions in normal form. -/
theorem sustains_normal :
    e.Sustains (fun _ => True) (Disjunction.Normal e.options.maxParallelStates) where
  bottom := Disjunction.normal_bottom
  initial := fun _ _ => ⟨trivial, Disjunction.normal_single _⟩
  following := fun _ => trivial
  summaryOf := fun _ => trivial
  evaluate := fun _ _ _ hpost => normal_of_evaluate hpost
  merge := fun hd _ => Disjunction.normal_merge hd _
  widen := Disjunction.normal_widen

end Engine

end Interproc
