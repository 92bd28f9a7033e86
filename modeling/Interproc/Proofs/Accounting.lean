/-
  Interproc.Proofs.Accounting
  ───────────────────────────
  No processed item is lost.  The states after its action are bottom, or stored at
  the target of the action, or stored at the entry of a new activation, or covered
  by the entry state of an activation that the item waits for.

  Loops and recursive calls are dropped once widening changes nothing.  That this is
  right rests on two invariants: the state with which a loop was last entered is
  stored at its head, and a fixpoint recorded for a call is the entry state of the
  innermost activation of the same call.

  Main result: `Engine.accounted_of_process`.
-/
import Mathlib
import Interproc.Proofs.Recursion

namespace Interproc

variable {L A S : Type} [DecidableEq L] [DecidableEq A] [AbstractState S]

namespace Engine

variable {e : Engine L A S} {s s' : RunState L A S} {id : ItemId} {item final : Item L A S}
variable {post widened : Disjunction S} {layer : LayerId}
variable {exits : Exits A S} {summaries : Summaries A S} {new : List (Item L A S)}

/-! ## §1. Widening keeps states covered. -/

/-- States that are widened are covered by the result, which is not bottom. -/
theorem WidenedTo.covers [GroundedState S] (hlaws : e.domain.Lawful)
    (h : e.WidenedTo item post widened s s') (hpost : post.isBottom = false) :
    post.isSubset widened = true ∧ widened.isBottom = false := by
  have hsub : post.isSubset widened = true := by
    obtain ⟨-, rfl⟩ | ⟨older, -, hwiden, -, -⟩ := h
    · exact Disjunction.isSubset_refl widened
    · exact (Disjunction.covers_widen hlaws hwiden hpost).1
  refine ⟨hsub, ?_⟩
  obtain ⟨t, ht, htbot⟩ := Disjunction.exists_of_not_isBottom hpost
  obtain ⟨u, hu, htu⟩ := Disjunction.isSubset_iff.mp hsub t ht
  have hubot := Disjunction.not_isBottom_of_below htu htbot
  unfold Disjunction.isBottom
  rw [List.all_eq_false]
  exact ⟨u, hu, by rw [hubot]; exact Bool.noConfusion⟩

/-! ## §2. Stored states only grow along a computation. -/

theorem EnterPart.grown [GroundedState S] {inside : Item L A S} {layers layers' : Layers L A S}
    (h : e.EnterPart item widened layers inside layers') (hproper : layers.AllProper) :
    layers.Grown layers' ∧ layers'.AllProper := by
  cases h with
  | stayed => exact ⟨.refl _, hproper⟩
  | entered _ hcreate =>
    have hcreated := Layers.create_ok hcreate
    refine ⟨hcreated.grown, fun j l d hd => ?_⟩
    rw [hcreated.stored_eq] at hd
    exact hproper j l d hd

omit [AbstractState S] in
theorem EnterPart.enters {inside : Item L A S} {layers layers' : Layers L A S}
    (h : e.EnterPart item widened layers inside layers')
    (henters : e.transitions.entersScope item.action = true) :
    inside.currentLayer.index = layers.size ∧
      layers'.parent? inside.currentLayer = some item.currentLayer := by
  cases h with
  | stayed hstays =>
    rw [hstays] at henters
    cases henters
  | entered _ hcreate =>
    have hcreated := Layers.create_ok hcreate
    refine ⟨?_, hcreated.parent_new⟩
    show LayerId.index _ = _
    rw [Item.currentLayer, Item.enterScope]
    exact congrArg LayerId.index hcreated.id_eq

/-- A pass only adds to what is stored. -/
theorem EndPart.grown [GroundedState S]
    (h : e.EndPart id item post s exits summaries final new s') (hproper : s.layers.AllProper) :
    s.layers.Grown s'.layers ∧ s'.layers.AllProper := by
  have hsame : s'.layers = s.layers → s.layers.Grown s'.layers ∧ s'.layers.AllProper := by
    intro hlayers
    rw [hlayers]
    exact ⟨.refl _, hproper⟩
  cases h with
  | infeasible _ _ _ hlayers => exact hsame hlayers
  | covered _ _ _ _ _ hlayers => exact hsame hlayers
  | coveredCall _ _ _ _ _ _ hlayers => exact hsame hlayers
  | loopFixpoint _ _ _ _ _ _ _ _ _ _ hlayers => exact hsame hlayers
  | entryFixpoint _ _ _ _ _ _ _ _ _ _ _ _ hlayers =>
    have hadded := Layers.addScopeFixpoint_ok hlayers
    refine ⟨hadded.grown, fun j l d hd => ?_⟩
    rw [hadded.stored_eq] at hd
    exact hproper j l d hd
  | stored _ _ _ _ henter _ hadd =>
    obtain ⟨hgrown, hproper'⟩ := henter.grown hproper
    have hmerged := Layers.addState_ok hadd
    exact ⟨hgrown.trans (hmerged.grown hproper'), hmerged.allProper hproper'⟩

/-! ## §3. What pending items rest on. -/

/-- The state with which a loop was last entered is stored at its head. -/
def Snapped (layers : Layers L A S) (layer : LayerId) (l : ActiveLoop L S) : Prop :=
  layers.Holds layer l.head l.snapshot

variable (e) in
/-- Pending items start from stored states, loops were entered with stored states, and fixpoints
recorded for calls are the entry states of activations. -/
structure Backed (F : Contexts L A S) (s : RunState L A S) : Prop where
  framed : e.Framed F (Snapped s.layers) s
  proper : s.layers.AllProper
  width : s.layers.width = e.options.maxParallelStates
  sources : ∀ j ∈ s.pending, ∀ i, s.items.get j = .ok i → i.returned = false →
    s.layers.Holds i.currentLayer (e.transitions.source i.action) i.pre
  users : ∀ j i p q, s.items.get j = .ok i → i.summary.isSome → i.predecessor = some p →
    s.items.get p = .ok q → s.layers.Holds q.currentLayer (e.transitions.source i.action) i.pre
  entries : ∀ layer : LayerId, layer.index < s.layers.size → ∀ scope ∈ (F layer).scopes,
    scope.entry.states.length ≤ max e.options.maxParallelStates 1
  fixpoints : ∀ layer action d, s.layers.fixpoint? layer action = some d →
    ∃ scope, (F layer).scopes.find? (fun scope => scope.action = action) = some scope ∧
      scope.entry = d

theorem Backed.recorded {F : Contexts L A S} (h : e.Backed F s) : e.Recorded F s :=
  ⟨h.width, h.entries, h.fixpoints⟩

section Rests

variable {F : Contexts L A S}

section Snapshots

variable [GroundedState S]

omit [DecidableEq A] in
theorem Snapped.grown {layers layers' : Layers L A S} (hgrown : layers.Grown layers')
    (layer : LayerId) (l : ActiveLoop L S) (h : Snapped layers layer l) :
    Snapped layers' layer l := Layers.Holds.grown h hgrown

/-- Loops are not entered from where a scope is left. -/
theorem Backed.snaps (hc : e.Coherent) (h : e.Backed F s) (hid : id ∈ s.pending)
    (hget : s.items.get id = .ok item) {layers : Layers L A S} (hgrown : s.layers.Grown layers) :
    e.Snaps F (Snapped s.layers) (Snapped layers) s.layers.size item := by
  intro henters layer hwithin _
  have hstays : e.leaves item = false := hc.loop_leaves henters
  have hout : e.outside item = item := by
    unfold Engine.outside
    rw [hstays]
  have hreturned : item.returned = false := by
    obtain ⟨hreturned, -⟩ | ⟨-, _, hreturning⟩ := h.framed.item_cases hid hget
    · exact hreturned
    · rw [hreturning.leaves] at hstays
      cases hstays
  have hholds := h.sources id hid item hget hreturned
  rw [hout] at hwithin
  rw [hwithin.currentLayer h.framed.wellFormed] at hholds
  exact hholds.grown hgrown

end Snapshots

/-- A state that is stored and sent on is stored where its successors start. -/
theorem holds_successor (hc : e.Coherent) {layers : Layers L A S} {action : A}
    (hmem : action ∈ e.goesOn final)
    (hholds : layers.Holds final.currentLayer (e.transitions.target final.action) widened) :
    layers.Holds final.currentLayer
      (e.transitions.source (e.successorOf summaries id final widened action).action) widened := by
  rw [source_successorOf hc hmem]
  exact hholds

theorem Stores.holds [LawfulState S] (hlaws : e.domain.Lawful)
    (h : e.Stores item post final widened s s') :
    s'.layers.Holds final.currentLayer (e.transitions.target item.action) widened := by
  obtain ⟨hpost, hwiden, layers, stored, -, hadd⟩ := h
  exact (Layers.addState_ok hadd).holds (hwiden.covers hlaws hpost).2

theorem Stores.action_eq (h : e.Stores item post final widened s s') :
    final.action = item.action := by
  obtain ⟨-, -, layers, stored, henter, -⟩ := h
  exact henter.action_eq.trans (advanced_action item)

/-- Calls are interpreted, so the states after them are few enough. -/
theorem length_of_enters (hc : e.Coherent) (hs : e.Orderly s) (hget : s.items.get id = .ok item)
    (hpost : e.PostPart id item s post summaries)
    (henters : e.transitions.entersScope item.action = true) :
    post.states.length ≤ max e.options.maxParallelStates 1 := by
  cases hpost with
  | interpreted _ hpost => exact length_of_evaluate hpost
  | summarised hsummary =>
    have hstands := hc.standIn_enters (hs.standing id item _ hget hsummary)
    rw [henters] at hstands
    cases hstands

/-- The states that a pass sends on are stored where the successors start. -/
theorem Stores.holds_sent (hc : e.Coherent) (h : e.Stores item post final widened s s')
    (hholds : s'.layers.Holds final.currentLayer (e.transitions.target item.action) widened)
    (id : ItemId) {action : A} (hmem : action ∈ e.goesOn final) :
    s'.layers.Holds final.currentLayer
      (e.transitions.source (e.successorOf s'.summaries id final widened action).action)
      widened := by
  refine holds_successor hc hmem ?_
  rw [h.action_eq]
  exact hholds

/-- An item that steps over a call and goes on from a predecessor did so before the pass, or redoes
one that did, or is a successor of the item that was processed. -/
theorem Pass.user_cases (hs : e.Orderly s) (hs' : e.Orderly s')
    (hpass : e.Pass id item post final s s') {j r : ItemId} {i q : Item L A S}
    (hi : s'.items.get j = .ok i) (hsummary : i.summary.isSome) (hr : i.predecessor = some r)
    (hq : s'.items.get r = .ok q) :
    (∃ k user, s.items.get k = .ok user ∧ user.summary.isSome ∧ user.predecessor = some r ∧
      s.items.get r = .ok q ∧ user.action = i.action ∧ user.pre = i.pre) ∨
      q = final ∧ ∃ widened action, e.Stores item post final widened s s' ∧
        action ∈ e.goesOn final ∧ i = e.successorOf s'.summaries id final widened action := by
  cases hpass with
  | @intro worklist exits summaries handed new added hpop hget hexit _ hend hadded hframe =>
    have hid : id ∈ s.pending := Worklist.mem_of_pop hpop
    -- The item was pending, so it was the predecessor of no item.
    have hbefore : ∀ k user, s.items.get k = .ok user → user.predecessor = some r →
        s.items.get r = .ok q := by
      intro k user huser hr'
      have hne : r ≠ id := fun hrid => (hs.tidy.predecessor huser hr').1 (hrid ▸ hid)
      exact Framed.predecessor_before hs' hframe hi hr hne hq
    obtain hhand | hnew | ⟨rfl, rfl⟩ | hold := hframe.live_cases hadded hi
    · obtain ⟨_, -, _, -, _, -, rfl⟩ := hexit.handed_eq hhand
      cases hsummary
    · obtain ⟨k, stale, r', q', hstale, hr', -, hknown, rfl⟩ | ⟨_, _, _, -, -, -, -, rfl⟩ |
        ⟨widened, hstores, action, hmem, hsucc⟩ := hend.mem_new hnew
      · cases hr
        exact .inl ⟨k, stale, hstale, hknown, hr', hbefore k stale hstale hr', rfl, rfl⟩
      · cases hsummary
      · have hnot := (hs'.tidy.predecessor hi hr).1
        obtain ⟨action', summary, hshape⟩ := e.successorOf_eq s'.summaries id final widened action
        rw [hsucc, hshape] at hr
        cases hr
        exact .inr ⟨hframe.get_final hnot hq, widened, action, hstores, hmem, hsucc⟩
    · obtain ⟨scopes, loops, hshape⟩ := hend.final_eq
      rw [hshape] at hsummary hr ⊢
      exact .inl ⟨j, item, hget, hsummary, hr, hbefore j item hget hr, rfl, rfl⟩
    · exact .inl ⟨j, i, hold, hsummary, hr, hbefore j i hold hr, rfl, rfl⟩

variable [GroundedState S]

section Pass

variable {handed : List (Item L A S)} {added : List (ItemId × Item L A S)}

variable (e) in
/-- What a pass stores is stored after it: the merged states lose nothing. -/
def Lasts (item : Item L A S) (post : Disjunction S) (final : Item L A S)
    (s s' : RunState L A S) : Prop :=
  ∀ widened, e.Stores item post final widened s s' →
    s'.layers.Holds final.currentLayer (e.transitions.target item.action) widened

theorem Backed.sources_pass (hc : e.Coherent) (hs : e.Orderly s) (h : e.Backed F s)
    (hlasts : e.Lasts item post final s s') (hid : id ∈ s.pending)
    (hget : s.items.get id = .ok item) (hexit : e.ExitPart item s exits handed)
    (hend : e.EndPart id item post s exits summaries final new s')
    (hadded : added.map Prod.snd = handed ++ new) (hframe : Frame id final added s s')
    (hgrown : s.layers.Grown s'.layers) {j : ItemId} (hj : j ∈ s'.pending) {i : Item L A S}
    (hi : s'.items.get j = .ok i) (hreturned : i.returned = false) :
    s'.layers.Holds i.currentLayer (e.transitions.source i.action) i.pre := by
  obtain hhand | hnew | ⟨hjold, hiold⟩ := hframe.pending_cases hadded hj hi
  · rw [(h.framed.handed_returning hs hid hget hexit i hhand).1] at hreturned
    cases hreturned
  · obtain ⟨k, staleItem, p, q, hstale, hp, hq, hsummary, rfl⟩ | ⟨_, _, _, -, -, -, -, rfl⟩ |
      ⟨widened, hstores, action, hmem, hsucc⟩ := hend.mem_new hnew
    · exact (h.users k staleItem p q hstale hsummary hp hq).grown hgrown
    · cases hreturned
    · have hholds := hstores.holds_sent hc (hlasts widened hstores) id hmem
      obtain ⟨action', summary, hshape⟩ := e.successorOf_eq s'.summaries id final widened action
      rw [hsucc]
      rw [hshape] at hholds ⊢
      exact hholds
  · exact (h.sources j hjold i hiold hreturned).grown hgrown

theorem Backed.users_pass (hc : e.Coherent) (hs : e.Orderly s) (hs' : e.Orderly s')
    (h : e.Backed F s) (hpass : e.Pass id item post final s s')
    (hlasts : e.Lasts item post final s s') (hgrown : s.layers.Grown s'.layers) {j r : ItemId}
    {i q : Item L A S} (hi : s'.items.get j = .ok i) (hsummary : i.summary.isSome)
    (hr : i.predecessor = some r) (hq : s'.items.get r = .ok q) :
    s'.layers.Holds q.currentLayer (e.transitions.source i.action) i.pre := by
  obtain ⟨k, user, huser, hknown, hr', hq', haction, hpre⟩ |
    ⟨rfl, widened, action, hstores, hmem, rfl⟩ := hpass.user_cases hs hs' hi hsummary hr hq
  · rw [← haction, ← hpre]
    exact (h.users k user r q huser hknown hr' hq').grown hgrown
  · have hholds := hstores.holds_sent hc (hlasts widened hstores) id hmem
    obtain ⟨action', summary, hshape⟩ := e.successorOf_eq s'.summaries id q widened action
    rw [hshape] at hholds ⊢
    exact hholds

end Pass

/-- Every pass keeps what pending items rest on. -/
theorem Backed.pass (hc : e.Coherent) (hs : e.Orderly s) (hs' : e.Orderly s') (h : e.Backed F s)
    (hpass : e.Pass id item post final s s') (hlasts : e.Lasts item post final s s') :
    e.Backed (F.extend s.layers.size ⟨final.scopes, final.loops⟩) s' := by
  have hpass' := hpass
  cases hpass with
  | @intro worklist exits summaries handed new added hpop hget hexit hpost hend hadded hframe =>
    have hid : id ∈ s.pending := Worklist.mem_of_pop hpop
    obtain ⟨hgrown, hproper⟩ := hend.grown h.proper
    have hrecorded := h.recorded.pass hc.separate h.framed hid hget (fun henters =>
      length_of_enters hc hs hget hpost henters) hend
    constructor
    case framed =>
      exact h.framed.pass hc.separate hs hs' hpass' (Snapped.grown hgrown)
        (h.snaps hc hid hget hgrown)
    case proper => exact hproper
    case width => exact hrecorded.width
    case sources =>
      exact fun j hj i hi hreturned =>
        h.sources_pass hc hs hlasts hid hget hexit hend hadded hframe hgrown hj hi hreturned
    case users =>
      exact fun j i p q hi hsummary hp hq =>
        h.users_pass hc hs hs' hpass' hlasts hgrown hi hsummary hp hq
    case entries => exact hrecorded.entries
    case fixpoints => exact hrecorded.fixpoints

omit [GroundedState S] in
theorem Backed.start : e.Backed (fun _ => ⟨[], []⟩) (.start e.options) := by
  refine ⟨.start, ?_, rfl, ?_, ?_, Recorded.start.entries, Recorded.start.fixpoints⟩
  · intro j l d hd
    cases (Layers.stored?_empty e.options.maxParallelStates).symm.trans hd
  · intro j hj
    cases hj
  · intro j i p q hi
    cases hi

theorem Backed.seed (hc : e.Coherent) (h : e.Backed F s) {location : L} {action : A}
    (haction : action ∈ e.transitions.actionsFrom location)
    (hseed : e.SeedPart location action s s') : e.Backed F s' := by
  have hseed' := hseed
  have hrecorded := h.recorded.seed hseed
  obtain ⟨state, stored, layers, id, -, hadd, hgrows⟩ := hseed
  have hlayers : s'.layers = layers := hgrows.unmoved.layers
  have hmerged := Layers.addState_ok hadd
  rw [← hlayers] at hmerged
  have hgrown := hmerged.grown h.proper
  constructor
  case framed => exact h.framed.seed hseed' (Snapped.grown hgrown)
  case proper => exact hmerged.allProper h.proper
  case width => exact hrecorded.width
  case sources =>
    intro j hj i hi hreturned
    obtain ⟨rfl, rfl⟩ | ⟨hi, hjold⟩ := hgrows.old_singleton hi
    · show s'.layers.Holds Layers.root (e.transitions.source action) (.single state)
      rw [hc.source_of_actionsFrom haction]
      exact hmerged.holds_of_proper (Disjunction.proper_single state)
    · exact (h.sources j (hjold hj) i hi hreturned).grown hgrown
  case users =>
    intro j i p q hi hsummary hp hq
    have hq' := hgrows.get_predecessor hi hp hq
    obtain ⟨rfl, rfl⟩ | ⟨hi, -⟩ := hgrows.old_singleton hi
    · cases hsummary
    · exact (h.users j i p q hi hsummary hp hq').grown hgrown
  case entries => exact hrecorded.entries
  case fixpoints => exact hrecorded.fixpoints

end Rests

variable {F : Contexts L A S}

variable [LawfulState S] in
/-- In every reachable state, pending items rest on what is stored. -/
theorem Reachable.backed {starts : List L} (hc : e.Coherent) (hlaws : e.domain.Lawful)
    (h : e.Reachable starts s) : e.Orderly s ∧ ∃ F, e.Backed F s :=
  h.induct (P := fun s => ∃ F, e.Backed F s) ⟨_, .start⟩
    (fun _ _ _ haction _ _ _ hseed ⟨F, hF⟩ => ⟨F, hF.seed hc haction hseed⟩)
    (fun _ _ _ _ _ _ hs hs' hpass ⟨_, hF⟩ => ⟨_, hF.pass hc hs hs' hpass fun _ h => h.holds hlaws⟩)

/-! ## §4. Accounting for processed items. -/

/-- States are stored at the entry of a scope that was entered from the layer of an item, in a
layer created when there were `n` layers already. -/
def EntersFresh (e : Engine L A S) (item : Item L A S) (post : Disjunction S) (n : Nat)
    (layers : Layers L A S) : Prop :=
  ∃ child : LayerId, n ≤ child.index ∧ layers.parent? child = some item.currentLayer ∧
    layers.Holds child (e.transitions.target item.action) post

/-- A call waits for an activation of the same call on its own scope stack, whose entry state
covers the states with which it would be entered. -/
def WaitsForOwn (id : ItemId) (item : Item L A S) (post : Disjunction S) (exits : Exits A S) :
    Prop :=
  ∃ scope ∈ item.scopes, scope.action = item.action ∧ post.isSubset scope.entry = true ∧
    id ∈ (exits.activation scope.layer).calls

/-- The states after the action of an item, which was processed when there were `n` layers, are
accounted for. -/
def Accounted (e : Engine L A S) (id : ItemId) (item : Item L A S) (post : Disjunction S)
    (n : Nat) (s : RunState L A S) : Prop :=
  post.isBottom = true ∨
    (e.transitions.entersScope item.action = false ∧
      s.layers.Holds (e.landing item) (e.transitions.target item.action) post) ∨
    (e.transitions.entersScope item.action = true ∧
      (e.EntersFresh item post n s.layers ∨ WaitsForOwn id item post s.exits))

/-- States that are covered at the target of an action are stored there. -/
theorem holds_of_covers (hstays : e.transitions.entersScope item.action = false)
    {layers : Layers L A S} (hcovered : e.covers layers item post = .ok true) :
    layers.Holds (e.landing item) (e.transitions.target item.action) post := by
  unfold covers at hcovered
  rw [hstays] at hcovered
  obtain ⟨previous, hprevious, hcovered⟩ := except_bind_eq_ok.mp hcovered
  obtain ⟨rfl, -⟩ := Layers.state?_eq_ok hprevious
  exact (Option.any_eq_true _ _).mp (Except.ok.inj hcovered)

omit [DecidableEq L] [DecidableEq A] in
/-- The states after an action are below what they were widened against, if that changed nothing. -/
theorem isSubset_of_fixpoint [GroundedState S] (hlaws : e.domain.Lawful) {older : Disjunction S}
    (hpost : post.isBottom = false) (hwiden : older.widen post e.domain = .ok widened)
    (hsame : widened.isEquivalent older = true) : post.isSubset older = true := by
  unfold Disjunction.isEquivalent at hsame
  rw [Bool.and_eq_true] at hsame
  exact Disjunction.isSubset_trans (Disjunction.covers_widen hlaws hwiden hpost).1 hsame.1

omit [AbstractState S] in
/-- Outside of calls, states are widened against the state with which a loop was last entered. -/
theorem widensAgainst_loop {older : Disjunction S}
    (hstays : e.transitions.entersScope item.action = false)
    (hagainst : e.widensAgainst item = some older) :
    ∃ l ∈ item.scopeLoops, l.head = e.transitions.target item.action ∧ l.snapshot = older ∧
      e.options.maxUnwindings < l.counter := by
  unfold widensAgainst at hagainst
  rw [hstays] at hagainst
  cases hloop : item.loopAt (e.transitions.target item.action) with
  | none =>
    rw [hloop] at hagainst
    cases hagainst
  | some found =>
    obtain ⟨l, hl, rfl⟩ := Option.map_eq_some_iff.mp hloop
    rw [hloop] at hagainst
    have hhead := List.find?_some hl
    have hmem := List.mem_reverse.mp (List.mem_of_find?_eq_some hl)
    simp only [Bool.false_eq_true, if_false] at hagainst
    split at hagainst
    · rename_i hmany
      exact ⟨l, hmem, of_decide_eq_true hhead, Option.some.inj hagainst, hmany⟩
    · cases hagainst

/-- The state with which a loop was last entered is stored at its head. -/
theorem Backed.holds_snapshot [GroundedState S] (hc : e.Coherent) (h : e.Backed F s)
    (hid : id ∈ s.pending) (hget : s.items.get id = .ok item) {layers : Layers L A S}
    (hgrown : s.layers.Grown layers) :
    ∀ l ∈ (e.advanced item).scopeLoops, layers.Holds (e.landing item) l.head l.snapshot := by
  have hwell := h.framed.wellFormed.mono (Snapped.grown hgrown) fun _ _ => rfl
  obtain ⟨layer, hwithin⟩ := h.framed.advanced hid hget (Snapped.grown hgrown)
    (h.snaps hc hid hget hgrown)
  rw [← advanced_currentLayer, hwithin.currentLayer hwell, hwithin.scopeLoops hwell]
  exact hwithin.loops

/-- A call whose states are covered waits for an activation, so what is dropped without waiting
stays in its scope. -/
theorem Backed.stays_of_covered (hc : e.Coherent) (h : e.Backed F s) (hid : id ∈ s.pending)
    (hget : s.items.get id = .ok item) (hcovered : e.covers s.layers item post = .ok true)
    (henters : e.transitions.entersScope item.action = false ∨
      item.latestEntry item.action = none) : e.transitions.entersScope item.action = false := by
  obtain hstays | hnone := henters
  · exact hstays
  · by_contra hkind
    rw [Bool.not_eq_false] at hkind
    obtain ⟨layer, entry, hentry, -⟩ :=
      h.recorded.covered_call hc.separate h.framed hid hget hkind hcovered
    rw [hnone] at hentry
    cases hentry

variable [LawfulState S]

/-- However a pass ends, the states after the item's action are accounted for. -/
theorem Backed.accounted (hc : e.Coherent) (hlaws : e.domain.Lawful) (h : e.Backed F s)
    (hid : id ∈ s.pending) (hget : s.items.get id = .ok item)
    (hend : e.EndPart id item post s exits summaries final new s') :
    e.Accounted id item post s.layers.size s' := by
  have hgrown := (hend.grown h.proper).1
  cases hend with
  | infeasible hpost => exact .inl hpost
  | covered hpost hcovered henters =>
    have hstays := h.stays_of_covered hc hid hget hcovered henters
    exact .inr (.inl ⟨hstays, (holds_of_covers hstays hcovered).grown hgrown⟩)
  | coveredCall hpost hcovered henters hentry _ _ _ hexits =>
    obtain ⟨layer, entry, hentry', hsub⟩ :=
      h.recorded.covered_call hc.separate h.framed hid hget henters hcovered
    rw [hentry] at hentry'
    cases hentry'
    obtain ⟨scope, hscope, haction, hlayer, hstate⟩ := Item.latestEntry_mem hentry
    refine .inr (.inr ⟨henters, .inr ⟨scope, hscope, haction, by rw [hstate]; exact hsub, ?_⟩⟩)
    rw [hexits, hlayer]
    exact Exits.mem_calls_subscribe
  | loopFixpoint hpost _ _ henters hagainst hwiden hsame =>
    -- The snapshot of the loop is stored at its head, and widening it changed nothing.
    obtain ⟨l, hl, hhead, hsnapshot, -⟩ := widensAgainst_loop
      (by rw [advanced_action]; exact henters) hagainst
    have hholds := h.holds_snapshot hc hid hget hgrown l hl
    rw [hhead, hsnapshot, advanced_action] at hholds
    exact .inr (.inl ⟨henters,
      hholds.of_isSubset (isSubset_of_fixpoint hlaws hpost hwiden hsame)⟩)
  | entryFixpoint hpost _ _ henters hentry hagainst hwiden hsame _ _ _ _ _ hexits =>
    obtain ⟨scope, hscope, haction, hlayer, hstate⟩ := Item.latestEntry_mem hentry
    rw [advanced_scopes_of_enters hc.separate henters] at hscope
    refine .inr (.inr ⟨henters, .inr ⟨scope, hscope, haction, ?_, ?_⟩⟩)
    · rw [hstate]
      exact isSubset_of_fixpoint hlaws hpost hwiden hsame
    · rw [hexits, hlayer]
      exact Exits.mem_calls_subscribe
  | stored hpost _ _ hwiden henter _ hadd =>
    have hstores : e.Stores item post final _ s s' := ⟨hpost, hwiden, _, _, henter, hadd⟩
    have hholds := (hstores.holds hlaws).of_isSubset (hwiden.covers hlaws hpost).1
    cases hkind : e.transitions.entersScope item.action with
    | false =>
      rw [(henter.stays (by rw [advanced_action]; exact hkind)).1, advanced_currentLayer] at hholds
      exact .inr (.inl ⟨hkind, hholds⟩)
    | true =>
      -- The layer that was created holds the states, and the layer of the item is its parent.
      obtain ⟨hsize, hparent⟩ := henter.enters (by rw [advanced_action]; exact hkind)
      refine .inr (.inr ⟨hkind, .inl ⟨_, hsize.ge, ?_, hholds⟩⟩)
      rw [(Layers.addState_ok hadd).parent_eq, hparent, advanced_currentLayer,
        landing_of_enters hc.separate hkind]

omit [LawfulState S] in
theorem Pass.grown [GroundedState S] (h : e.Pass id item post final s s')
    (hproper : s.layers.AllProper) : s.layers.Grown s'.layers := by
  cases h with
  | intro _ _ _ _ hend => exact (hend.grown hproper).1

/-- What is accounted for stays accounted for. -/
theorem Accounted.pass {j : ItemId} {i : Item L A S} {d : Disjunction S} {n : Nat}
    (h : e.Accounted j i d n s) (hproper : s.layers.AllProper)
    (hpass : e.Pass id item post final s s') : e.Accounted j i d n s' := by
  have hgrown := hpass.grown hproper
  obtain hbottom | ⟨hstays, hholds⟩ | ⟨henters, hfresh | hwaits⟩ := h
  · exact .inl hbottom
  · exact .inr (.inl ⟨hstays, hholds.grown hgrown⟩)
  · obtain ⟨child, hchild, hparent, hholds⟩ := hfresh
    refine .inr (.inr ⟨henters, .inl ⟨child, hchild, ?_, hholds.grown hgrown⟩⟩)
    obtain ⟨d', hd', -⟩ := hholds
    rw [hgrown.parent child (Layers.lt_size_of_stored hd')]
    exact hparent
  · obtain ⟨scope, hscope, haction, hsub, hcall⟩ := hwaits
    exact .inr (.inr ⟨henters, .inr ⟨scope, hscope, haction, hsub, hpass.calls_mono hcall⟩⟩)

/-- What is accounted for after a pass stays accounted for in all later states. -/
theorem Accounted.later {starts : List L} {j : ItemId} {i : Item L A S} {d : Disjunction S}
    {n : Nat} {u : RunState L A S} (hc : e.Coherent) (hlaws : e.domain.Lawful)
    (h : e.Accounted j i d n s) (hs : e.Reachable starts s) (hlater : e.Later s u) :
    e.Accounted j i d n u := by
  refine (hlater.preserves (P := fun t => e.Reachable starts t ∧ e.Accounted j i d n t)
    (fun t t' hiterate ht => ⟨ht.1.iterated hiterate, ?_⟩) ⟨hs, h⟩).2
  obtain ⟨hordered, F, hF⟩ := ht.1.backed hc hlaws
  obtain ⟨-, id, item, post, final, hpass⟩ := hordered.pass hiterate
  exact ht.2.pass hF.proper hpass

/-- Every processed item is accounted for, after it was processed and in every later state. -/
theorem accounted_of_process {T : Type} [DecidableEq T] {p : Program T} (hp : p.Built)
    {table : LoopTable} {e : Engine Nat (Transition T) S}
    (htransitions : e.transitions = p.transitions) (hloops : e.entersLoop = table.isEntered)
    (hlaws : e.domain.Lawful) {starts : List Nat} {s t u : RunState Nat (Transition T) S}
    {worklist : Worklist} {item : Item Nat (Transition T) S} (hs : e.Reachable starts s)
    (hpop : s.worklist.pop = some (id, worklist)) (hget : s.items.get id = .ok item)
    (htake : e.takeUp id item (taken worklist s) = .ok post t)
    (hprocess : e.process id (taken worklist s) = .ok () u) :
    e.Accounted id item post s.layers.size u ∧
      ∀ s' v, e.iterate s = .ok true s' → e.Later s' v →
        e.Accounted id item post s.layers.size v := by
  have hc := hp.coherent htransitions hloops
  obtain ⟨hordered, F, hF⟩ := hs.backed hc hlaws
  have hid : id ∈ s.pending := (Worklist.perm_of_pop hpop).mem_iff.mpr List.mem_cons_self
  obtain ⟨_, _, _, _, _, -, hpost, hend⟩ := parts_of_process hordered.tidy hpop hget htake hprocess
  refine ⟨hF.accounted hc hlaws hid hget hend, fun s' v hiterate hlater => ?_⟩
  obtain ⟨-, id', item'', post'', final', hpass⟩ := hordered.pass hiterate
  cases hpass with
  | intro hpop' hget' _ hpost' hend' =>
    rw [hpop] at hpop'
    cases hpop'
    rw [hget] at hget'
    cases hget'
    cases hpost.unique hpost'
    exact (hF.accounted hc hlaws hid hget hend').later hc hlaws (hs.iterated hiterate) hlater

set_option maxRecDepth 100000 in
/-- The tenth item of the analysis is a call that is covered by an activation of the same call. -/
theorem accounted_of_process_ascent : ∃ s id worklist item post t u,
    ascentIntervals.stateAfter [0] 9 = some s ∧ s.worklist.pop = some (id, worklist) ∧
    s.items.get id = .ok item ∧ ascentIntervals.takeUp id item (taken worklist s) = .ok post t ∧
    ascentIntervals.process id (taken worklist s) = .ok () u ∧
    ascentIntervals.Accounted id item post s.layers.size u ∧
    ∀ s' v, ascentIntervals.iterate s = .ok true s' → ascentIntervals.Later s' v →
      ascentIntervals.Accounted id item post s.layers.size v := by
  have hnext : (ascentIntervals.stateAfter [0] 9).any
      (ascentIntervals.processesNext fun _ _ => true) = true := by
    decide +kernel
  obtain ⟨s, hs, hnext⟩ := (Option.any_eq_true _ _).mp hnext
  obtain ⟨id, worklist, item, post, t, u, hpop, hget, htake, hprocess, -⟩ :=
    exists_of_processesNext hnext
  exact ⟨s, id, worklist, item, post, t, u, hs, hpop, hget, htake, hprocess,
    accounted_of_process (p := ascent) ⟨_, rfl⟩ rfl rfl IntervalState.domain_lawful
      (reachable_of_stateAfter hs) hpop hget htake hprocess⟩

end Engine

end Interproc
