/-
  Interproc.Proofs.Deliveries
  ───────────────────────────
  What becomes of the states after an action.  They are delivered if every one of
  them is stored at the target of the action and carried on by some item along every
  action that follows.  Of the states after a call, the entry state of some activation
  takes care, and of the states with which that activation returns, it hands every
  one to the call again.

  Items are dropped when what is stored covers the states after their action.  What is
  stored may be a join of states that were never carried on, so for such an item the
  delivery has to be asked for: its states must have been carried on before.  Given
  that, all other items deliver their states.

  Main result: `Engine.Covering.pass`.
-/
import Mathlib
import Interproc.Proofs.Accounting
import Interproc.Proofs.Handover

namespace Interproc

variable {L A S : Type} [DecidableEq L] [DecidableEq A] [AbstractState S]

/-! ## §1. Deliveries. -/

/-- The action that an item takes, or the call that it steps over. -/
def Item.origin (item : Item L A S) : A := (item.summary.map SummaryRef.call).getD item.action

/-- An item carries a state along an action in a layer. -/
def Item.Carries (item : Item L A S) (layer : LayerId) (action : A) (t : S) : Prop :=
  item.returned = false ∧ item.currentLayer = layer ∧ item.origin = action ∧ item.pre.Covers t

/-- A state is covered by what is stored for a location in a layer. -/
def Layers.Keeps (m : Layers L A S) (layer : LayerId) (location : L) (t : S) : Prop :=
  ∃ d, m.stored? layer location = some d ∧ d.Covers t

namespace Engine

variable (e : Engine L A S)

/-- The actions along which states go on after an action, in the scope that an action entered. -/
def onward (action : A) (scope : Option A) : List A :=
  (e.transitions.following action scope).filter fun b => !e.transitions.standsForCall b

/-- All states of a disjunction that results from an action are stored, and carried on by items
of `W`. -/
def Delivered (W : Set (Item L A S)) (layers : Layers L A S) (layer : LayerId) (action : A)
    (scope : Option A) (d : Disjunction S) : Prop :=
  ∀ t ∈ d.states, isBottom t = false → layers.Keeps layer (e.transitions.target action) t ∧
    ∀ b ∈ e.onward action scope, ∃ i ∈ W, i.Carries layer b t

/-- How the activation at a layer answers a call: the call entered it, or waits for it. -/
inductive Answers (F : Contexts L A S) (s : RunState L A S) (call : Item L A S) (layer : LayerId)
    (scope : Scope A S) : Prop where
  | entered (hbelow : F.Below (fun _ _ => True) call.currentLayer layer scope)
      (hbefore : scope.before = call.pre)
  | waits {k : ItemId} {c : Item L A S} (hcall : k ∈ (s.exits.activation layer).calls)
      (hget : s.items.get k = .ok c) (haction : c.action = call.action)
      (hpre : c.pre = call.pre) (hscopes : c.scopes = call.scopes)
      (hroot : c.rootLayer = call.rootLayer)

/-- The activation at a layer answers a call, and its entry state covers the states after it. -/
structure Answered (F : Contexts L A S) (s : RunState L A S) (call : Item L A S)
    (post : Disjunction S) (layer : LayerId) (scope : Scope A S) : Prop where
  lt : layer.index < s.layers.size
  head : (F layer).scopes.head? = some scope
  action : scope.action = call.action
  covers : post.isSubset scope.entry = true
  answers : Answers F s call layer scope

/-- The states after an item's action are taken care of. -/
structure Done (F : Contexts L A S) (W : Set (Item L A S)) (s : RunState L A S)
    (item : Item L A S) (post : Disjunction S) : Prop where
  evaluates : e.evaluate item = .ok post
  answered : e.transitions.entersScope item.action = true →
    post.isBottom = true ∨ ∃ layer scope, Answered F s item post layer scope
  delivered : e.transitions.entersScope item.action = false →
    e.Delivered W s.layers (e.landing item) item.action (e.advanced item).currentScope post
  exits : e.leaves item = true → item.returned = false → ∀ t ∈ item.pre.states,
    isBottom t = false →
      Exits.Leads (s.exits.activation item.currentLayer).exits item.action t

/-- Items that were ever on the worklist deliver their states, or still wait; so do the entry
states of activations, and every exit was handed to every call that waits for it. -/
structure Covering (F : Contexts L A S) (W : Set (Item L A S)) (s : RunState L A S) : Prop where
  backed : e.Backed F s
  within : ∀ i ∈ W, i.returned = false →
    ∃ layer, F.Within (fun _ _ => True) s.layers.size layer i
  waits : ∀ i, s.Waits i → i ∈ W
  standing : ∀ i ∈ W, ∀ r, i.summary = some r → e.transitions.summaryOf r.call = some i.action
  done : ∀ i ∈ W, i.summary = none → s.Waits i ∨ ∃ post, e.Done F W s i post
  entries : ∀ layer : LayerId, layer.index < s.layers.size → ∀ scope ∈ (F layer).scopes.head?,
    scope.before.states ≠ [] ∧
      e.Delivered W s.layers layer scope.action (some scope.action) scope.entry
  calls : ∀ layer, ∀ k ∈ (s.exits.activation layer).calls, ∀ c, s.items.get k = .ok c →
    c.pre.states ≠ []
  informed : Informed W s

/-! ## §2. How items end. -/

/-- How a pass over an item ends, if widening is lawful: no item is dropped after widening, except
for calls that wait, and no item is stored in vain. -/
inductive Outcome (id : ItemId) (item : Item L A S) (post : Disjunction S) (s : RunState L A S)
    (exits : Exits A S) (final : Item L A S) (new : List (Item L A S)) (s' : RunState L A S) :
    Prop where
  | infeasible (hpost : post.isBottom = true) (hexits : s'.exits = exits)
      (hsize : s'.layers.size = s.layers.size)
  | dropped (hpost : post.isBottom = false)
      (hstays : e.transitions.entersScope item.action = false)
      (hcovered : e.covers s.layers item post = .ok true) (hexits : s'.exits = exits)
      (hsize : s'.layers.size = s.layers.size)
  | waits {layer : LayerId} {entry : Disjunction S} (hpost : post.isBottom = false)
      (henters : e.transitions.entersScope item.action = true)
      (hentry : item.latestEntry item.action = some (layer, entry))
      (hcovers : post.isSubset entry = true)
      (hfinal : ∃ loops, final = { item with loops := loops })
      (hexits : s'.exits = exits.subscribe layer id) (hsize : s'.layers.size = s.layers.size)
  | passed {widened : Disjunction S} (hstores : e.Stores item post final widened s s')
      (hcovers : post.isSubset widened = true)
      (hnew : ∀ b ∈ e.goesOn final, e.successorOf s'.summaries id final widened b ∈ new)
      (hexits : s'.exits = exits)

variable {e} {s s' : RunState L A S} {id : ItemId} {item final : Item L A S}
variable {post widened : Disjunction S} {layer : LayerId}
variable {exits : Exits A S} {summaries : Summaries A S} {handed new : List (Item L A S)}
variable {F F' : Contexts L A S} {W W' : Set (Item L A S)}

/-- What is not covered does not come to the same as what was stored before. -/
theorem not_isEquivalent_of_covers [PreorderedState S] {stored previous : Disjunction S}
    (hstays : e.transitions.entersScope item.action = false)
    (hcovered : e.covers s.layers item post = .ok false)
    (hold : s.layers.stored? (e.landing item) (e.transitions.target item.action) = some previous)
    (hsub : post.isSubset stored = true) : stored.isEquivalent previous = false := by
  by_contra hsame
  rw [Bool.not_eq_false, Disjunction.isEquivalent, Bool.and_eq_true] at hsame
  unfold Engine.covers at hcovered
  rw [hstays] at hcovered
  obtain ⟨found, hfound, hcovered⟩ := except_bind_eq_ok.mp hcovered
  obtain ⟨rfl, -⟩ := Layers.state?_eq_ok hfound
  have hfalse : post.isSubset previous = false := by
    rw [hold] at hcovered
    exact Except.ok.inj hcovered
  rw [Disjunction.isSubset_trans hsub hsame.1] at hfalse
  cases hfalse

variable [LawfulState S] in
/-- What was merged covers the states that were widened. -/
theorem WidenedTo.isSubset_stored (hlaws : e.domain.Lawful) {stored : Disjunction S}
    {layers layers' : Layers L A S} {location : L} (hpost : post.isBottom = false)
    (hwiden : e.WidenedTo item post widened s s')
    (hadd : layers.addState layer location widened = .ok (stored, layers')) :
    post.isSubset stored = true := by
  obtain ⟨hsub, hbottom⟩ := hwiden.covers hlaws hpost
  rw [(Layers.addState_ok hadd).stored_def]
  exact Disjunction.isSubset_trans hsub (Disjunction.isSubset_merge_right hbottom _ _)

/-- What is not covered changes what is stored. -/
theorem stored_changes [PreorderedState S] {stored : Disjunction S} {layers : Layers L A S}
    {previous : Option (Disjunction S)} (hcovered : e.covers s.layers item post = .ok false)
    (henter : e.EnterPart (e.advanced item) widened s.layers final layers)
    (hprevious : layers.state? final.currentLayer (e.transitions.target item.action)
      = .ok previous) (hsub : post.isSubset stored = true) :
    previous.all (fun p => !stored.isEquivalent p) = true := by
  obtain ⟨rfl, -⟩ := Layers.state?_eq_ok hprevious
  cases hold : layers.stored? final.currentLayer (e.transitions.target item.action) with
  | none => rfl
  | some previous =>
    cases hkind : e.transitions.entersScope item.action with
    | true =>
      -- Nothing is stored in a layer that was created just now.
      have hnew := (henter.enters (by rw [advanced_action]; exact hkind)).1
      rw [henter.stored_eq] at hold
      have hlt := Layers.lt_size_of_stored hold
      omega
    | false =>
      obtain ⟨rfl, rfl⟩ := henter.stays (by rw [advanced_action]; exact hkind)
      rw [advanced_currentLayer] at hold
      rw [Option.all_some, not_isEquivalent_of_covers hkind hcovered hold hsub]
      rfl

/-- No item is dropped because widening at the head of a loop changes nothing: the loop was last
entered with a stored state, so the item would have been covered. -/
theorem Backed.no_loopFixpoint [GroundedState S] (hc : e.Coherent) (hlaws : e.domain.Lawful)
    (h : e.Backed F s) (hid : id ∈ s.pending) (hget : s.items.get id = .ok item)
    {older : Disjunction S} (hpost : post.isBottom = false)
    (hcovered : e.covers s.layers item post = .ok false)
    (hstays : e.transitions.entersScope item.action = false)
    (hagainst : e.widensAgainst (e.advanced item) = some older)
    (hwiden : older.widen post e.domain = .ok widened)
    (hsame : widened.isEquivalent older = true) : False := by
  obtain ⟨l, hl, hhead, hsnapshot, -⟩ := widensAgainst_loop
    (by rw [advanced_action]; exact hstays) hagainst
  obtain ⟨stored, hstored, hsub⟩ := h.holds_snapshot hc hid hget (.refl _) l hl
  rw [hhead, advanced_action] at hstored
  rw [hsnapshot] at hsub
  unfold Engine.covers at hcovered
  rw [hstays] at hcovered
  obtain ⟨found, hfound, hcovered⟩ := except_bind_eq_ok.mp hcovered
  obtain ⟨rfl, -⟩ := Layers.state?_eq_ok hfound
  rw [hstored] at hcovered
  have hfalse : post.isSubset stored = false := Except.ok.inj hcovered
  rw [Disjunction.isSubset_trans (isSubset_of_fixpoint hlaws hpost hwiden hsame) hsub] at hfalse
  cases hfalse

variable [LawfulState S] in
/-- Every pass ends in one of these ways. -/
theorem Backed.outcome (hc : e.Coherent) (hlaws : e.domain.Lawful) (h : e.Backed F s)
    (hid : id ∈ s.pending) (hget : s.items.get id = .ok item)
    (hend : e.EndPart id item post s exits summaries final new s') :
    e.Outcome id item post s exits final new s' := by
  cases hend with
  | infeasible hpost _ _ hlayers hexits => exact .infeasible hpost hexits (by rw [hlayers])
  | covered hpost hcovered henters _ _ hlayers hexits =>
    exact .dropped hpost (h.stays_of_covered hc hid hget hcovered henters) hcovered hexits
      (by rw [hlayers])
  | coveredCall hpost hcovered henters hentry hfinal _ hlayers hexits =>
    obtain ⟨layer, entry, hentry', hsub⟩ :=
      h.recorded.covered_call hc.separate h.framed hid hget henters hcovered
    rw [hentry] at hentry'
    cases hentry'
    exact .waits hpost henters hentry hsub ⟨item.loops, hfinal⟩ hexits (by rw [hlayers])
  | loopFixpoint hpost hcovered _ henters hagainst hwiden hsame =>
    -- States below the snapshot of a loop are stored at its head, and would have been covered.
    exact (h.no_loopFixpoint hc hlaws hid hget hpost hcovered henters hagainst hwiden hsame).elim
  | @entryFixpoint layer older _ _ hpost _ _ henters hentry _ hwiden hsame _ hfinal _ _ hlayers
      hexits =>
    have hscopes := advanced_scopes_of_enters hc.separate henters
    obtain ⟨loops, hadvanced⟩ := e.advanced_eq item
    have hstays : e.leaves item = false := hc.leaves_of_enters henters
    rw [hstays] at hadvanced
    have hentry' : item.latestEntry item.action = some (layer, older) := by
      unfold Item.latestEntry at hentry ⊢
      rw [hscopes] at hentry
      exact hentry
    exact .waits hpost henters hentry' (isSubset_of_fixpoint hlaws hpost hwiden hsame)
      ⟨loops, hfinal.trans hadvanced⟩ hexits (Layers.addScopeFixpoint_ok hlayers).size_eq
  | stored hpost hcovered _ hwiden henter hprevious hadd hchanged _ hnew hexits =>
    have hsub := hwiden.isSubset_stored hlaws hpost hadd
    -- What was not covered changes what is stored, so the item goes on.
    rw [stored_changes hcovered henter hprevious hsub] at hchanged
    refine .passed ⟨hpost, hwiden, _, _, henter, hadd⟩ (hwiden.covers hlaws hpost).1
      (fun b hb => ?_) hexits
    rw [hnew, if_pos hchanged]
    exact List.mem_append_right _ (List.mem_map_of_mem hb)

/-! ## §3. What is delivered stays delivered. -/

theorem Answers.pass (hs : e.Orderly s) (hs' : e.Orderly s')
    (hpass : e.Pass id item post final s s') {call : Item L A S} {scope : Scope A S}
    (h : Answers F s call layer scope) (hlayer : layer.index < s.layers.size)
    (hF : ∀ j : LayerId, j.index < s.layers.size → F' j = F j) :
    Answers F' s' call layer scope := by
  cases h with
  | entered hbelow hbefore => exact .entered (hbelow.mono (fun _ _ hl => hl) hF hlayer) hbefore
  | waits hcall hget haction hpre hscopes hroot =>
    exact .waits (hpass.calls_mono hcall) (hpass.get_call hs hs' hcall hget) haction hpre hscopes
      hroot

section Kept

variable [LawfulState S]

omit [DecidableEq A] in
theorem Delivered.mono {layers layers' : Layers L A S} {action : A} {scope : Option A}
    {d : Disjunction S} (h : e.Delivered W layers layer action scope d) (hW : W ⊆ W')
    (hgrown : layers.Grown layers') : e.Delivered W' layers' layer action scope d := by
  intro t ht hbottom
  obtain ⟨⟨stored, hstored, hcovers⟩, hcarried⟩ := h t ht hbottom
  obtain ⟨stored', hstored', hsub⟩ := hgrown.stored _ _ stored hstored
  refine ⟨⟨stored', hstored', hcovers.of_isSubset hsub⟩, fun b hb => ?_⟩
  obtain ⟨i, hi, hcarries⟩ := hcarried b hb
  exact ⟨i, hW hi, hcarries⟩

theorem Answered.pass (hs : e.Orderly s) (hs' : e.Orderly s')
    (hpass : e.Pass id item post final s s') (hproper : s.layers.AllProper) {call : Item L A S}
    {d : Disjunction S} {scope : Scope A S} (h : Answered F s call d layer scope)
    (hF : ∀ j : LayerId, j.index < s.layers.size → F' j = F j) :
    Answered F' s' call d layer scope where
  lt := h.lt.trans_le (hpass.grown hproper).size_le
  head := by
    rw [hF layer h.lt]
    exact h.head
  action := h.action
  covers := h.covers
  answers := h.answers.pass hs hs' hpass h.lt hF

theorem Done.pass (hlaws : e.domain.Lawful) (hs : e.Orderly s) (hs' : e.Orderly s')
    (hpass : e.Pass id item post final s s') (hproper : s.layers.AllProper) {i : Item L A S}
    {d : Disjunction S} (h : e.Done F W s i d) (hW : W ⊆ W')
    (hF : ∀ j : LayerId, j.index < s.layers.size → F' j = F j) : e.Done F' W' s' i d where
  evaluates := h.evaluates
  answered := by
    intro henters
    obtain hbottom | ⟨layer, scope, hanswered⟩ := h.answered henters
    · exact .inl hbottom
    · exact .inr ⟨layer, scope, hanswered.pass hs hs' hpass hproper hF⟩
  delivered := fun hstays => (h.delivered hstays).mono hW (hpass.grown hproper)
  exits := fun hleaves hreturned t ht hbottom =>
    hpass.leads hlaws hbottom (h.exits hleaves hreturned t ht hbottom)

end Kept

/-! ## §4. Passes deliver. -/

omit [DecidableEq L] in
/-- The item for an action that follows stems from that action, also if it steps over a call. -/
theorem origin_successorOf (action : A) :
    (e.successorOf summaries id item widened action).origin = action := by
  unfold successorOf Item.origin
  dsimp only
  split
  · rename_i summary standIn hknown _
    split at hknown
    · obtain ⟨i, -, rfl⟩ := Option.map_eq_some_iff.mp hknown
      rfl
    · cases hknown
  · rfl

omit [DecidableEq L] [DecidableEq A] in
/-- Actions lead nowhere from no states at all. -/
theorem pre_ne_nil_of_evaluate (h : e.evaluate item = .ok post) (hpost : post.isBottom = false) :
    item.pre.states ≠ [] := by
  intro hnil
  obtain ⟨fresh, hfresh, h⟩ := except_bind_eq_ok.mp h
  have hempty : fresh = ⟨[]⟩ := by
    obtain ⟨states, hstates, hfresh⟩ := except_bind_eq_ok.mp hfresh
    rw [hnil] at hstates
    cases hstates
    cases hfresh
    rfl
  have hbottom : post = ⟨[]⟩ := by
    rw [hempty] at h
    unfold postOf at h
    split at h
    · cases h
      rfl
    · cases h
      rfl
  rw [hbottom] at hpost
  cases hpost

omit [DecidableEq L] in
theorem PostPart.evaluates_of_enters (hc : e.Coherent) (hs : e.Orderly s)
    (hget : s.items.get id = .ok item) (h : e.PostPart id item s post summaries)
    (henters : e.transitions.entersScope item.action = true) : e.evaluate item = .ok post := by
  cases h with
  | interpreted _ hpost => exact hpost
  | summarised hsummary =>
    rw [hc.standIn_enters (hs.standing id item _ hget hsummary)] at henters
    cases henters

/-- A new scope is entered from the layer of its call. -/
theorem Backed.below_new (hc : e.Coherent) (h : e.Backed F s) (hid : id ∈ s.pending)
    (hget : s.items.get id = .ok item) (henters : e.transitions.entersScope item.action = true)
    (hfinal : final = (e.advanced item).enterScope item.action ⟨s.layers.size⟩ item.pre widened) :
    (F.extend s.layers.size ⟨final.scopes, final.loops⟩).Below (fun _ _ => True)
      item.currentLayer ⟨s.layers.size⟩ ⟨item.action, ⟨s.layers.size⟩, item.pre, widened,
        (e.advanced item).loops.length⟩ := by
  obtain ⟨layer, hwithin⟩ := h.framed.advanced hid hget (fun _ _ _ => trivial)
    fun _ _ _ _ => trivial
  have hF : F.WellFormed (fun _ _ => True) s.layers.size :=
    h.framed.wellFormed.mono (fun _ _ _ => trivial) fun _ _ => rfl
  have hlayer := hwithin.currentLayer hF
  rw [advanced_currentLayer, landing_of_enters hc.separate henters] at hlayer
  rw [hlayer]
  exact (hF.enter hwithin hfinal).2.2

/-- The states after a call are answered by an activation. -/
theorem Outcome.answered (hc : e.Coherent) (hs' : e.Orderly s') (hbacked : e.Backed F s)
    (hid : id ∈ s.pending) (hget : s.items.get id = .ok item)
    (hsize : s.layers.size ≤ s'.layers.size)
    (h : e.Outcome id item post s exits final new s') {added : List (ItemId × Item L A S)}
    (hframe : Frame id final added s s')
    (henters : e.transitions.entersScope item.action = true) :
    post.isBottom = true ∨ ∃ layer scope,
      Answered (F.extend s.layers.size ⟨final.scopes, final.loops⟩) s' item post layer scope := by
  cases h with
  | infeasible hpost => exact .inl hpost
  | dropped _ hstays =>
    rw [henters] at hstays
    cases hstays
  | @waits layer entry _ _ hentry hcovers hfinal hexits =>
    -- The activation is on the scope stack of the call itself.
    obtain ⟨-, layer', hwithin⟩ := hbacked.framed.within_of_enters hc.separate hid hget henters
    obtain ⟨own, hown, haction, rfl, rfl⟩ := Item.latestEntry_mem hentry
    rw [hwithin.scopes] at hown
    obtain ⟨hle, -, hhead, -⟩ := hbacked.framed.wellFormed.scopes_of_mem hwithin.lt hown
    have hlt := hle.trans_lt hwithin.lt
    have hcall : id ∈ (s'.exits.activation own.layer).calls := by
      rw [hexits]
      exact Exits.mem_calls_subscribe
    have hheld := Exits.held_pos_of_call hcall
    obtain ⟨c, hlive⟩ := hs'.tidy.live_of_held (j := id) (by omega)
    have hsame := hframe.get_final (hs'.tidy.not_pending (by omega)) hlive
    obtain ⟨loops, hfinal⟩ := hfinal
    rw [hsame] at hlive
    refine .inr ⟨own.layer, own, hlt.trans_le hsize, ?_, haction, hcovers,
      .waits hcall hlive ?_ ?_ ?_ ?_⟩
    · rw [Contexts.extend_of_lt hlt]
      exact hhead
    all_goals rw [hfinal]
  | passed hstores hcovers =>
    obtain ⟨hfinal, hsize'⟩ := hstores.entered henters
    have hbelow := hbacked.below_new hc hid hget henters hfinal
    refine .inr ⟨⟨s.layers.size⟩, _, ?_, ?_, rfl, hcovers, .entered hbelow rfl⟩
    · rw [hsize']
      exact Nat.lt_succ_self _
    · rw [hbelow.scopes]
      rfl

/-- Calls that wait have states before them, after a pass as before. -/
theorem Covering.calls_pass (hc : e.Coherent) (hs : e.Orderly s) (hs' : e.Orderly s')
    (h : e.Covering F W s) (hpass : e.Pass id item post final s s') (k : ItemId)
    (hcall : k ∈ (s'.exits.activation layer).calls) (c : Item L A S)
    (hk : s'.items.get k = .ok c) : c.pre.states ≠ [] := by
  have hpass' := hpass
  cases hpass with
  | @intro worklist exits summaries handed new added hpop hget hexit hpost hend hadded hframe =>
    obtain hold | ⟨rfl, -⟩ := hend.calls_mem.2 layer k hcall
    · rw [hexit.exits_mem.1] at hold
      have hheld := Exits.held_pos_of_call hold
      obtain ⟨c', hc'⟩ := hs.tidy.live_of_held (j := k) (by omega)
      rw [hpass'.get_call hs hs' hold hc'] at hk
      cases hk
      exact h.calls layer k hold c hc'
    · rw [hpass'.get_waiting hs' hcall] at hk
      cases hk
      obtain hexits | ⟨_, hbottom, henters, -⟩ := hend.subscribed
      · rw [hexits, hexit.exits_mem.1] at hcall
        have hid := Worklist.mem_of_pop hpop
        have hheld := Exits.held_pos_of_call hcall
        exact absurd hid (hs.tidy.not_pending (by omega))
      · have hevaluates := hpost.evaluates_of_enters hc hs hget henters
        have hpre : final.pre = item.pre := by
          obtain ⟨_, _, hfinal⟩ := hend.final_eq
          rw [hfinal]
        rw [hpre]
        exact pre_ne_nil_of_evaluate hevaluates hbottom

section Delivering

variable [LawfulState S]

omit [DecidableEq A] in
theorem Delivered.of_isSubset {layers : Layers L A S} {action : A} {scope : Option A}
    {d d' : Disjunction S} (h : e.Delivered W layers layer action scope d')
    (hsub : d.isSubset d' = true) : e.Delivered W layers layer action scope d := by
  intro t ht hbottom
  obtain ⟨t', ht', hbelow⟩ := Disjunction.isSubset_iff.mp hsub t ht
  obtain ⟨⟨stored, hstored, hcovers⟩, hcarried⟩ :=
    h t' ht' (Disjunction.not_isBottom_of_below hbelow hbottom)
  refine ⟨⟨stored, hstored, hcovers.of_below hbelow⟩, fun b hb => ?_⟩
  obtain ⟨i, hi, hreturned, hlayer, horigin, hcarries⟩ := hcarried b hb
  exact ⟨i, hi, hreturned, hlayer, horigin, hcarries.of_below hbelow⟩

omit [DecidableEq L] in
theorem carries_successorOf (action : A) {t : S} (ht : t ∈ widened.states) :
    (e.successorOf summaries id item widened action).Carries item.currentLayer action t := by
  obtain ⟨action', summary, hshape⟩ := e.successorOf_eq summaries id item widened action
  refine ⟨?_, ?_, origin_successorOf action, ?_⟩
  · rw [hshape]
    rfl
  · rw [hshape]
    rfl
  · rw [hshape]
    exact Disjunction.covers_of_mem ht

/-- States that are stored with successors are delivered. -/
theorem Stores.delivered (hlaws : e.domain.Lawful) (h : e.Stores item post final widened s s')
    (hnew : ∀ b ∈ e.goesOn final, e.successorOf s'.summaries id final widened b ∈ W) :
    e.Delivered W s'.layers final.currentLayer final.action final.currentScope widened := by
  intro t ht hbottom
  obtain ⟨stored, hstored, hsub⟩ := h.holds hlaws
  rw [h.action_eq]
  refine ⟨⟨stored, hstored, Disjunction.isSubset_iff.mp hsub t ht⟩, fun b hb => ?_⟩
  have hb' : b ∈ e.goesOn final := by
    unfold goesOn
    rw [h.action_eq]
    exact hb
  exact ⟨_, hnew b hb', carries_successorOf b ht⟩

variable (e) in
/-- If an item is dropped because what is stored covers the states after its action, then items of
`W` carry these states along all actions that follow. -/
def DropsFreely (W : Set (Item L A S)) (layers : Layers L A S) (item : Item L A S)
    (post : Disjunction S) : Prop :=
  e.transitions.entersScope item.action = false → e.covers layers item post = .ok true →
    ∀ t ∈ post.states, isBottom t = false → ∀ b ∈ e.goesOn (e.advanced item),
      ∃ i ∈ W, i.Carries (e.landing item) b t

/-- The states after an action that enters no scope are delivered. -/
theorem Outcome.delivered (hlaws : e.domain.Lawful) (hgrown : s.layers.Grown s'.layers)
    (h : e.Outcome id item post s exits final new s')
    (hstays : e.transitions.entersScope item.action = false) (hW : W ⊆ W')
    (hnew : ∀ i ∈ new, i ∈ W') (hfree : e.DropsFreely W s.layers item post) :
    e.Delivered W' s'.layers (e.landing item) item.action (e.advanced item).currentScope post := by
  cases h with
  | infeasible hpost =>
    intro t ht hbottom
    rw [Disjunction.isBottom_iff.mp hpost t ht] at hbottom
    cases hbottom
  | dropped _ _ hcovered =>
    intro t ht hbottom
    obtain ⟨stored, hstored, hsub⟩ := (holds_of_covers hstays hcovered).grown hgrown
    refine ⟨⟨stored, hstored, Disjunction.isSubset_iff.mp hsub t ht⟩, fun b hb => ?_⟩
    have hb' : b ∈ e.goesOn (e.advanced item) := by
      unfold goesOn
      rw [advanced_action]
      exact hb
    obtain ⟨i, hi, hcarries⟩ := hfree hstays hcovered t ht hbottom b hb'
    exact ⟨i, hW hi, hcarries⟩
  | waits _ henters =>
    rw [hstays] at henters
    cases henters
  | passed hstores hcovers hgo =>
    have hdelivered := hstores.delivered hlaws fun b hb => hnew _ (hgo b hb)
    obtain ⟨rfl, -⟩ := hstores.stayed hstays
    rw [advanced_currentLayer, advanced_action] at hdelivered
    exact hdelivered.of_isSubset hcovers

/-- The entry states of activations are delivered, that of a new one included. -/
theorem Covering.entries_pass (hc : e.Coherent) (hlaws : e.domain.Lawful) (hs : e.Orderly s)
    (h : e.Covering F W s) (hid : id ∈ s.pending) (hget : s.items.get id = .ok item)
    (hpost : e.PostPart id item s post summaries)
    (hend : e.EndPart id item post s exits summaries final new s') (hW : W ⊆ W')
    (hnew : ∀ i ∈ new, i ∈ W') (layer : LayerId) (hlayer : layer.index < s'.layers.size) :
    ∀ scope ∈ (F.extend s.layers.size ⟨final.scopes, final.loops⟩ layer).scopes.head?,
      scope.before.states ≠ [] ∧
        e.Delivered W' s'.layers layer scope.action (some scope.action) scope.entry := by
  by_cases hold : layer.index < s.layers.size
  · rw [Contexts.extend_of_lt hold]
    intro scope hscope
    obtain ⟨hbefore, hdelivered⟩ := h.entries layer hold scope hscope
    exact ⟨hbefore, hdelivered.mono hW (hend.grown h.backed.proper).1⟩
  -- A new layer is created for states that enter a scope and are passed on, and not otherwise.
  · have hgrows : s'.layers.size = s.layers.size → False := fun hsize => hold (hsize ▸ hlayer)
    cases h.backed.outcome hc hlaws hid hget hend with
    | infeasible _ _ hsize => exact (hgrows hsize).elim
    | dropped _ _ _ _ hsize => exact (hgrows hsize).elim
    | waits _ _ _ _ _ _ hsize => exact (hgrows hsize).elim
    | passed hstores _ hgo =>
      cases hkind : e.transitions.entersScope item.action with
      | false => exact (hgrows (hstores.stayed hkind).2).elim
      | true =>
        obtain ⟨hfinal, hsize⟩ := hstores.entered hkind
        have heq : layer = ⟨s.layers.size⟩ := by
          cases layer
          simp only [LayerId.mk.injEq]
          simp only at hold hlayer
          omega
        have hdelivered := hstores.delivered hlaws fun b hb => hnew _ (hgo b hb)
        have haction := hstores.action_eq
        rw [heq, Contexts.extend_self]
        intro scope hscope
        rw [hfinal] at hscope hdelivered haction
        cases hscope
        have hevaluates := hpost.evaluates_of_enters hc hs hget hkind
        refine ⟨pre_ne_nil_of_evaluate hevaluates hstores.1, ?_⟩
        rw [haction] at hdelivered
        exact hdelivered

/-- Every pass keeps deliveries up, if it drops items freely. -/
theorem Covering.pass (hc : e.Coherent) (hlaws : e.domain.Lawful) (hs : e.Orderly s)
    (hs' : e.Orderly s') (h : e.Covering F W s) (hpass : e.Pass id item post final s s')
    (hfree : e.DropsFreely W s.layers item post) (hW : W ⊆ W')
    (hnew : ∀ i, s'.Waits i → i ∈ W') (honly : ∀ i ∈ W', i ∈ W ∨ s'.Waits i) :
    e.Covering (F.extend s.layers.size ⟨final.scopes, final.loops⟩) W' s' := by
  have hbacked := h.backed.pass hc hs hs' hpass fun _ hstores => hstores.holds hlaws
  have hgrown := hpass.grown h.backed.proper
  have hF : ∀ j : LayerId, j.index < s.layers.size →
      F.extend s.layers.size ⟨final.scopes, final.loops⟩ j = F j :=
    fun _ hj => Contexts.extend_of_lt hj
  have hpass' := hpass
  cases hpass with
  | @intro worklist exits summaries handed new added hpop hget hexit hpost hend hadded hframe =>
    have hid : id ∈ s.pending := Worklist.mem_of_pop hpop
    have hnew' : ∀ i ∈ new, i ∈ W' := fun i hi =>
      hnew i (hframe.waits_of_mem hadded (List.mem_append_right _ hi))
    refine ⟨hbacked, ?_, hnew, ?_, ?_, ?_, ?_, ?_⟩
    · intro i hi hreturned
      obtain hi | ⟨j, hj, hi⟩ := honly i hi
      · obtain ⟨layer, hwithin⟩ := h.within i hi hreturned
        exact ⟨layer, hwithin.mono (fun _ _ hl => hl) hF hgrown.size_le⟩
      · obtain ⟨layer, hwithin⟩ := hbacked.framed.live j i hi hreturned
        exact ⟨layer, hwithin.mono (fun _ _ _ => trivial) (fun _ _ => rfl) le_rfl⟩
    · intro i hi r hsummary
      obtain hi | ⟨j, -, hi⟩ := honly i hi
      · exact h.standing i hi r hsummary
      · exact hs'.standing j i r hi hsummary
    · intro i hi hsummary
      obtain hi | hwaits := honly i hi
      · obtain ⟨j, hj, hgetj⟩ | ⟨d, hdone⟩ := h.done i hi hsummary
        -- An item that waited is processed now, or waits still.
        · by_cases hne : j = id
          · subst hne
            rw [hget] at hgetj
            cases hgetj
            have houtcome := h.backed.outcome hc hlaws hj hget hend
            have hevaluates : e.evaluate item = .ok post := by
              cases hpost with
              | interpreted _ hpost => exact hpost
              | summarised hsome =>
                rw [hsummary] at hsome
                cases hsome
            refine .inr ⟨post, hevaluates, fun henters => ?_, fun hstays => ?_, ?_⟩
            · exact houtcome.answered hc hs' h.backed hj hget hgrown.size_le hframe henters
            · exact houtcome.delivered hlaws hgrown hstays hW hnew' hfree
            · intro hleaves hreturned t ht hbottom
              rw [hend.calls_mem.1]
              exact hexit.leads_item hlaws hleaves hreturned ht hbottom
          · exact .inl ⟨j, (hframe.mem_pending j).mpr (.inl ⟨hj, hne⟩),
              hframe.kept j i hj hne hgetj⟩
        · exact .inr ⟨d, hdone.pass hlaws hs hs' hpass' h.backed.proper hW hF⟩
      · exact .inl hwaits
    · exact h.entries_pass hc hlaws hs hid hget hpost hend hW hnew'
    · exact fun layer k hcall c hk => h.calls_pass hc hs hs' hpass' k hcall c hk
    · exact h.informed.pass hs hs' hpass' hW hnew

end Delivering

/-! ## §5. Whole computations deliver. -/

variable (e) in
/-- The items that were on the worklist at some time during the first `n` passes. -/
def seen (starts : List L) (n : Nat) : Set (Item L A S) :=
  { i | ∃ m ≤ n, ∃ s, e.stateAfter starts m = some s ∧ s.Waits i }

variable (e) in
/-- The next item is taken up; `post` are the states after its action. -/
def TakesUp (s : RunState L A S) (item : Item L A S) (post : Disjunction S) : Prop :=
  ∃ id worklist t, s.worklist.pop = some (id, worklist) ∧ s.items.get id = .ok item ∧
    e.takeUp id item (taken worklist s) = .ok post t

variable (e) in
/-- Whenever an item is dropped because what is stored covers the states after its action, each of
these states was carried along every action that follows by some item before. -/
def LossFree (starts : List L) : Prop :=
  ∀ n s item post, e.stateAfter starts n = some s → e.TakesUp s item post →
    e.DropsFreely (e.seen starts n) s.layers item post

theorem seen_cases {starts : List L} {n : Nat} {i : Item L A S}
    (hs : e.stateAfter starts (n + 1) = some s) (hi : i ∈ e.seen starts (n + 1)) :
    i ∈ e.seen starts n ∨ s.Waits i := by
  obtain ⟨m, hm, t, ht, hwaits⟩ := hi
  obtain hm | rfl := Nat.le_succ_iff.mp hm
  · exact .inl ⟨m, hm, t, ht, hwaits⟩
  · rw [hs] at ht
    cases ht
    exact .inr hwaits

theorem seen_mono (e : Engine L A S) (starts : List L) (n : Nat) :
    e.seen starts n ⊆ e.seen starts (n + 1) := by
  rintro i ⟨m, hm, s, hs, hwaits⟩
  exact ⟨m, Nat.le_succ_of_le hm, s, hs, hwaits⟩

theorem Pass.takesUp (h : e.Pass id item post final s s') : e.TakesUp s item post := by
  cases h with
  | intro hpop hget _ _ _ _ _ _ _ htake =>
    obtain ⟨t, htake⟩ := htake
    exact ⟨id, _, t, hpop, hget, htake⟩

/-- Nothing has to be delivered before the first pass. -/
theorem covering_of_seed {starts : List L} (hbacked : e.Backed F s)
    (hseed : e.seed starts (.start e.options) = .ok () s) (hs : e.Orderly s)
    (hwaits : ∀ i, i ∈ W ↔ s.Waits i) : e.Covering F W s := by
  have hpristine := pristine_of_seed hseed
  refine ⟨hbacked, ?_, fun i => (hwaits i).mpr, ?_, fun i hi _ => .inl ((hwaits i).mp hi), ?_, ?_,
    ?_⟩
  · intro i hi hreturned
    obtain ⟨j, hj, hget⟩ := (hwaits i).mp hi
    obtain ⟨layer, hwithin⟩ := hbacked.framed.live j i hget hreturned
    exact ⟨layer, hwithin.mono (fun _ _ _ => trivial) (fun _ _ => rfl) le_rfl⟩
  · intro i hi r hsummary
    obtain ⟨j, -, hget⟩ := (hwaits i).mp hi
    exact hs.standing j i r hget hsummary
  · intro layer hlayer scope hscope
    rw [hpristine.size, Nat.lt_one_iff] at hlayer
    have hroot : layer = Layers.root := by
      cases layer
      exact congrArg LayerId.mk hlayer
    rw [hroot, hbacked.framed.wellFormed.root_scopes] at hscope
    cases hscope
  · intro layer k hcall
    rw [hpristine.exits] at hcall
    cases hcall
  · intro layer k hcall
    rw [hpristine.exits] at hcall
    cases hcall

variable [LawfulState S] in
/-- A computation that is free of losses delivers all states. -/
theorem LossFree.covering {starts : List L} {n : Nat} (hc : e.Coherent)
    (hlaws : e.domain.Lawful) (hfree : e.LossFree starts)
    (hs : e.stateAfter starts n = some s) :
    e.Orderly s ∧ ∃ F, e.Covering F (e.seen starts n) s := by
  induction n generalizing s with
  | zero =>
    obtain ⟨hordered, F, hbacked⟩ := (reachable_of_stateAfter hs).backed hc hlaws
    refine ⟨hordered, F, covering_of_seed hbacked (stateAfter_zero.mp hs) hordered
      fun i => ⟨?_, fun hwaits => ⟨0, le_rfl, s, hs, hwaits⟩⟩⟩
    rintro ⟨m, hm, t, ht, hwaits⟩
    rw [Nat.le_zero.mp hm, hs] at ht
    cases ht
    exact hwaits
  | succ n ih =>
    have hs' := hs
    obtain ⟨t, ht, hiterate⟩ := iterate_of_stateAfter hs
    obtain ⟨hordered, F, hcovering⟩ := ih ht
    obtain ⟨hordered', id, item, post, final, hpass⟩ := hordered.pass hiterate
    exact ⟨hordered', _, hcovering.pass hc hlaws hordered hordered' hpass
      (hfree n t item post ht hpass.takesUp) (e.seen_mono starts n)
      (fun i hwaits => ⟨n + 1, le_rfl, _, hs', hwaits⟩) fun i => seen_cases hs'⟩

/-! ## §6. Checking a computation. -/

variable {starts : List L} {n : Nat}

theorem exists_stateAfter {k : Nat} (h : e.stateAfter starts (n + k) = some s') :
    ∃ s, e.stateAfter starts n = some s := by
  induction k generalizing s' with
  | zero => exact ⟨s', h⟩
  | succ k ih =>
    obtain ⟨s, hs, -⟩ := iterate_of_stateAfter h
    exact ih hs

/-- The pass after which a later state comes. -/
theorem iterate_of_later {k : Nat} (hs : e.stateAfter starts n = some s)
    (hs' : e.stateAfter starts (n + (k + 1)) = some s') :
    ∃ s₁, e.iterate s = .ok true s₁ ∧ e.stateAfter starts (n + 1) = some s₁ ∧
      e.stateAfter starts (n + 1 + k) = some s' := by
  have hlater : e.stateAfter starts (n + 1 + k) = some s' := by
    rw [← hs']
    congr 1
    omega
  obtain ⟨s₁, hs₁⟩ := exists_stateAfter hlater
  obtain ⟨t, ht, hiterate⟩ := iterate_of_stateAfter hs₁
  rw [hs] at ht
  cases ht
  exact ⟨s₁, hiterate, hs₁, hlater⟩

/-- The items on the worklist. -/
def waiting (s : RunState L A S) : List (Item L A S) :=
  s.pending.filterMap fun j => (s.items.get j).toOption

omit [DecidableEq L] [DecidableEq A] [AbstractState S] in
theorem waits_of_mem_waiting {i : Item L A S} (h : i ∈ waiting s) : s.Waits i := by
  obtain ⟨j, hj, hi⟩ := List.mem_filterMap.mp h
  cases hget : s.items.get j with
  | error cause =>
    rw [hget] at hi
    cases hi
  | ok i' =>
    rw [hget] at hi
    cases hi
    exact ⟨j, hj, hget⟩

/-- Whether one of the items carries a state along an action in a layer. -/
def carriedBy (seen : List (Item L A S)) (layer : LayerId) (action : A) (t : S) : Bool :=
  seen.any fun i => decide (i.returned = false ∧ i.currentLayer = layer ∧ i.origin = action) &&
    i.pre.states.any fun u => isBelow t u

omit [DecidableEq L] in
theorem exists_of_carriedBy {seen : List (Item L A S)} {action : A} {t : S}
    (h : carriedBy seen layer action t = true) : ∃ i ∈ seen, i.Carries layer action t := by
  obtain ⟨i, hi, hcarries⟩ := List.any_eq_true.mp h
  rw [Bool.and_eq_true, decide_eq_true_iff, List.any_eq_true] at hcarries
  obtain ⟨⟨hreturned, hlayer, horigin⟩, hcovers⟩ := hcarries
  exact ⟨i, hi, hreturned, hlayer, horigin, hcovers⟩

variable (e) in
/-- Whether the next item is dropped freely, given items that were seen. -/
def nextDropsFreely (seen : List (Item L A S)) (s : RunState L A S) : Bool :=
  match s.worklist.pop with
  | none => true
  | some (id, worklist) =>
    match s.items.get id with
    | .error _ => true
    | .ok item =>
      match e.takeUp id item (taken worklist s) with
      | .error _ _ => true
      | .ok post _ =>
        e.transitions.entersScope item.action ||
        (e.covers s.layers item post).toOption != some true ||
        post.states.all fun t => isBottom t ||
          (e.goesOn (e.advanced item)).all fun b => carriedBy seen (e.landing item) b t

theorem dropsFreely_of_next {seen : List (Item L A S)} (h : e.nextDropsFreely seen s = true)
    (hseen : ∀ i ∈ seen, i ∈ W) (htakes : e.TakesUp s item post) :
    e.DropsFreely W s.layers item post := by
  obtain ⟨id, worklist, t, hpop, hget, htake⟩ := htakes
  intro hstays hcovered u hu hproper b hb
  unfold nextDropsFreely at h
  rw [hpop] at h
  dsimp only at h
  rw [hget] at h
  dsimp only at h
  rw [htake] at h
  dsimp only at h
  rw [hstays, hcovered, Bool.false_or, Bool.or_eq_true] at h
  obtain h | h := h
  · cases h
  · have hall := List.all_eq_true.mp h u hu
    rw [hproper, Bool.false_or] at hall
    obtain ⟨i, hi, hcarries⟩ := exists_of_carriedBy (List.all_eq_true.mp hall b hb)
    exact ⟨i, hseen i hi, hcarries⟩

variable (e) in
/-- Whether a check of the items that were seen and of the state succeeds before each of the next
passes, until no item is left. -/
def throughout (check : List (Item L A S) → RunState L A S → Bool) :
    Nat → List (Item L A S) → RunState L A S → Bool
  | 0, seen, s => check seen s && s.worklist.pop.isNone
  | k + 1, seen, s => check seen s &&
    match e.iterate s with
    | .ok true s' => throughout check k (waiting s' ++ seen) s'
    | _ => true

theorem check_of_throughout {check : List (Item L A S) → RunState L A S → Bool} {k : Nat}
    {seen : List (Item L A S)} (h : e.throughout check k seen s = true)
    (hs : e.stateAfter starts n = some s) (hseen : ∀ i ∈ seen, i ∈ e.seen starts n) {d : Nat}
    (hs' : e.stateAfter starts (n + d) = some s') :
    ∃ seen', (∀ i ∈ seen', i ∈ e.seen starts (n + d)) ∧ check seen' s' = true := by
  induction d generalizing s n k seen with
  | zero =>
    rw [Nat.add_zero, hs] at hs'
    cases hs'
    refine ⟨seen, hseen, ?_⟩
    cases k with
    | zero => exact (Bool.and_eq_true _ _ ▸ h).1
    | succ k => exact (Bool.and_eq_true _ _ ▸ h).1
  | succ d ih =>
    obtain ⟨s₁, hiterate, hs₁, hlater⟩ := iterate_of_later hs hs'
    cases k with
    | zero =>
      -- The worklist is empty, so there is no next pass.
      have hempty := Option.isNone_iff_eq_none.mp (Bool.and_eq_true _ _ ▸ h).2
      obtain ⟨hfalse, -⟩ | ⟨-, _, _, _, _, _, _, hpop, -⟩ := iterate_ok hiterate
      · cases hfalse
      · rw [hempty] at hpop
        cases hpop
    | succ k =>
      have hrest := (Bool.and_eq_true _ _ ▸ h).2
      rw [hiterate] at hrest
      rw [show n + (d + 1) = n + 1 + d by omega]
      refine ih hrest hs₁ (fun i hi => ?_) hlater
      obtain hi | hi := List.mem_append.mp hi
      · exact ⟨n + 1, le_rfl, s₁, hs₁, waits_of_mem_waiting hi⟩
      · exact e.seen_mono starts n (hseen i hi)

variable (e) in
/-- Whether a check succeeds throughout a computation of at most `budget` passes. -/
def holdsThroughout (check : List (Item L A S) → RunState L A S → Bool) (budget : Nat)
    (starts : List L) : Bool :=
  (e.stateAfter starts 0).all fun s => e.throughout check budget (waiting s) s

theorem check_of_holdsThroughout {check : List (Item L A S) → RunState L A S → Bool} {budget : Nat}
    (h : e.holdsThroughout check budget starts = true) (hs : e.stateAfter starts n = some s) :
    ∃ seen, (∀ i ∈ seen, i ∈ e.seen starts n) ∧ check seen s = true := by
  have hn : e.stateAfter starts (0 + n) = some s := by rw [Nat.zero_add]; exact hs
  obtain ⟨s₀, hs₀⟩ := exists_stateAfter hn
  have hfrom : e.throughout check budget (waiting s₀) s₀ = true := by
    unfold holdsThroughout at h
    rw [hs₀] at h
    exact h
  have hchecked := check_of_throughout hfrom hs₀
    (fun i hi => ⟨0, le_rfl, s₀, hs₀, waits_of_mem_waiting hi⟩) hn
  rw [Nat.zero_add] at hchecked
  exact hchecked

/-- A computation that is checked to drop items freely is free of losses. -/
theorem lossFree_of_holdsThroughout {budget : Nat}
    (h : e.holdsThroughout e.nextDropsFreely budget starts = true) : e.LossFree starts := by
  intro n s item post hs htakes
  obtain ⟨seen, hseen, hnext⟩ := check_of_holdsThroughout h hs
  exact dropsFreely_of_next hnext hseen htakes

end Engine

end Interproc
