/-
  Interproc.Proofs.Safety
  ───────────────────────
  Computations never fail on their own.  Items are counted right, layers and
  summaries are never taken away, the loops that an item sets aside when it enters
  a scope are still there when it leaves it, and predecessors never lead in a
  circle.  This holds whatever the parts of the engine answer.

  Main result: `Engine.excused_of_error` — a computation that ends without an
  answer was stopped by the timer, the domain, the declarations or the second
  opinion.
-/
import Mathlib
import Interproc.Proofs.Accounting
import Interproc.Proofs.Failures
import Interproc.Proofs.Summaries

namespace Interproc

variable {L A S : Type}

/-! ## §1. Scopes and loops of an item. -/

/-- Each scope was entered with at least as many active loops as the scopes around it, and with no
more than are active now. -/
def Item.DepthsOrdered (item : Item L A S) : Prop :=
  (item.loops.length :: item.scopes.map Scope.loopDepth).Pairwise (· ≥ ·)

namespace Item.DepthsOrdered

variable {item : Item L A S}

/-- No loop of an outer scope is missing. -/
theorem loopDepth_le (h : item.DepthsOrdered) : item.loopDepth ≤ item.loops.length := by
  unfold DepthsOrdered at h
  unfold Item.loopDepth
  cases hscopes : item.scopes with
  | nil => exact Nat.zero_le _
  | cons scope outer =>
    rw [hscopes] at h
    exact (List.pairwise_cons.mp h).1 _ List.mem_cons_self

theorem enterScope (h : item.DepthsOrdered) (action : A) (layer : LayerId)
    (before entry : Disjunction S) :
    (item.enterScope action layer before entry).DepthsOrdered := by
  refine List.pairwise_cons.mpr ⟨fun d hd => ?_, h⟩
  obtain rfl | hd := List.mem_cons.mp hd
  · exact le_rfl
  · exact (List.pairwise_cons.mp h).1 d hd

/-- The loops of the innermost scope may be replaced. -/
theorem withLoops (h : item.DepthsOrdered) (loops : List (ActiveLoop L S)) :
    DepthsOrdered { item with loops := item.loops.take item.loopDepth ++ loops } := by
  have hdepth := h.loopDepth_le
  obtain ⟨-, htail⟩ := List.pairwise_cons.mp h
  refine List.pairwise_cons.mpr ⟨fun d hd => ?_, htail⟩
  have hd : d ∈ item.scopes.map Scope.loopDepth := hd
  show d ≤ (item.loops.take item.loopDepth ++ loops).length
  rw [List.length_append, List.length_take_of_le hdepth]
  refine le_trans ?_ (Nat.le_add_right _ _)
  unfold Item.loopDepth
  cases hscopes : item.scopes with
  | nil =>
    rw [hscopes] at hd
    cases hd
  | cons scope outer =>
    rw [hscopes] at hd htail
    obtain rfl | hd := List.mem_cons.mp hd
    · exact le_rfl
    · exact (List.pairwise_cons.mp htail).1 d hd

/-- Leaving a scope restores the loops that were active when it was entered. -/
theorem leave {scope : Scope A S} {outer : List (Scope A S)} (h : item.DepthsOrdered)
    (hscopes : item.scopes = scope :: outer) : DepthsOrdered { item with
      scopes := outer, loops := item.loops.take scope.loopDepth } := by
  unfold DepthsOrdered at h
  rw [hscopes] at h
  obtain ⟨hfirst, hrest⟩ := List.pairwise_cons.mp h
  have hlength : (item.loops.take scope.loopDepth).length = scope.loopDepth :=
    List.length_take_of_le (hfirst _ List.mem_cons_self)
  show ((item.loops.take scope.loopDepth).length :: outer.map Scope.loopDepth).Pairwise (· ≥ ·)
  rw [hlength]
  exact hrest

end Item.DepthsOrdered

/-- The scopes of an item belong to the first `n` layers, and each was entered with at least as
many active loops as the scopes around it, and with no more than are active now. -/
structure Item.Nested (n : Nat) (item : Item L A S) : Prop where
  root : item.rootLayer = Layers.root
  layers : ∀ scope ∈ item.scopes, scope.layer.index < n
  depths : (item.loops.length :: item.scopes.map Scope.loopDepth).Pairwise (· ≥ ·)

namespace Item.Nested

variable {n n' : Nat} {item item' : Item L A S} {layer : LayerId}

theorem mono (h : item.Nested n) (hn : n ≤ n') : item.Nested n' :=
  ⟨h.root, fun scope hscope => (h.layers scope hscope).trans_le hn, h.depths⟩

theorem congr (h : item.Nested n) (hroot : item'.rootLayer = item.rootLayer)
    (hscopes : item'.scopes = item.scopes) (hloops : item'.loops = item.loops) :
    item'.Nested n := by
  refine ⟨hroot.trans h.root, ?_, ?_⟩
  · rw [hscopes]
    exact h.layers
  · rw [hscopes, hloops]
    exact h.depths

theorem loopDepth_le (h : item.Nested n) : item.loopDepth ≤ item.loops.length :=
  DepthsOrdered.loopDepth_le h.depths

theorem currentLayer_lt (h : item.Nested n) (hn : 0 < n) : item.currentLayer.index < n := by
  have hlayers := h.layers
  unfold Item.currentLayer
  cases hscopes : item.scopes with
  | nil =>
    show item.rootLayer.index < n
    rw [h.root]
    exact hn
  | cons scope outer =>
    rw [hscopes] at hlayers
    exact hlayers scope List.mem_cons_self

theorem callerLayer_lt (h : item.Nested n) (hn : 0 < n) : item.callerLayer.index < n := by
  have hlayers := h.layers
  unfold Item.callerLayer
  split
  · rename_i caller outer hscopes
    rw [hscopes] at hlayers
    exact hlayers caller (List.mem_cons_of_mem _ List.mem_cons_self)
  · rw [h.root]
    exact hn

theorem initial (action : A) (pre : Disjunction S) :
    (Item.initial action pre Layers.root : Item L A S).Nested n where
  root := rfl
  layers := fun scope hscope => by cases hscope
  depths := List.pairwise_singleton _ _

theorem enterScope (h : item.Nested n) (hlayer : layer.index < n) (action : A)
    (before entry : Disjunction S) : (item.enterScope action layer before entry).Nested n where
  root := h.root
  layers := by
    intro scope hscope
    obtain rfl | hscope := List.mem_cons.mp hscope
    · exact hlayer
    · exact h.layers scope hscope
  depths := DepthsOrdered.enterScope h.depths action layer before entry

theorem returning {call : Item L A S} (h : call.Nested n) (hlayer : layer.index < n)
    (state : Disjunction S) (action : A) (predecessor : Option ItemId) :
    (Item.returning state action predecessor call layer).Nested n := by
  have hcontext : Item.Nested n { call with
      action := action, pre := state, predecessor := predecessor, summary := none
      returned := true } := h.congr rfl rfl rfl
  exact hcontext.enterScope hlayer call.action call.pre call.pre

theorem withLoops (h : item.Nested n) (loops : List (ActiveLoop L S)) :
    Item.Nested n { item with loops := item.loops.take item.loopDepth ++ loops } :=
  ⟨h.root, h.layers, DepthsOrdered.withLoops h.depths loops⟩

theorem leave {scope : Scope A S} {outer : List (Scope A S)} (h : item.Nested n)
    (hscopes : item.scopes = scope :: outer) : Item.Nested n { item with
      scopes := outer, loops := item.loops.take scope.loopDepth } := by
  refine ⟨h.root, fun s hs => h.layers s ?_, DepthsOrdered.leave h.depths hscopes⟩
  rw [hscopes]
  exact List.mem_cons_of_mem scope hs

variable {e : Engine L A S}

theorem outside (h : item.Nested n) : (e.outside item).Nested n := by
  obtain hsame | ⟨scope, outer, hscopes, hout⟩ := e.outside_cases item
  · rw [hsame]
    exact h
  · rw [hout]
    exact h.leave hscopes

variable [DecidableEq L]

theorem track (h : item.Nested n) : (e.track item).Nested n := by
  unfold Engine.track
  split
  · rw [Item.enterLoop_eq]
    exact h.withLoops _
  · split
    · rw [Item.leaveLoop_eq]
      exact h.withLoops _
    · exact h

theorem advanced (h : item.Nested n) : (e.advanced item).Nested n := h.outside.track

theorem moves {final : Item L A S} (h : item.Nested n) (hmoves : e.Moves item n final n') :
    final.Nested n' := by
  cases hmoves with
  | advanced => exact h.advanced
  | entered => exact (h.advanced.mono (Nat.le_succ n)).enterScope (Nat.lt_succ_self n) _ _ _

end Item.Nested

/-! ## §2. Intact states. -/

variable [DecidableEq L] [DecidableEq A] [AbstractState S]

namespace Engine

variable {e : Engine L A S} {s s' : RunState L A S} {id : ItemId} {item final : Item L A S}
variable {post : Disjunction S} {exits : Exits A S} {summaries : Summaries A S}
variable {handed new : List (Item L A S)} {starts : List L}

/-- Whatever a live item refers to is there. -/
structure Intact (s : RunState L A S) : Prop where
  pos : 0 < s.layers.size
  nested : ∀ j i, s.items.get j = .ok i → i.Nested s.layers.size
  known : ∀ j i r, s.items.get j = .ok i → i.summary = some r →
    (s.summaries.post? r).isSome = true
  rooted : s.items.Rooted

omit [DecidableEq A] [AbstractState S] in
theorem Moves.size_le {n n' : Nat} (h : e.Moves item n final n') : n ≤ n' := by
  cases h with
  | advanced => exact le_rfl
  | entered => exact Nat.le_succ n

omit [DecidableEq L] in
theorem isSome_of_successorOf {widened : Disjunction S} {action : A} {r : SummaryRef A}
    (h : (e.successorOf summaries id final widened action).summary = some r) :
    (summaries.post? r).isSome = true := by
  unfold successorOf at h
  dsimp only at h
  split at h
  · rename_i summary standIn hknown _
    cases h
    split at hknown
    · exact Summaries.isSome_of_lookup hknown
    · cases hknown
  · cases h

namespace Intact

theorem final_nested (h : Intact s) (hget : s.items.get id = .ok item)
    (hend : e.EndPart id item post s exits summaries final new s') :
    s.layers.size ≤ s'.layers.size ∧ final.Nested s'.layers.size := by
  obtain ⟨hfinal, hlayers⟩ | hmoves := hend.final_cases
  · rw [hfinal, hlayers]
    exact ⟨le_rfl, h.nested id item hget⟩
  · exact ⟨hmoves.size_le, (h.nested id item hget).moves hmoves⟩

/-- The items that a pass puts on the worklist keep to the layers that there are. -/
theorem new_nested (h : Intact s) (hget : s.items.get id = .ok item)
    (hexit : e.ExitPart item s exits handed)
    (hend : e.EndPart id item post s exits summaries final new s') :
    (∀ i ∈ handed, i.Nested s'.layers.size) ∧ ∀ i ∈ new, i.Nested s'.layers.size := by
  obtain ⟨hsize, hfinal⟩ := h.final_nested hget hend
  refine ⟨fun i hi => ?_, fun i hi => ?_⟩
  · obtain ⟨call, -, exit, -, callItem, hcall, rfl⟩ := hexit.handed_eq hi
    have hlayer := (h.nested id item hget).currentLayer_lt h.pos
    exact ((h.nested call callItem hcall).mono hsize).returning (hlayer.trans_le hsize) _ _ _
  · obtain ⟨j, staleItem, p, q, -, -, hq, -, rfl⟩ | ⟨layer, x, entry, -, -, hentry, -, rfl⟩ |
      ⟨widened, -, action, -, rfl⟩ := hend.mem_new hi
    · exact ((h.nested p q hq).mono hsize).congr rfl rfl rfl
    · obtain ⟨scope, hscope, -, rfl, -⟩ := Item.latestEntry_mem hentry
      exact hfinal.returning (hfinal.layers scope hscope) _ _ _
    · obtain ⟨action', summary, hshape⟩ := e.successorOf_eq s'.summaries id final widened action
      rw [hshape]
      exact hfinal.congr rfl rfl rfl

theorem pass (hs' : s'.Tidy fun _ => 0) (hpass : e.Pass id item post final s s')
    (h : Intact s) : Intact s' := by
  cases hpass with
  | @intro worklist exits summaries handed new added hpop hget hexit hpost hend hadded hframe =>
    obtain ⟨hsize, hfinal⟩ := h.final_nested hget hend
    obtain ⟨hhanded, hnew⟩ := h.new_nested hget hexit hend
    obtain ⟨scopes, loops, hshape⟩ := hend.final_eq
    refine ⟨h.pos.trans_le hsize, fun j i hi => ?_, fun j i r hi hsummary => ?_, ?_⟩
    · obtain hmem | hmem | ⟨-, rfl⟩ | hold := hframe.live_cases hadded hi
      · exact hhanded i hmem
      · exact hnew i hmem
      · exact hfinal
      · exact (h.nested j i hold).mono hsize
    · obtain hmem | hmem | ⟨-, rfl⟩ | hold := hframe.live_cases hadded hi
      · obtain ⟨_, -, _, -, _, -, rfl⟩ := hexit.handed_eq hmem
        cases hsummary
      · obtain ⟨k, staleItem, p, q, hstale, -, -, -, rfl⟩ | ⟨layer, x, entry, -, -, -, -, rfl⟩ |
          ⟨widened, -, action, -, rfl⟩ := hend.mem_new hmem
        · exact known_pass hpost hend (h.known k staleItem r hstale hsummary)
        · cases hsummary
        · exact isSome_of_successorOf hsummary
      · rw [hshape] at hsummary
        exact known_pass hpost hend (h.known id item r hget hsummary)
      · exact known_pass hpost hend (h.known j i r hold hsummary)
    · refine h.rooted.transfer fun j i p hi hp => ?_
      obtain ⟨hnot, q, hq⟩ := hs'.predecessor hi hp
      by_cases hpid : p = id
      · subst hpid
        refine ⟨q, item, hq, hget, ?_⟩
        rw [hframe.get_final hnot hq, hshape]
      · exact ⟨q, q, hq, hframe.get_settled hnot hpid hq, rfl⟩

omit [DecidableEq L] [AbstractState S] in
theorem start : Intact (.start e.options : RunState L A S) where
  pos := Nat.one_pos
  nested := fun j i hi => by cases hi
  known := fun j i r hi => by cases hi
  rooted := fun j i hi => by cases hi

theorem seed {location : L} {action : A} (hseed : e.SeedPart location action s s')
    (h : Intact s) : Intact s' := by
  obtain ⟨state, stored, layers, id, -, hadd, hgrows⟩ := hseed
  have hsize : s'.layers.size = s.layers.size := by
    rw [hgrows.unmoved.layers]
    exact (Layers.addState_ok hadd).size_eq
  have hsummaries : s'.summaries = s.summaries := hgrows.unmoved.summaries
  refine ⟨hsize ▸ h.pos, fun j i hi => ?_, fun j i r hi hsummary => ?_, ?_⟩
  · rw [hsize]
    obtain ⟨rfl, rfl⟩ | ⟨hold, -⟩ := hgrows.old_singleton hi
    · exact .initial _ _
    · exact h.nested j i hold
  · rw [hsummaries]
    obtain ⟨rfl, rfl⟩ | ⟨hold, -⟩ := hgrows.old_singleton hi
    · cases hsummary
    · exact h.known j i r hold hsummary
  · refine h.rooted.transfer fun j i p hi hp => ?_
    obtain ⟨hnot, q, hq⟩ := hgrows.tidy.predecessor hi hp
    exact ⟨q, q, hq, hgrows.get_before hnot hq, rfl⟩

end Intact

theorem Reachable.intact (h : e.Reachable starts s) : e.Orderly s ∧ Intact s :=
  h.induct Intact.start (fun _ _ _ _ _ _ _ hseed hs => hs.seed hseed)
    fun _ _ _ _ _ _ _ hs' hpass hs => hs.pass hs'.tidy hpass

/-! ## §3. No look-up fails. -/

open Run

variable {t u : RunState L A S} {added : List (ItemId × Item L A S)}

omit [DecidableEq L] [DecidableEq A] [AbstractState S] in
/-- The execution that led to the item in flight can be told. -/
theorem exists_ofItem {extra : ItemId → Nat} (h : InFlight id extra item added t u)
    (hrooted : u.items.Rooted) (source target : A → L) (errorState : Disjunction S) :
    ∃ c, Counterexample.ofItem u.items source target id errorState = .ok c := by
  obtain ⟨first, steps, hwalk, -⟩ := hrooted.walksBack h.get_current target
  unfold Counterexample.ofItem
  simp only [h.get_current, hwalk, bind, Except.bind, pure, Except.pure]
  exact ⟨_, rfl⟩

omit [AbstractState S] in
theorem EnterPart.size_le {inside : Item L A S} {widened : Disjunction S}
    {layers layers' : Layers L A S} (h : e.EnterPart item widened layers inside layers') :
    layers.size ≤ layers'.size := by
  cases h with
  | stayed => exact le_rfl
  | entered _ hcreate =>
    rw [(Layers.create_ok hcreate).size_eq]
    exact Nat.le_succ _

omit [AbstractState S] in
/-- The item that enters a scope keeps to the layers that there are then. -/
theorem EnterPart.nested {inside : Item L A S} {widened : Disjunction S}
    {layers layers' : Layers L A S} (h : e.EnterPart item widened layers inside layers')
    (hitem : item.Nested layers.size) : inside.Nested layers'.size := by
  cases h with
  | stayed => exact hitem
  | entered _ hcreate =>
    have hcreated := Layers.create_ok hcreate
    have hsize := hcreated.size_eq
    refine (hitem.mono (by omega)).enterScope ?_ _ _ _
    rw [hcreated.id_eq, hsize]
    exact Nat.lt_succ_self _

/-- States that are neither bottom nor covered are propagated without a look-up that fails. -/
theorem failsWith_propagate (h : InFlight id (fun _ => 0) item added t u)
    (htaken : t.items.get id = .ok item) (hlonely : t.items.successors id = 0)
    (hrooted : t.items.Rooted) (hpost : post.isBottom = false)
    (hcovered : e.covers t.layers item post = .ok false) (hpos : 0 < u.layers.size)
    (hnested : item.Nested u.layers.size) :
    FailsWith e.Excused (e.propagate id item (e.leaves item) post) u := by
  obtain ⟨loops, hadvanced⟩ := e.advanced_eq item
  refine failsWith_bind (failsWith_bookkeep h) fun tracked u₁ hbook => ?_
  obtain ⟨rfl, hbooked⟩ := bookkeep_ok hbook
  obtain ⟨new₁, h₁, -, -, hlayers₁, -⟩ := h.bookkept htaken hlonely hbooked
  -- Predecessors lead back to a first item, so there is a counterexample to report.
  have hrooted₁ := h₁.rooted htaken (by rw [hadvanced]) hrooted
  obtain ⟨c, hc⟩ := exists_ofItem h₁ hrooted₁ e.transitions.source e.transitions.target post
  refine failsWith_bind (failsWith_reportError hc) fun _ u₂ herror => ?_
  obtain ⟨h₂, -, -, hlayers₂, -⟩ := h₁.errorReported htaken hlonely
    (by rw [hadvanced]; exact ⟨rfl, rfl, rfl⟩) hpost hcovered (reportError_ok herror)
  have hsize : u₂.layers.size = u.layers.size := by rw [hlayers₂, hlayers₁]
  have hnested₂ : (e.advanced item).Nested u₂.layers.size := hsize ▸ hnested.advanced
  have hpos₂ : 0 < u₂.layers.size := hsize ▸ hpos
  -- From here on, what could fail is a look-up of the current layer.
  refine failsWith_bind (failsWith_widen h₂ (hnested₂.currentLayer_lt hpos₂)
    fun _ _ _ hrefused => .refused (refuses_of_widen hrefused)) fun r u₃ hwiden => ?_
  cases r with
  | none => exact failsWith_pure
  | some widened =>
    obtain ⟨h₃, hlayers₃⟩ : InFlight id (fun _ => 0) (e.advanced item) (added ++ new₁) t u₃ ∧
        u₃.layers = u₂.layers := by
      cases widen_ok hwiden with
      | kept => exact ⟨h₂, rfl⟩
      | widened => exact ⟨h₂.logged, rfl⟩
    rw [← hlayers₃] at hnested₂ hpos₂
    refine failsWith_bind (failsWith_enterScope h₃ (hnested₂.currentLayer_lt hpos₂))
      fun inside u₄ henter => ?_
    obtain ⟨h₄, henterPart, -⟩ := h₃.entered (enterScope_ok henter)
    have hnested₄ := henterPart.nested hnested₂
    have hpos₄ := hpos₂.trans_le henterPart.size_le
    refine failsWith_bind (failsWith_store (hnested₄.currentLayer_lt hpos₄))
      fun changed u₅ hstore => ?_
    obtain ⟨_, _, layers, events, statistics, -, -, -, -, rfl⟩ := store_ok hstore
    cases changed with
    | false => exact failsWith_pure
    | true => exact failsWith_enqueueSuccessors h₄.logged

omit [DecidableEq L] in
/-- The item in flight, once the states after its action are known. -/
theorem takenUp_flight {t₁ : RunState L A S} (ht : t.Tidy (once id))
    (hget : t.items.get id = .ok item) (htake : e.takeUp id item t = .ok post t₁) :
    ∃ added, InFlight id (fun _ => 0) item added t t₁ ∧ t₁.layers = t.layers := by
  obtain ⟨u₀, hexit, hcomputed⟩ := takeUp_ok htake
  obtain ⟨handed, -, h₁, hlayers₁, hsummaries₁, -⟩ := (InFlight.start ht hget).exitTaken hexit
  obtain ⟨-, h₂, hlayers₂, -⟩ := h₁.computed hsummaries₁ hcomputed
  exact ⟨handed, h₂, hlayers₂.trans hlayers₁⟩

theorem failsWith_process (ht : t.Tidy (once id)) (hget : t.items.get id = .ok item)
    (hlonely : t.items.successors id = 0) (h : Intact t) :
    FailsWith e.Excused (e.process id) t := by
  refine failsWith_bind (failsWith_item hget) fun current t' hitem => ?_
  obtain ⟨hcurrent, rfl⟩ := item_eq_ok.mp hitem
  rw [hget] at hcurrent
  cases hcurrent
  refine failsWith_bind (failsWith_takeUp (.start ht hget) fun r hr => ?_) fun post u htake => ?_
  · exact Option.isSome_iff_exists.mp (h.known id item r hget hr)
  obtain ⟨added, hflight, hlayers⟩ := takenUp_flight ht hget htake
  have hnested : item.Nested u.layers.size := hlayers ▸ h.nested id item hget
  have hpos : 0 < u.layers.size := hlayers ▸ h.pos
  split
  · exact failsWith_emit
  · rename_i hpost
    refine failsWith_bind (failsWith_isCovered _ (hnested.currentLayer_lt hpos)
      (hnested.callerLayer_lt hpos)) fun covered u' hask => ?_
    obtain ⟨hcovered, rfl⟩ := isCovered_ok hask
    rw [hlayers] at hcovered
    cases covered with
    | true => exact failsWith_dropCovered hflight
    | false =>
      exact failsWith_propagate hflight hget hlonely h.rooted (by simpa using hpost) hcovered hpos
        hnested

/-- In a reachable state, the next item is processed without a look-up that fails. -/
theorem failsWith_iterate (hs : e.Orderly s) (h : Intact s) : FailsWith e.Excused e.iterate s := by
  refine failsWith_bind failsWith_get fun _ _ hget => ?_
  obtain ⟨rfl, rfl⟩ := get_eq_ok.mp hget
  cases hpop : s.worklist.pop with
  | none => exact failsWith_pure
  | some popped =>
    obtain ⟨id, worklist⟩ := popped
    have hid : id ∈ s.pending := Worklist.mem_of_pop hpop
    obtain ⟨item, hitem⟩ := hs.tidy.live_of_pending hid
    dsimp only
    split
    · refine failsWith_bind failsWith_modify fun _ _ hmodify => ?_
      cases modify_eq_ok.mp hmodify
      refine failsWith_bind failsWith_count fun _ t hcount => ?_
      have ht : taken worklist s = t := count_eq_ok.mp hcount
      subst ht
      have hintact : Intact (taken worklist s) := ⟨h.pos, h.nested, h.known, h.rooted⟩
      refine failsWith_bind (failsWith_process (taken_tidy hs.tidy hpop) hitem
        (hs.tidy.of_pending hid).2.2.2.2 hintact) fun _ u hprocess => ?_
      obtain ⟨item', post, _, -, hprocessed⟩ := process_ok hprocess
      obtain ⟨_, _, _, _, _, _, -, -, -, -, hflight, -⟩ := processed_parts hs.tidy hpop hprocessed
      have hcounted : u.items.Counted fun j => u.held j + once id j := by
        simpa using hflight.tidy.counted
      exact failsWith_bind (failsWith_release hcounted) fun _ _ _ => failsWith_pure
    · rename_i hstopped
      refine failsWith_bind failsWith_emit fun _ _ _ => failsWith_throw (.cancelled ?_)
      simpa using hstopped

theorem failsWith_seed (starts : List L) :
    FailsWith e.Excused (e.seed starts) (.start e.options) := by
  have hkept : ∀ location action (t t' : RunState L A S), t.Tidy (fun _ => 0) ∧ Intact t →
      e.Seeded location action t t' → t'.Tidy (fun _ => 0) ∧ Intact t' := by
    intro location action t t' ht hseeded
    have hpart := hseeded.seedPart ht.1
    refine ⟨?_, ht.2.seed hpart⟩
    obtain ⟨_, _, _, _, -, -, hgrows⟩ := hpart
    exact hgrows.tidy
  have hstart : (RunState.start e.options : RunState L A S).Tidy (fun _ => 0) ∧
      Intact (.start e.options : RunState L A S) := ⟨start_tidy e.options, Intact.start⟩
  refine failsWith_forM (I := fun s => s.Tidy (fun _ => 0) ∧ Intact s) hstart
    (fun location _ s hs => ?_) fun location _ s s' hs hok => ?_
  · refine failsWith_forM (I := fun s => s.Tidy (fun _ => 0) ∧ Intact s) hs
      (fun action _ t ht => ?_) fun action _ t t' ht hok => hkept _ _ t t' ht (seeded_of_ok hok)
    · refine failsWith_bind (failsWith_ask fun _ h => .refused (.initial h)) fun state _ hask => ?_
      obtain ⟨-, rfl⟩ := ask_eq_ok.mp hask
      refine failsWith_bind failsWith_get fun _ _ hget => ?_
      obtain ⟨rfl, rfl⟩ := get_eq_ok.mp hget
      have hroot : Layers.root.index < t.layers.size := ht.2.pos
      obtain ⟨r, hr⟩ := Layers.exists_addState hroot location (.single state)
      refine failsWith_bind (failsWith_expect hr) fun _ _ hexpect => ?_
      obtain ⟨-, rfl⟩ := expect_eq_ok.mp hexpect
      refine failsWith_bind failsWith_modify fun _ _ hmodify => ?_
      cases modify_eq_ok.mp hmodify
      exact failsWith_enqueued (ht.1.shift rfl rfl (fun _ => rfl) fun _ => le_rfl)
        fun p hp => by cases hp
  · exact ((each_of_forM hok).mono fun action t t' hstep => seeded_of_ok hstep).preserves
      (fun action _ t t' hseeded ht => hkept _ _ t t' ht hseeded) hs

variable (e) in
/-- Why a computation may end without an answer: for a reason that is not its own, or because its
budget of passes is used up. -/
def EndsFor (starts : List L) (budget : Nat) (halt : Halt A) : Prop :=
  e.Excused halt ∨ halt = .exhausted ∧ (e.stateAfter starts budget).isSome = true

theorem failsWith_drain {n : Nat} (hs : e.stateAfter starts n = some s) (budget : Nat) :
    FailsWith (e.EndsFor starts (n + budget)) (e.drain budget) s := by
  induction budget generalizing s n with
  | zero => exact failsWith_throw (.inr ⟨rfl, by rw [Nat.add_zero, hs]; rfl⟩)
  | succ budget ih =>
    obtain ⟨horderly, hintact⟩ := (reachable_of_stateAfter hs).intact
    refine failsWith_bind (fun halt s₁ herror => .inl
      (failsWith_iterate horderly hintact halt s₁ herror)) fun more s₁ hiterate => ?_
    cases more with
    | false => exact failsWith_pure
    | true =>
      have hrest := ih (stateAfter_of_iterate hs hiterate)
      rw [Nat.add_assoc, Nat.add_comm 1] at hrest
      exact hrest

theorem failsWith_compute (hstarts : starts ≠ []) (budget : Nat) :
    FailsWith (e.EndsFor starts budget) (e.compute budget starts) (.start e.options) := by
  unfold compute
  rw [if_neg (by simpa using hstarts)]
  refine failsWith_bind (fun halt s₁ herror => .inl (failsWith_seed starts halt s₁ herror))
    fun _ s₀ hseed => ?_
  have hdrain := failsWith_drain (stateAfter_zero.mpr hseed) budget
  rw [Nat.zero_add] at hdrain
  refine failsWith_bind hdrain fun _ _ _ => failsWith_bind failsWith_get fun _ _ _ => ?_
  exact failsWith_bind failsWith_emit fun _ _ _ => failsWith_bind failsWith_emit
    fun _ _ _ => failsWith_pure

/-- Computations never fail on their own.  If one ends without an answer, then the timer stopped
it, the domain or the declarations refused to answer, or the second opinion rejected states,
unless its budget of passes was used up.  In every reachable state, the next item is processed
without a look-up of an item, a layer or a summary that fails; the loops of outer scopes are all
there, whatever becomes of an item; and predecessors lead back to an item that has none, also
while the execution that led to an error location is put together. -/
theorem excused_of_error (e : Engine L A S) {starts : List L} (hstarts : starts ≠ []) :
    (∀ budget halt s, e.run budget starts = .error halt s → e.EndsFor starts budget halt) ∧
    ∀ s, e.Reachable starts s → FailsWith e.Excused e.iterate s ∧
      (∀ id item, s.items.get id = .ok item →
        (∀ i ∈ [item, e.outside item, e.advanced item], i.loopDepth ≤ i.loops.length) ∧
        Counterexample.WalksBack s.items e.transitions.target item) ∧
      ∀ id worklist item post tracked t u, s.worklist.pop = some (id, worklist) →
        s.items.get id = .ok item → e.takeUp id item (taken worklist s) = .ok post t →
        e.bookkeep id item (e.leaves item) post t = .ok tracked u →
        u.items.get id = .ok tracked ∧
          Counterexample.WalksBack u.items e.transitions.target tracked := by
  refine ⟨fun budget halt s hrun => ?_, fun s hs => ?_⟩
  · exact failsWith_compute hstarts budget halt s hrun
  · obtain ⟨horderly, hintact⟩ := hs.intact
    refine ⟨failsWith_iterate horderly hintact, fun id item hget => ⟨?_, ?_⟩, ?_⟩
    · have hnested := hintact.nested id item hget
      intro i hi
      simp only [List.mem_cons, List.not_mem_nil, or_false] at hi
      obtain rfl | rfl | rfl := hi
      · exact hnested.loopDepth_le
      · exact hnested.outside.loopDepth_le
      · exact hnested.advanced.loopDepth_le
    · exact hintact.rooted.walksBack hget e.transitions.target
    · intro id worklist item post tracked t u hpop hget htake hbook
      have hid : id ∈ s.pending := (Worklist.perm_of_pop hpop).mem_iff.mpr List.mem_cons_self
      obtain ⟨added, hflight, -⟩ := takenUp_flight (taken_tidy horderly.tidy hpop) hget htake
      obtain ⟨rfl, hbooked⟩ := bookkeep_ok hbook
      obtain ⟨_, h₁, -⟩ := hflight.bookkept hget (horderly.tidy.of_pending hid).2.2.2.2 hbooked
      obtain ⟨loops, hadvanced⟩ := e.advanced_eq item
      have hrooted := h₁.rooted hget (by rw [hadvanced]) hintact.rooted
      exact ⟨h₁.get_current, hrooted.walksBack h₁.get_current e.transitions.target⟩

/-- The analysis of `ascent`, stopped after five items. -/
def haltedAscent : Engine Nat (Transition Statement) IntervalState :=
  { ascentIntervals with timer := ⟨fun iterations => iterations < 5⟩ }

set_option maxRecDepth 100000 in
/-- The analysis is cancelled, which is the timer's doing; and after its fourth item, nothing is
lost. -/
theorem excused_of_error_ascent :
    [0] ≠ [] ∧ (∃ s, haltedAscent.run 100 [0] = .error (.cancelled 5) s ∧
      haltedAscent.EndsFor [0] 100 (.cancelled 5)) ∧
    ∃ s, haltedAscent.stateAfter [0] 4 = some s ∧ FailsWith haltedAscent.Excused
      haltedAscent.iterate s := by
  have hrun : (match haltedAscent.run 100 [0] with
      | .error (.cancelled 5) _ => true
      | _ => false) = true := by decide +kernel
  have hstate : (haltedAscent.stateAfter [0] 4).isSome = true := by decide +kernel
  have hstarts : [0] ≠ [] := List.cons_ne_nil 0 []
  obtain ⟨hends, hreachable⟩ := excused_of_error haltedAscent hstarts
  obtain ⟨s, hs⟩ := Option.isSome_iff_exists.mp hstate
  refine ⟨hstarts, ?_, s, hs, (hreachable s (reachable_of_stateAfter hs)).1⟩
  split at hrun
  · rename_i s' hrun'
    exact ⟨s', hrun', hends 100 _ s' hrun'⟩
  · cases hrun

end Engine

end Interproc
