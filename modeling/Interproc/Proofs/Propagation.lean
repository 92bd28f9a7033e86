/-
  Interproc.Proofs.Propagation
  ────────────────────────────
  What a successful step of a computation does, continued: bringing scopes and loops
  up to date, widening, storing, and going on.  The section on whole items names the
  ways in which an item can end; the last one does the same for a whole computation.
-/
import Mathlib
import Interproc.Proofs.Steps

namespace Interproc

variable {L A S : Type}

namespace Engine

open Run

variable (e : Engine L A S) {s s' : RunState L A S}

/-! ## §1. Scopes and loops. -/

/-- An item after it left the scope that its action leaves. -/
def outside (item : Item L A S) : Item L A S :=
  match e.leaves item, item.leaveScope with
  | true, some (_, outside) => outside
  | _, _ => item

/-- An item stays in its scope, or it drops the scope with the loops in it. -/
theorem outside_cases (item : Item L A S) : e.outside item = item ∨
    ∃ scope outer, item.scopes = scope :: outer ∧ e.outside item = { item with
      scopes := outer, loops := item.loops.take scope.loopDepth } := by
  unfold outside Item.leaveScope
  cases e.leaves item with
  | false => exact .inl rfl
  | true =>
    cases hscopes : item.scopes with
    | nil => exact .inl rfl
    | cons scope outer => exact .inr ⟨scope, outer, rfl, rfl⟩

theorem outside_eq (item : Item L A S) :
    ∃ loops, e.outside item = { item with
      scopes := if e.leaves item then item.scopes.tail else item.scopes, loops := loops } := by
  unfold outside Item.leaveScope
  cases e.leaves item with
  | false => exact ⟨item.loops, rfl⟩
  | true =>
    cases item with
    | mk action pre predecessor rootLayer scopes loops summary returned =>
      cases scopes with
      | nil => exact ⟨loops, rfl⟩
      | cons scope outer => exact ⟨loops.take scope.loopDepth, rfl⟩

variable [DecidableEq L]

/-- An item after it entered or left the loop at the source of its action. -/
def track (item : Item L A S) : Item L A S :=
  if e.entersLoop item.action then (item.enterLoop (e.transitions.source item.action) item.pre).2
  else if item.currentLoopHead = some (e.transitions.source item.action) then item.leaveLoop.2
  else item

/-- An item with its scopes and loops brought up to date. -/
def advanced (item : Item L A S) : Item L A S := e.track (e.outside item)

theorem track_eq (item : Item L A S) : ∃ loops, e.track item = { item with loops := loops } := by
  unfold track Item.enterLoop Item.leaveLoop
  split
  · dsimp only
    split
    · exact ⟨_, rfl⟩
    · exact ⟨_, rfl⟩
  · split
    · split
      · exact ⟨_, rfl⟩
      · exact ⟨_, rfl⟩
    · exact ⟨_, rfl⟩

/-- Bringing an item up to date changes its scopes and loops, and nothing else. -/
theorem advanced_eq (item : Item L A S) :
    ∃ loops, e.advanced item = { item with
      scopes := if e.leaves item then item.scopes.tail else item.scopes, loops := loops } := by
  obtain ⟨loops, houtside⟩ := e.outside_eq item
  obtain ⟨loops', htrack⟩ := e.track_eq (e.outside item)
  refine ⟨loops', ?_⟩
  unfold advanced
  rw [htrack, houtside]

variable [DecidableEq A] [AbstractState S]

/-- The items that used the summary of the call whose scope an item leaves, and the summaries
after the return was recorded. -/
def summarise (item : Item L A S) (post : Disjunction S) (summaries : Summaries A S) :
    List ItemId × Summaries A S :=
  match e.leaves item, item.leaveScope with
  | true, some ((call, before), _) =>
    summaries.record call before post e.options.maxParallelStates
  | _, _ => ([], summaries)

/-- An item was brought up to date, and what its return made stale put on the worklist again. -/
def Bookkept (id : ItemId) (item : Item L A S) (post : Disjunction S)
    (s s' : RunState L A S) : Prop :=
  ∃ items events, s.items.set id (e.advanced item) = .ok items ∧
    Each Requeued (e.summarise item post s.summaries).1
      { s with summaries := (e.summarise item post s.summaries).2, items := items
               events := events } s'

variable {e}

omit [DecidableEq L] in
theorem leaveScope_ok {item tracked : Item L A S} {post : Disjunction S} {stale : List ItemId}
    (h : e.leaveScope item (e.leaves item) post s = .ok (tracked, stale) s') :
    tracked = e.outside item ∧ stale = (e.summarise item post s.summaries).1 ∧
      ∃ events, s' = { s with summaries := (e.summarise item post s.summaries).2
                              events := events } := by
  unfold leaveScope at h
  unfold outside summarise
  cases hleaving : e.leaves item with
  | false =>
    rw [hleaving] at h
    obtain ⟨hpair, rfl⟩ := pure_eq_ok.mp h
    cases hpair
    exact ⟨rfl, rfl, s.events, rfl⟩
  | true =>
    cases hscope : item.leaveScope with
    | none =>
      rw [hleaving, hscope] at h
      obtain ⟨hpair, rfl⟩ := pure_eq_ok.mp h
      cases hpair
      exact ⟨rfl, rfl, s.events, rfl⟩
    | some left =>
      obtain ⟨⟨call, before⟩, outside⟩ := left
      rw [hleaving, hscope] at h
      simp only [bind_eq_ok, emit_eq_ok, get_eq_ok, modify_eq_ok, pure_eq_ok] at h
      obtain ⟨_, _, rfl, _, _, ⟨rfl, rfl⟩, _, _, rfl, hpair, rfl⟩ := h
      cases hpair
      exact ⟨rfl, rfl, _, rfl⟩

omit [DecidableEq A] [AbstractState S] in
theorem trackLoop_ok {item tracked : Item L A S} (h : e.trackLoop item s = .ok tracked s') :
    tracked = e.track item ∧ ∃ events, s' = { s with events := events } := by
  unfold trackLoop at h
  unfold track
  split at h
  · rename_i henters
    simp only [bind_eq_ok, emit_eq_ok, pure_eq_ok] at h
    obtain ⟨_, _, rfl, rfl, rfl⟩ := h
    exact ⟨by rw [if_pos henters], _, rfl⟩
  · rename_i henters
    split at h
    · rename_i hhead
      simp only [bind_eq_ok, emit_eq_ok, pure_eq_ok] at h
      obtain ⟨_, _, rfl, rfl, rfl⟩ := h
      exact ⟨by rw [if_neg henters, if_pos hhead], _, rfl⟩
    · rename_i hhead
      obtain ⟨rfl, rfl⟩ := pure_eq_ok.mp h
      exact ⟨by rw [if_neg henters, if_neg hhead], _, rfl⟩

theorem bookkeep_ok {id : ItemId} {item tracked : Item L A S} {post : Disjunction S}
    (h : e.bookkeep id item (e.leaves item) post s = .ok tracked s') :
    tracked = e.advanced item ∧ e.Bookkept id item post s s' := by
  unfold bookkeep at h
  obtain ⟨⟨outside, stale⟩, s₁, hleave, h⟩ := bind_eq_ok.mp h
  obtain ⟨rfl, rfl, events, rfl⟩ := leaveScope_ok hleave
  obtain ⟨tracked', s₂, htrack, h⟩ := bind_eq_ok.mp h
  obtain ⟨rfl, events', rfl⟩ := trackLoop_ok htrack
  obtain ⟨_, s₃, hset, h⟩ := bind_eq_ok.mp h
  obtain ⟨items, hitems, rfl⟩ := setItem_eq_ok.mp hset
  obtain ⟨_, s₄, hstale, h⟩ := bind_eq_ok.mp h
  obtain ⟨rfl, rfl⟩ := pure_eq_ok.mp h
  exact ⟨rfl, items, events', hitems, (each_of_forM hstale).mono fun _ _ _ => requeue_ok⟩

/-! ## §2. Errors. -/

variable (e) in
/-- An action that reaches an error location was reported, unless it was before. -/
inductive ErrorReported (id : ItemId) (action : A) (post : Disjunction S) :
    RunState L A S → RunState L A S → Prop where
  | silent {s : RunState L A S}
      (hsilent : e.transitions.isError (e.transitions.target action) = true →
        action ∈ s.reachedErrors) : ErrorReported id action post s s
  | reported {s : RunState L A S} {counterexample events}
      (herror : e.transitions.isError (e.transitions.target action) = true)
      (hfirst : action ∉ s.reachedErrors)
      (hshown : Counterexample.ofItem s.items e.transitions.source e.transitions.target id post
        = .ok counterexample) :
      ErrorReported id action post s
        { s with reachedErrors := s.reachedErrors ++ [action]
                 counterexamples := s.counterexamples ++ [counterexample]
                 events := events }

omit [DecidableEq L] [AbstractState S] in
theorem reportError_ok {id : ItemId} {action : A} {post : Disjunction S} {u : Unit}
    (h : e.reportError id action post s = .ok u s') : e.ErrorReported id action post s s' := by
  unfold reportError at h
  simp only [bind_eq_ok, get_eq_ok, onlyIf_eq_ok, modify_eq_ok, emit_eq_ok, expect_eq_ok] at h
  obtain ⟨_, _, ⟨rfl, rfl⟩, h⟩ := h
  split at h
  · rename_i herror
    obtain ⟨_, _, rfl, _, _, rfl, counterexample, _, ⟨hcounterexample, rfl⟩, rfl⟩ := h
    rw [Bool.and_eq_true] at herror
    exact .reported herror.1 (by simpa using herror.2) hcounterexample
  · rename_i herror
    subst h
    refine .silent fun htarget => ?_
    simpa [htarget] using herror

/-! ## §3. Widening. -/

variable (e) in
/-- The states that the states after an item's action are widened against, if they are. -/
def widensAgainst (item : Item L A S) : Option (Disjunction S) :=
  if e.transitions.entersScope item.action then
    if e.options.maxUnwindings < item.reentryDepth item.action then
      (item.latestEntry item.action).map Prod.snd
    else none
  else
    match item.loopAt (e.transitions.target item.action) with
    | none => none
    | some (counter, snapshot) =>
      if e.options.maxUnwindings < counter then some snapshot else none

variable (e) in
/-- The states after an item's action were widened, if they had to be.  There are none left if
that changed nothing. -/
inductive Widened (id : ItemId) (item : Item L A S) (post : Disjunction S) :
    Option (Disjunction S) → RunState L A S → RunState L A S → Prop where
  | kept {s : RunState L A S} (hkept : e.widensAgainst item = none) :
      Widened id item post (some post) s s
  | widened {s : RunState L A S} {older widened events statistics}
      (hagainst : e.widensAgainst item = some older)
      (hwiden : older.widen post e.domain = .ok widened)
      (hchanged : widened.isEquivalent older = false)
      (hcount : s.statistics.widenings < statistics.widenings) :
      Widened id item post (some widened) s { s with events := events, statistics := statistics }
  | loopFixpoint {s : RunState L A S} {older widened events statistics}
      (henters : e.transitions.entersScope item.action = false)
      (hagainst : e.widensAgainst item = some older)
      (hwiden : older.widen post e.domain = .ok widened)
      (hsame : widened.isEquivalent older = true)
      (hcount : s.statistics.widenings < statistics.widenings) :
      Widened id item post none s { s with events := events, statistics := statistics }
  | entryFixpoint {s s' : RunState L A S} {activation older widened layers events statistics}
      (henters : e.transitions.entersScope item.action = true)
      (hentry : item.latestEntry item.action = some (activation, older))
      (hagainst : e.widensAgainst item = some older)
      (hwiden : older.widen post e.domain = .ok widened)
      (hsame : widened.isEquivalent older = true)
      (hlayers : s.layers.addScopeFixpoint item.currentLayer item.action older = .ok layers)
      (hcount : s.statistics.widenings < statistics.widenings)
      (hsubscribed : Subscribed id activation
        { s with layers := layers, events := events, statistics := statistics } s') :
      Widened id item post none s s'

theorem widenLoop_ok {id : ItemId} {item : Item L A S} {post : Disjunction S}
    {result : Option (Disjunction S)} (henters : e.transitions.entersScope item.action = false)
    (h : e.widenLoop item post s = .ok result s') : e.Widened id item post result s s' := by
  unfold widenLoop at h
  have hagainst : e.widensAgainst item = match item.loopAt (e.transitions.target item.action) with
      | none => none
      | some (counter, snapshot) =>
        if e.options.maxUnwindings < counter then some snapshot else none := by
    unfold widensAgainst
    rw [henters]
    rfl
  cases hloop : item.loopAt (e.transitions.target item.action) with
  | none =>
    simp only [hloop] at h hagainst
    obtain ⟨rfl, rfl⟩ := pure_eq_ok.mp h
    exact .kept hagainst
  | some loop =>
    obtain ⟨counter, snapshot⟩ := loop
    simp only [hloop] at h hagainst
    split at h
    · rename_i hmany
      rw [if_pos hmany] at hagainst
      simp only [bind_eq_ok, ask_eq_ok, count_eq_ok, emit_eq_ok] at h
      obtain ⟨widened, _, ⟨hwiden, rfl⟩, _, _, rfl, _, _, rfl, h⟩ := h
      split at h
      · rename_i hsame
        simp only [bind_eq_ok, count_eq_ok, emit_eq_ok, pure_eq_ok] at h
        obtain ⟨_, _, rfl, _, _, rfl, rfl, rfl⟩ := h
        exact .loopFixpoint henters hagainst hwiden hsame (Nat.lt_succ_self _)
      · rename_i hchanged
        obtain ⟨rfl, rfl⟩ := pure_eq_ok.mp h
        exact .widened hagainst hwiden (by simpa using hchanged) (Nat.lt_succ_self _)
    · rename_i hfew
      rw [if_neg hfew] at hagainst
      obtain ⟨rfl, rfl⟩ := pure_eq_ok.mp h
      exact .kept hagainst

theorem widenEntry_ok {id : ItemId} {item : Item L A S} {post : Disjunction S}
    {result : Option (Disjunction S)} (henters : e.transitions.entersScope item.action = true)
    (h : e.widenEntry id item post s = .ok result s') : e.Widened id item post result s s' := by
  unfold widenEntry at h
  have hagainst : e.widensAgainst item =
      if e.options.maxUnwindings < item.reentryDepth item.action then
        (item.latestEntry item.action).map Prod.snd else none := by
    unfold widensAgainst
    rw [henters]
    rfl
  split at h
  · rename_i hdeep
    rw [if_pos hdeep] at hagainst
    cases hentry : item.latestEntry item.action with
    | none =>
      simp only [hentry, Option.map_none] at h hagainst
      obtain ⟨rfl, rfl⟩ := pure_eq_ok.mp h
      exact .kept hagainst
    | some entry =>
      obtain ⟨activation, older⟩ := entry
      simp only [hentry, Option.map_some] at h hagainst
      simp only [bind_eq_ok, ask_eq_ok, count_eq_ok, emit_eq_ok] at h
      obtain ⟨widened, _, ⟨hwiden, rfl⟩, _, _, rfl, _, _, rfl, h⟩ := h
      split at h
      · rename_i hsame
        simp only [bind_eq_ok, count_eq_ok, emit_eq_ok, get_eq_ok, expect_eq_ok, modify_eq_ok,
          pure_eq_ok] at h
        obtain ⟨_, _, rfl, _, _, rfl, _, _, ⟨rfl, rfl⟩, layers, _, ⟨hlayers, rfl⟩, _, _, rfl,
          _, _, hsubscribe, rfl, rfl⟩ := h
        exact .entryFixpoint henters hentry hagainst hwiden hsame hlayers (Nat.lt_succ_self _)
          (subscribe_ok hsubscribe)
      · rename_i hchanged
        obtain ⟨rfl, rfl⟩ := pure_eq_ok.mp h
        exact .widened hagainst hwiden (by simpa using hchanged) (Nat.lt_succ_self _)
  · rename_i hshallow
    rw [if_neg hshallow] at hagainst
    obtain ⟨rfl, rfl⟩ := pure_eq_ok.mp h
    exact .kept hagainst

theorem widen_ok {id : ItemId} {item : Item L A S} {post : Disjunction S}
    {result : Option (Disjunction S)} (h : e.widen id item post s = .ok result s') :
    e.Widened id item post result s s' := by
  unfold widen at h
  split at h
  · rename_i henters
    exact widenEntry_ok henters h
  · rename_i henters
    exact widenLoop_ok (by simpa using henters) h

/-! ## §4. Storing and going on. -/

variable (e) in
/-- The scope of an item's action was entered, if the action enters one. -/
inductive Entered (id : ItemId) (item : Item L A S) (post : Disjunction S) :
    Item L A S → RunState L A S → RunState L A S → Prop where
  | stayed {s : RunState L A S} (hstays : e.transitions.entersScope item.action = false) :
      Entered id item post item s s
  | entered {s : RunState L A S} {layer layers items events statistics}
      (henters : e.transitions.entersScope item.action = true)
      (hcreate : s.layers.create item.currentLayer = .ok (layer, layers))
      (hset : s.items.set id (item.enterScope item.action layer item.pre post) = .ok items)
      (hcount : statistics.widenings = s.statistics.widenings) :
      Entered id item post (item.enterScope item.action layer item.pre post) s
        { s with layers := layers, items := items, events := events, statistics := statistics }

variable (e) in
/-- States were merged into those stored at the target of an item's action, which changed them or
not. -/
def Stored (item : Item L A S) (post : Disjunction S) (changed : Bool)
    (s s' : RunState L A S) : Prop :=
  ∃ previous stored layers events statistics,
    s.layers.state? item.currentLayer (e.transitions.target item.action) = .ok previous ∧
    s.layers.addState item.currentLayer (e.transitions.target item.action) post
      = .ok (stored, layers) ∧
    changed = previous.all (fun p => !stored.isEquivalent p) ∧
    statistics.widenings = s.statistics.widenings ∧
    s' = { s with layers := layers, events := events, statistics := statistics }

variable (e) in
/-- The item for an action that follows an item. -/
def successorOf (summaries : Summaries A S) (id : ItemId) (item : Item L A S)
    (post : Disjunction S) (action : A) : Item L A S :=
  let known :=
    if e.options.useSummaries && e.transitions.entersScope action then
      summaries.lookup action post
    else
      none
  match known, e.transitions.summaryOf action with
  | some summary, some standIn =>
    { Item.successor post standIn id item with summary := some summary }
  | _, _ => .successor post action id item

variable (e) in
/-- The actions along which an item goes on. -/
def goesOn (item : Item L A S) : List A :=
  (e.transitions.following item.action item.currentScope).filter fun action =>
    !e.transitions.standsForCall action

variable (e) in
/-- An item was put on the worklist for each action along which an item goes on. -/
def WentOn (id : ItemId) (item : Item L A S) (post : Disjunction S)
    (s s' : RunState L A S) : Prop :=
  ∃ events, Each Enqueued ((e.goesOn item).map (e.successorOf s.summaries id item post))
    { s with events := events } s'

omit [DecidableEq L] [DecidableEq A] [AbstractState S] in
theorem enterScope_ok {id : ItemId} {item inside : Item L A S} {post : Disjunction S}
    (h : e.enterScope id item post s = .ok inside s') : e.Entered id item post inside s s' := by
  unfold enterScope at h
  split at h
  · rename_i henters
    simp only [bind_eq_ok, get_eq_ok, expect_eq_ok, modify_eq_ok, setItem_eq_ok, count_eq_ok,
      emit_eq_ok, pure_eq_ok] at h
    obtain ⟨_, _, ⟨rfl, rfl⟩, ⟨layer, layers⟩, _, ⟨hcreate, rfl⟩, _, _, rfl, _, _,
      ⟨items, hset, rfl⟩, _, _, rfl, _, _, rfl, rfl, rfl⟩ := h
    exact .entered henters hcreate hset rfl
  · rename_i hstays
    obtain ⟨rfl, rfl⟩ := pure_eq_ok.mp h
    exact .stayed (by simpa using hstays)

omit [DecidableEq A] in
theorem store_ok {item : Item L A S} {post : Disjunction S} {changed : Bool}
    (h : e.store item post s = .ok changed s') : e.Stored item post changed s s' := by
  unfold store at h
  simp only [bind_eq_ok, get_eq_ok, expect_eq_ok, modify_eq_ok, count_eq_ok] at h
  obtain ⟨_, _, ⟨rfl, rfl⟩, previous, _, ⟨hprevious, rfl⟩, _, _, ⟨rfl, rfl⟩, ⟨stored, layers⟩, _,
    ⟨hadd, rfl⟩, _, _, rfl, _, _, rfl, h⟩ := h
  cases previous with
  | none =>
    obtain ⟨rfl, rfl⟩ := pure_eq_ok.mp h
    refine ⟨none, stored, layers, _, _, hprevious, hadd, rfl, ?_, rfl⟩
    rfl
  | some previous =>
    simp only at h
    split at h
    · rename_i hsame
      simp only [bind_eq_ok, emit_eq_ok, pure_eq_ok] at h
      obtain ⟨_, _, rfl, rfl, rfl⟩ := h
      refine ⟨some previous, stored, layers, _, _, hprevious, hadd, by simp [hsame], ?_, rfl⟩
      rfl
    · rename_i hchanged
      simp only [bind_eq_ok, count_eq_ok, pure_eq_ok] at h
      obtain ⟨_, _, rfl, rfl, rfl⟩ := h
      refine ⟨some previous, stored, layers, _, _, hprevious, hadd, by simpa using hchanged, ?_,
        rfl⟩
      rfl

omit [DecidableEq L] in
theorem successorItem_ok {id : ItemId} {item successor : Item L A S} {post : Disjunction S}
    {action : A} (h : e.successorItem id item post action s = .ok successor s') :
    successor = e.successorOf s.summaries id item post action ∧
      ∃ events, s' = { s with events := events } := by
  unfold successorItem at h
  obtain ⟨_, _, hget, h⟩ := bind_eq_ok.mp h
  obtain ⟨rfl, rfl⟩ := get_eq_ok.mp hget
  unfold successorOf
  revert h
  generalize (if e.options.useSummaries && e.transitions.entersScope action then
    s.summaries.lookup action post else none) = known
  intro h
  cases known with
  | none =>
    obtain ⟨rfl, rfl⟩ := pure_eq_ok.mp h
    exact ⟨rfl, _, rfl⟩
  | some summary =>
    cases hstandIn : e.transitions.summaryOf action with
    | none =>
      rw [hstandIn] at h
      obtain ⟨rfl, rfl⟩ := pure_eq_ok.mp h
      exact ⟨rfl, _, rfl⟩
    | some standIn =>
      rw [hstandIn] at h
      simp only [bind_eq_ok, emit_eq_ok, pure_eq_ok] at h
      obtain ⟨_, _, rfl, rfl, rfl⟩ := h
      exact ⟨rfl, _, rfl⟩

omit [DecidableEq L] in
theorem successorItems_ok {id : ItemId} {item : Item L A S} {post : Disjunction S}
    {actions : List A} {successors : List (Item L A S)}
    (h : actions.mapM (e.successorItem id item post) s = .ok successors s') :
    successors = actions.map (e.successorOf s.summaries id item post) ∧
      ∃ events, s' = { s with events := events } := by
  induction actions generalizing s successors with
  | nil =>
    obtain ⟨rfl, rfl⟩ := pure_eq_ok.mp h
    exact ⟨rfl, _, rfl⟩
  | cons action actions ih =>
    simp only [List.mapM_cons, bind_eq_ok, pure_eq_ok] at h
    obtain ⟨_, _, hfirst, _, _, hrest, rfl, rfl⟩ := h
    obtain ⟨rfl, events, rfl⟩ := successorItem_ok hfirst
    obtain ⟨rfl, events', rfl⟩ := ih hrest
    exact ⟨rfl, _, rfl⟩

omit [DecidableEq L] in
theorem enqueueSuccessors_ok {id : ItemId} {item : Item L A S} {post : Disjunction S} {u : Unit}
    (h : e.enqueueSuccessors id item post s = .ok u s') : e.WentOn id item post s s' := by
  unfold enqueueSuccessors at h
  obtain ⟨successors, s₁, hsuccessors, hforM⟩ := bind_eq_ok.mp h
  obtain ⟨rfl, events, rfl⟩ := successorItems_ok hsuccessors
  exact ⟨events, (each_of_forM hforM).mono fun _ _ _ hstep => enqueued_of_ok hstep⟩

/-! ## §5. Whole items. -/

variable (e) in
/-- The layer in which the states after an item's action are looked up, unless the action enters a
scope. -/
def landing (item : Item L A S) : LayerId :=
  if e.leaves item then item.callerLayer else item.currentLayer

variable (e) in
/-- Whether the states after an item's action are covered by what is stored. -/
def covers (layers : Layers L A S) (item : Item L A S) (post : Disjunction S) :
    Except Error Bool :=
  if e.transitions.entersScope item.action then
    layers.isScopeFixpoint item.currentLayer item.action post
  else do
    return (← layers.state? (e.landing item) (e.transitions.target item.action)).any post.isSubset

variable (e) in
/-- The states after an item's action, neither bottom nor covered, were propagated. -/
inductive Propagated (id : ItemId) (item : Item L A S) (post : Disjunction S)
    (s s' : RunState L A S) : Prop where
  | fixpoint {s₁ s₂ : RunState L A S} (hbook : e.Bookkept id item post s s₁)
      (herror : e.ErrorReported id (e.advanced item).action post s₁ s₂)
      (hwiden : e.Widened id (e.advanced item) post none s₂ s')
  | stored {s₁ s₂ s₃ s₄ s₅ : RunState L A S} {widened : Disjunction S} {inside : Item L A S}
      {changed : Bool} (hbook : e.Bookkept id item post s s₁)
      (herror : e.ErrorReported id (e.advanced item).action post s₁ s₂)
      (hwiden : e.Widened id (e.advanced item) post (some widened) s₂ s₃)
      (henter : e.Entered id (e.advanced item) widened inside s₃ s₄)
      (hstore : e.Stored inside widened changed s₄ s₅)
      (hgo : if changed then e.WentOn id inside widened s₅ s' else s₅ = s')

variable (e) in
/-- A covered item was dropped.  A call waits for the returns of the activation that covers it. -/
def Dropped (id : ItemId) (item : Item L A S) (s s' : RunState L A S) : Prop :=
  ∃ events, match e.transitions.entersScope item.action, item.latestEntry item.action with
    | true, some (layer, _) => Subscribed id layer { s with events := events } s'
    | _, _ => { s with events := events } = s'

variable (e) in
/-- How an item ends, once the states after its action are known. -/
inductive Ended (id : ItemId) (item : Item L A S) (post : Disjunction S)
    (s s' : RunState L A S) : Prop where
  | infeasible {events} (hbottom : post.isBottom = true) (hs : { s with events := events } = s')
  | covered (hpost : post.isBottom = false) (hcovered : e.covers s.layers item post = .ok true)
      (hdropped : e.Dropped id item s s')
  | propagated (hpost : post.isBottom = false)
      (hcovered : e.covers s.layers item post = .ok false)
      (hpropagated : e.Propagated id item post s s')

variable (e) in
/-- An item was processed. -/
def Processed (id : ItemId) (item : Item L A S) (post : Disjunction S)
    (s s' : RunState L A S) : Prop :=
  s.items.get id = .ok item ∧ ∃ s₁, e.TakenUp id item post s s₁ ∧ e.Ended id item post s₁ s'

theorem isCovered_ok {item : Item L A S} {post : Disjunction S} {b : Bool}
    (h : e.isCovered item (e.leaves item) post s = .ok b s') :
    e.covers s.layers item post = .ok b ∧ s = s' := by
  unfold isCovered at h
  unfold covers landing
  obtain ⟨_, _, hget, h⟩ := bind_eq_ok.mp h
  obtain ⟨rfl, rfl⟩ := get_eq_ok.mp hget
  split at h
  · rename_i henters
    rw [if_pos henters]
    exact expect_eq_ok.mp h
  · rename_i henters
    rw [if_neg henters]
    simp only [bind_eq_ok, expect_eq_ok, pure_eq_ok] at h
    obtain ⟨stored, _, ⟨hstate, rfl⟩, rfl, rfl⟩ := h
    rw [hstate]
    exact ⟨rfl, rfl⟩

omit [DecidableEq L] [AbstractState S] in
theorem dropCovered_ok {id : ItemId} {item : Item L A S} {u : Unit}
    (h : e.dropCovered id item s = .ok u s') : e.Dropped id item s s' := by
  unfold dropCovered at h
  simp only [bind_eq_ok, emit_eq_ok, onlyIf_eq_ok] at h
  obtain ⟨_, _, rfl, h⟩ := h
  refine ⟨s.events.push (.covered item.action (e.transitions.target item.action)), ?_⟩
  cases henters : e.transitions.entersScope item.action with
  | false => simpa [henters] using h
  | true =>
    cases hentry : item.latestEntry item.action with
    | none => simpa [henters, hentry] using h
    | some entry =>
      rw [henters, hentry] at h
      exact subscribe_ok h

theorem propagate_ok {id : ItemId} {item : Item L A S} {post : Disjunction S} {u : Unit}
    (h : e.propagate id item (e.leaves item) post s = .ok u s') :
    e.Propagated id item post s s' := by
  unfold propagate at h
  obtain ⟨tracked, s₁, hbook, h⟩ := bind_eq_ok.mp h
  obtain ⟨rfl, hbooked⟩ := bookkeep_ok hbook
  obtain ⟨_, s₂, herror, h⟩ := bind_eq_ok.mp h
  obtain ⟨result, s₃, hwiden, h⟩ := bind_eq_ok.mp h
  cases result with
  | none =>
    obtain ⟨-, rfl⟩ := pure_eq_ok.mp h
    exact .fixpoint hbooked (reportError_ok herror) (widen_ok hwiden)
  | some widened =>
    obtain ⟨inside, s₄, henter, h⟩ := bind_eq_ok.mp h
    obtain ⟨changed, s₅, hstore, h⟩ := bind_eq_ok.mp h
    refine .stored hbooked (reportError_ok herror) (widen_ok hwiden) (enterScope_ok henter)
      (store_ok hstore) ?_
    cases changed with
    | true => exact enqueueSuccessors_ok h
    | false => exact (pure_eq_ok.mp h).2

/-- What processing an item does. -/
theorem process_ok {id : ItemId} {u : Unit} (h : e.process id s = .ok u s') :
    ∃ item post s₁, e.takeUp id item s = .ok post s₁ ∧ e.Processed id item post s s' := by
  unfold process at h
  obtain ⟨item, _, hitem, h⟩ := bind_eq_ok.mp h
  obtain ⟨hget, rfl⟩ := item_eq_ok.mp hitem
  obtain ⟨post, s₁, htake, h⟩ := bind_eq_ok.mp h
  refine ⟨item, post, s₁, htake, hget, s₁, takeUp_ok htake, ?_⟩
  split at h
  · rename_i hbottom
    exact .infeasible hbottom (emit_eq_ok.mp h)
  · rename_i hpost
    rw [Bool.not_eq_true] at hpost
    obtain ⟨covered, _, hask, h⟩ := bind_eq_ok.mp h
    obtain ⟨hcovered, rfl⟩ := isCovered_ok hask
    cases covered with
    | true => exact .covered hpost hcovered (dropCovered_ok h)
    | false => exact .propagated hpost hcovered (propagate_ok h)

/-! ## §6. Whole computations. -/

/-- The state in which the item that was taken from the worklist is processed. -/
def taken (worklist : Worklist) (s : RunState L A S) : RunState L A S :=
  { s with worklist := worklist
           statistics := { s.statistics with iterations := s.statistics.iterations + 1 } }

variable (e) in
/-- An item was taken from the worklist, processed, and given back. -/
def Passed (id : ItemId) (item : Item L A S) (post : Disjunction S)
    (s s' : RunState L A S) : Prop :=
  ∃ worklist s₁ items, s.worklist.pop = some (id, worklist) ∧
    (∃ t, e.takeUp id item (taken worklist s) = .ok post t) ∧
    e.Processed id item post (taken worklist s) s₁ ∧
    Arena.release id s₁.items = .ok () items ∧ s' = { s₁ with items := items }

variable (e) in
/-- An item was made for an action that leaves a start location. -/
def Seeded (location : L) (action : A) (s s' : RunState L A S) : Prop :=
  ∃ state stored layers, e.declarations.initial action e.domain.fresh = .ok state ∧
    s.layers.addState Layers.root location (.single state) = .ok (stored, layers) ∧
    Enqueued (.initial action (.single state) Layers.root) { s with layers := layers } s'

theorem iterate_ok {b : Bool} (h : e.iterate s = .ok b s') :
    (b = false ∧ s.worklist.pop = none ∧ s = s') ∨
      (b = true ∧ ∃ id item post, e.Passed id item post s s') := by
  unfold iterate at h
  obtain ⟨_, _, hget, h⟩ := bind_eq_ok.mp h
  obtain ⟨rfl, rfl⟩ := get_eq_ok.mp hget
  cases hpop : s.worklist.pop with
  | none =>
    rw [hpop] at h
    obtain ⟨rfl, rfl⟩ := pure_eq_ok.mp h
    exact .inl ⟨rfl, rfl, rfl⟩
  | some popped =>
    obtain ⟨id, worklist⟩ := popped
    simp only [hpop] at h
    split at h
    · simp only [bind_eq_ok, modify_eq_ok, count_eq_ok, release_eq_ok, pure_eq_ok] at h
      obtain ⟨_, _, rfl, _, _, rfl, _, s₁, hprocess, _, _, ⟨items, hrelease, rfl⟩, rfl, rfl⟩ := h
      obtain ⟨item, post, t, htake, hprocessed⟩ := process_ok hprocess
      exact .inr ⟨rfl, id, item, post, worklist, s₁, items, hpop, ⟨t, htake⟩, hprocessed,
        hrelease, rfl⟩
    · obtain ⟨_, _, _, h⟩ := bind_eq_ok.mp h
      exact (throw_eq_ok.mp h).elim

omit [DecidableEq A] in
theorem seeded_of_ok {location : L} {action : A} {event : ItemId → Event L A S} {u : Unit}
    (h : (do
      let state ← ask (e.declarations.initial action e.domain.fresh)
      let pre := Disjunction.single state
      let (_, layers) ← expect ((← get).layers.addState Layers.root location pre)
      modify fun s => { s with layers := layers }
      let id ← insert (.initial action pre Layers.root)
      emit (event id)
      enqueue id : Run L A S Unit) s = .ok u s') : e.Seeded location action s s' := by
  obtain ⟨state, _, hask, h⟩ := bind_eq_ok.mp h
  obtain ⟨hinitial, rfl⟩ := ask_eq_ok.mp hask
  obtain ⟨_, _, hget, h⟩ := bind_eq_ok.mp h
  obtain ⟨rfl, rfl⟩ := get_eq_ok.mp hget
  obtain ⟨⟨stored, layers⟩, _, hexpect, h⟩ := bind_eq_ok.mp h
  obtain ⟨hadd, rfl⟩ := expect_eq_ok.mp hexpect
  obtain ⟨_, _, hmodify, h⟩ := bind_eq_ok.mp h
  obtain rfl := modify_eq_ok.mp hmodify
  exact ⟨state, stored, layers, hinitial, hadd, enqueued_of_ok h⟩

omit [DecidableEq A] in
theorem seed_ok {starts : List L} {u : Unit} (h : e.seed starts s = .ok u s') :
    Each (fun location => Each (e.Seeded location) (e.transitions.actionsFrom location))
      starts s s' := by
  unfold seed at h
  refine (each_of_forM h).mono fun location t t' hactions => ?_
  exact (each_of_forM hactions).mono fun action t t' hstep => seeded_of_ok hstep

variable (e) in
/-- The states of a computation, after seeding and after each item. -/
inductive Reachable (starts : List L) : RunState L A S → Prop where
  | seeded {s : RunState L A S} (h : e.seed starts (.start e.options) = .ok () s) :
      Reachable starts s
  | iterated {s s' : RunState L A S} (hs : Reachable starts s) (h : e.iterate s = .ok true s') :
      Reachable starts s'

variable (e) in
/-- The states of a computation that come after a state. -/
inductive Later : RunState L A S → RunState L A S → Prop where
  | refl {s : RunState L A S} : Later s s
  | iterated {s s₁ s' : RunState L A S} (h : e.iterate s = .ok true s₁) (hs : Later s₁ s') :
      Later s s'

theorem Later.preserves {P : RunState L A S → Prop} (h : e.Later s s')
    (hstep : ∀ t t', e.iterate t = .ok true t' → P t → P t') (hs : P s) : P s' := by
  induction h with
  | refl => exact hs
  | iterated hi _ ih => exact ih (hstep _ _ hi hs)

theorem Later.next {t : RunState L A S} (h : e.Later t s)
    (hiterate : e.iterate s = .ok true s') : e.Later t s' := by
  induction h with
  | refl => exact .iterated hiterate .refl
  | iterated hfirst _ ih => exact .iterated hfirst (ih hiterate)

theorem Later.reachable {starts : List L} (h : e.Later s s') (hs : e.Reachable starts s) :
    e.Reachable starts s' :=
  h.preserves (fun _ _ hi ht => ht.iterated hi) hs

theorem drain_ok {budget : Nat} {u : Unit} (h : e.drain budget s = .ok u s') :
    e.Later s s' ∧ s'.worklist.pop = none := by
  induction budget generalizing s with
  | zero => exact (throw_eq_ok.mp h).elim
  | succ budget ih =>
    obtain ⟨more, s₁, hiterate, h⟩ := bind_eq_ok.mp h
    cases more with
    | false =>
      obtain ⟨-, rfl⟩ := pure_eq_ok.mp h
      obtain ⟨-, hpop, rfl⟩ | ⟨hfalse, -⟩ := iterate_ok hiterate
      · exact ⟨.refl, hpop⟩
      · cases hfalse
    | true =>
      obtain ⟨hlater, hpop⟩ := ih h
      exact ⟨.iterated hiterate hlater, hpop⟩

/-- A finished computation answers what it found when the worklist ran empty. -/
theorem run_ok {budget : Nat} {starts : List L} {answer : Answer L A S}
    (h : e.run budget starts = .ok answer s') :
    ∃ s₀ s, e.seed starts (.start e.options) = .ok () s₀ ∧ e.Later s₀ s ∧
      s.worklist.pop = none ∧
      answer = ⟨s.layers, s.summaries, s.counterexamples, s.statistics⟩ := by
  unfold run compute at h
  split at h
  · exact (throw_eq_ok.mp h).elim
  · obtain ⟨_, s₀, hseed, h⟩ := bind_eq_ok.mp h
    obtain ⟨_, s, hdrain, h⟩ := bind_eq_ok.mp h
    obtain ⟨hlater, hpop⟩ := drain_ok hdrain
    simp only [bind_eq_ok, get_eq_ok, emit_eq_ok, pure_eq_ok] at h
    obtain ⟨_, _, ⟨rfl, rfl⟩, _, _, rfl, _, _, rfl, rfl, rfl⟩ := h
    exact ⟨s₀, s, hseed, hlater, hpop, rfl⟩

end Engine

end Interproc
