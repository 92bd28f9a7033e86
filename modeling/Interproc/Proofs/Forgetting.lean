/-
  Interproc.Proofs.Forgetting
  ───────────────────────────
  When a loop is forgotten.  An item that goes on from the head of an active loop and
  does not enter the loop again leaves it.  But only the innermost loop is ever left:
  a loop that was entered inside it and left from the middle of its body is still
  active, and then the loop around it stays, with its counter and its snapshot.

  No scope has two active loops at one head, as entering a loop again leaves all loops
  entered since.  So a loop that is left is not active any more, for the item and for
  all that come after it.

  Main result: `Engine.forgets_iff_innermost`.
-/
import Mathlib
import Interproc.Proofs.LoopCounts
import Interproc.Proofs.Progress
import Interproc.Proofs.Safety

namespace Interproc

variable {L A S : Type}

/-! ## §1. Heads of active loops. -/

namespace Item

/-- Given scopes, innermost first, no two of the loops that were entered in one of them have the
same head. -/
def ApartIn : List (Scope A S) → List (ActiveLoop L S) → Prop
  | [], loops => (loops.map ActiveLoop.head).Nodup
  | scope :: outer, loops =>
    ((loops.drop scope.loopDepth).map ActiveLoop.head).Nodup ∧
      ApartIn outer (loops.take scope.loopDepth)

/-- No two active loops of a scope have the same head. -/
def LoopsApart (item : Item L A S) : Prop := ApartIn item.scopes item.loops

variable {item item' : Item L A S} {n n' : Nat} {loops : List (ActiveLoop L S)} {head : L}

namespace LoopsApart

theorem scopeLoops (h : item.LoopsApart) : (item.scopeLoops.map ActiveLoop.head).Nodup := by
  unfold LoopsApart at h
  unfold Item.scopeLoops Item.loopDepth
  cases hscopes : item.scopes with
  | nil =>
    rw [hscopes] at h
    exact h
  | cons scope outer =>
    rw [hscopes] at h
    exact h.1

theorem congr (h : item.LoopsApart) (hscopes : item'.scopes = item.scopes)
    (hloops : item'.loops = item.loops) : item'.LoopsApart := by
  unfold LoopsApart
  rw [hscopes, hloops]
  exact h

theorem initial (action : A) (pre : Disjunction S) (layer : LayerId) :
    (Item.initial action pre layer : Item L A S).LoopsApart :=
  List.nodup_nil

theorem enterScope (h : item.LoopsApart) (action : A) (layer : LayerId)
    (before entry : Disjunction S) : (item.enterScope action layer before entry).LoopsApart := by
  unfold LoopsApart Item.enterScope
  dsimp only
  unfold ApartIn
  rw [List.drop_length, List.take_length]
  exact ⟨List.nodup_nil, h⟩

theorem returning {call : Item L A S} (h : call.LoopsApart) (state : Disjunction S) (action : A)
    (predecessor : Option ItemId) (layer : LayerId) :
    (Item.returning state action predecessor call layer).LoopsApart := by
  have hcontext : Item.LoopsApart { call with
      action := action, pre := state, predecessor := predecessor, summary := none
      returned := true } := h.congr rfl rfl
  exact hcontext.enterScope call.action layer call.pre call.pre

/-- The loops of the innermost scope may be replaced by such loops. -/
theorem withLoops (h : item.LoopsApart) (hdepth : item.loopDepth ≤ item.loops.length)
    (hloops : (loops.map ActiveLoop.head).Nodup) :
    Item.LoopsApart { item with loops := item.loops.take item.loopDepth ++ loops } := by
  unfold LoopsApart at h ⊢
  unfold Item.loopDepth at hdepth ⊢
  cases hscopes : item.scopes with
  | nil => simpa [ApartIn] using hloops
  | cons scope outer =>
    rw [hscopes] at h hdepth
    have hlength : (item.loops.take scope.loopDepth).length = scope.loopDepth :=
      List.length_take_of_le hdepth
    unfold ApartIn
    dsimp only [List.head?_cons, Option.map_some, Option.getD_some]
    rw [List.drop_left' hlength, List.take_left' hlength]
    exact ⟨hloops, h.2⟩

theorem leave {scope : Scope A S} {outer : List (Scope A S)} (h : item.LoopsApart)
    (hscopes : item.scopes = scope :: outer) : Item.LoopsApart { item with
      scopes := outer, loops := item.loops.take scope.loopDepth } := by
  unfold LoopsApart at h
  rw [hscopes] at h
  exact h.2

variable [DecidableEq L] in
/-- Entering a loop leaves what was entered since it was entered before. -/
theorem enterLoop (h : item.LoopsApart) (hdepth : item.loopDepth ≤ item.loops.length) (head : L)
    (snapshot : Disjunction S) : (item.enterLoop head snapshot).2.LoopsApart := by
  -- The loops before the last entry at this head are at other heads, so the new one is apart.
  rw [Item.enterLoop_eq]
  refine h.withLoops hdepth ?_
  rw [List.map_append, List.map_singleton]
  refine List.nodup_append.mpr ⟨?_, List.nodup_singleton _, ?_⟩
  · exact h.scopeLoops.sublist ((List.takeWhile_sublist _).map _)
  · intro x hx y hy
    obtain ⟨l, hl, rfl⟩ := List.mem_map.mp hx
    rw [List.mem_singleton.mp hy]
    simpa using List.mem_takeWhile_imp hl

theorem leaveLoop (h : item.LoopsApart) (hdepth : item.loopDepth ≤ item.loops.length) :
    item.leaveLoop.2.LoopsApart := by
  rw [Item.leaveLoop_eq]
  exact h.withLoops hdepth (h.scopeLoops.sublist ((List.dropLast_sublist _).map _))

variable {e : Engine L A S}

theorem outside (h : item.LoopsApart) : (e.outside item).LoopsApart := by
  obtain hsame | ⟨scope, outer, hscopes, hout⟩ := e.outside_cases item
  · rw [hsame]
    exact h
  · rw [hout]
    exact h.leave hscopes

variable [DecidableEq L]

theorem track (h : item.LoopsApart) (hdepth : item.loopDepth ≤ item.loops.length) :
    (e.track item).LoopsApart := by
  unfold Engine.track
  split
  · exact h.enterLoop hdepth _ _
  · split
    · exact h.leaveLoop hdepth
    · exact h

theorem moves {final : Item L A S} (h : item.LoopsApart) (hnested : item.Nested n)
    (hmoves : e.Moves item n final n') : final.LoopsApart := by
  have hadvanced : (e.advanced item).LoopsApart := h.outside.track hnested.outside.loopDepth_le
  cases hmoves with
  | advanced => exact hadvanced
  | entered => exact hadvanced.enterScope _ _ _ _

end LoopsApart

/-- The innermost of the active loops is the only one at its head. -/
theorem ne_of_mem_dropLast (hheads : (loops.map ActiveLoop.head).Nodup)
    (hinnermost : loops.getLast?.map ActiveLoop.head = some head) :
    ∀ l ∈ loops.dropLast, l.head ≠ head := by
  obtain ⟨last, hlast, rfl⟩ := Option.map_eq_some_iff.mp hinnermost
  obtain ⟨earlier, rfl⟩ := List.getLast?_eq_some_iff.mp hlast
  rw [List.map_append] at hheads
  rw [List.dropLast_concat]
  intro l hl
  exact (List.nodup_append.mp hheads).2.2 _ (List.mem_map_of_mem hl) _ List.mem_cons_self

end Item

/-! ## §2. Reachable states. -/

variable [DecidableEq L] [DecidableEq A] [AbstractState S]

namespace Engine

open Run

variable {e : Engine L A S} {s s' : RunState L A S} {id j : ItemId} {item final i : Item L A S}
variable {post : Disjunction S} {exits : Exits A S} {summaries : Summaries A S}
variable {handed new : List (Item L A S)} {starts : List L}

theorem loopsApart_final (h : Intact s) (hitem : item.LoopsApart)
    (hget : s.items.get id = .ok item)
    (hend : e.EndPart id item post s exits summaries final new s') : final.LoopsApart := by
  obtain ⟨rfl, -⟩ | hmoves := hend.final_cases
  · exact hitem
  · exact hitem.moves (h.nested id item hget) hmoves

/-- What a pass leaves behind has apart loops, if all items before it had. -/
theorem Pass.loopsApart (hpass : e.Pass id item post final s s') (hintact : Intact s)
    (h : ∀ j i, s.items.get j = .ok i → i.LoopsApart) :
    ∀ j i, s'.items.get j = .ok i → i.LoopsApart := by
  cases hpass with
  | @intro worklist exits summaries handed new added hpop hget hexit hpost hend hadded hframe =>
    have hfinal := loopsApart_final hintact (h id item hget) hget hend
    intro j i hi
    -- A live item was handed back by an exit, is new, is the item itself, or was there before.
    obtain hmem | hmem | ⟨-, rfl⟩ | hold := hframe.live_cases hadded hi
    · obtain ⟨call, -, exit, -, callItem, hcall, rfl⟩ := hexit.handed_eq hmem
      exact (h call callItem hcall).returning _ _ _ _
    · obtain ⟨_, stale, p, q, -, -, hq, -, rfl⟩ | ⟨layer, x, entry, -, -, -, -, rfl⟩ |
        ⟨widened, -, action, -, rfl⟩ := hend.mem_new hmem
      · exact (h p q hq).congr rfl rfl
      · exact hfinal.returning _ _ _ _
      · obtain ⟨action', summary, hshape⟩ := e.successorOf_eq s'.summaries id final widened action
        rw [hshape]
        exact hfinal.congr rfl rfl
    · exact hfinal
    · exact h j i hold

omit [DecidableEq A] in
theorem SeedPart.loopsApart {location : L} {action : A} (hseed : e.SeedPart location action s s')
    (h : ∀ j i, s.items.get j = .ok i → i.LoopsApart) :
    ∀ j i, s'.items.get j = .ok i → i.LoopsApart := by
  obtain ⟨state, stored, layers, id, -, hadd, hgrows⟩ := hseed
  intro j i hi
  obtain ⟨rfl, rfl⟩ | ⟨hold, -⟩ := hgrows.old_singleton hi
  · exact .initial _ _ _
  · exact h j i hold

/-- No item ever has two active loops at one head in one scope. -/
theorem Reachable.loopsApart (hs : e.Reachable starts s) :
    e.Orderly s ∧ Intact s ∧ ∀ j i, s.items.get j = .ok i → i.LoopsApart := by
  refine hs.induct (P := fun s => Intact s ∧ ∀ j i, s.items.get j = .ok i → i.LoopsApart) ?_ ?_ ?_
  · exact ⟨.start, fun j i hi => by cases hi⟩
  · intro _ _ _ _ _ _ _ hseed h
    exact ⟨h.1.seed hseed, hseed.loopsApart h.2⟩
  · intro _ _ _ _ _ _ _ hs' hpass h
    exact ⟨h.1.pass hs'.tidy hpass, hpass.loopsApart h.1 h.2⟩

/-! ## §3. Leaving a loop. -/

variable (e) in
/-- The next item of `s` is neither infeasible nor covered, and it was brought up to date. -/
def ComesToBook (s : RunState L A S) (id : ItemId) (item tracked : Item L A S)
    (post : Disjunction S) (u : RunState L A S) : Prop :=
  ∃ worklist t t', s.worklist.pop = some (id, worklist) ∧ s.items.get id = .ok item ∧
    e.takeUp id item (taken worklist s) = .ok post t ∧ post.isBottom = false ∧
    e.isCovered item (e.leaves item) post t = .ok false t' ∧
    e.bookkeep id item (e.leaves item) post t' = .ok tracked u

theorem ComesToWiden.comesToBook {tracked : Item L A S} {u : RunState L A S}
    (h : e.ComesToWiden s id item tracked post u) : ∃ u', e.ComesToBook s id item tracked post u' := by
  obtain ⟨worklist, t, t', t'', hpop, hget, htake, hpost, hask, hbook, -⟩ := h
  exact ⟨t'', worklist, t, t', hpop, hget, htake, hpost, hask, hbook⟩

omit [DecidableEq A] [AbstractState S] in
/-- An item that stays in its scope and enters no loop leaves the innermost loop, if its action
starts at the head of it, and keeps all loops otherwise. -/
theorem advanced_of_stays (henters : e.entersLoop item.action = false)
    (hstays : e.leaves item = false) : e.advanced item =
      if item.currentLoopHead = some (e.transitions.source item.action) then
        { item with loops := item.loops.take item.loopDepth ++ item.scopeLoops.dropLast }
      else item := by
  have houtside : e.outside item = item := by
    unfold outside
    rw [hstays]
  unfold advanced
  rw [houtside, track, henters, if_neg Bool.false_ne_true, Item.leaveLoop_eq]

/-- Successors go on with the loops of the item that they follow. -/
theorem Pass.loops_of_successor (hs : e.Orderly s) (hpass : e.Pass id item post final s s')
    (hi : s'.items.get j = .ok i) (hp : i.predecessor = some id) :
    i.loops = (e.advanced item).loops := by
  obtain ⟨-, hloops, -, -, widened, stored, layers, previous, -, henter, -⟩ :=
    hpass.stored_of_successor hs hi hp
  rw [hloops]
  cases henter with
  | stayed => rfl
  | entered => rfl

/-- Leaving an active loop head forgets the loop just if it is the innermost one.  In every reachable
state, let the next item be neither infeasible nor covered, let its action start at the head of an
active loop of its innermost scope, and let it neither enter a loop nor leave the scope.  If the
head is that of the innermost active loop, it is no active head after the bookkeeping, and none of
the loops that a successor has beyond those of outer scopes is at that head.  If there is a loop
inside it, all loops stay active, and every successor goes on with all counters and snapshots. -/
theorem forgets_iff_innermost (hs : e.Reachable starts s) {tracked : Item L A S}
    {u : RunState L A S} (hbook : e.ComesToBook s id item tracked post u)
    (hactive : item.isLoopHead (e.transitions.source item.action) = true)
    (henters : e.entersLoop item.action = false) (hstays : e.leaves item = false) :
    (tracked.isLoopHead (e.transitions.source item.action) = false ↔
      item.currentLoopHead = some (e.transitions.source item.action)) ∧
    (item.currentLoopHead = some (e.transitions.source item.action) →
      ∀ s' j i, e.iterate s = .ok true s' → s'.items.get j = .ok i → i.predecessor = some id →
        ∀ l ∈ i.loops.drop item.loopDepth, l.head ≠ e.transitions.source item.action) ∧
    (item.currentLoopHead ≠ some (e.transitions.source item.action) →
      tracked = item ∧ ∀ s' j i, e.iterate s = .ok true s' → s'.items.get j = .ok i →
        i.predecessor = some id → i.loops = item.loops) := by
  obtain ⟨hordered, hintact, hapart⟩ := hs.loopsApart
  obtain ⟨worklist, t, t', hpop, hget, -, -, -, hbooked⟩ := hbook
  obtain ⟨rfl, -⟩ := bookkeep_ok hbooked
  have hdepth := (hintact.nested id item hget).loopDepth_le
  have hadvanced := advanced_of_stays henters hstays
  -- What a successor goes on with is what the bookkeeping left.
  have hsuccessor : ∀ s' j i, e.iterate s = .ok true s' → s'.items.get j = .ok i →
      i.predecessor = some id → i.loops = (e.advanced item).loops := by
    intro s' j i hiterate hi hp
    obtain ⟨-, id', item', post, final, hpass⟩ := hordered.pass hiterate
    have hpass' := hpass
    cases hpass with
    | intro hpop' hget' =>
      rw [hpop] at hpop'
      cases hpop'
      rw [hget] at hget'
      cases hget'
      exact hpass'.loops_of_successor hordered hi hp
  by_cases hinnermost : item.currentLoopHead = some (e.transitions.source item.action)
  · rw [if_pos hinnermost] at hadvanced
    have hforgotten := Item.ne_of_mem_dropLast (hapart id item hget).scopeLoops hinnermost
    refine ⟨⟨fun _ => hinnermost, fun _ => ?_⟩, fun _ s' j i hiterate hi hp => ?_,
      fun hother => absurd hinnermost hother⟩
    · rw [hadvanced, Item.isLoopHead, Item.scopeLoops_withLoops hdepth]
      exact List.any_eq_false.mpr fun l hl => by simpa using hforgotten l hl
    · rw [hsuccessor s' j i hiterate hi hp, hadvanced]
      show ∀ l ∈ (item.loops.take item.loopDepth ++ item.scopeLoops.dropLast).drop item.loopDepth, _
      rw [List.drop_left' (List.length_take_of_le hdepth)]
      exact hforgotten
  · rw [if_neg hinnermost] at hadvanced
    rw [hadvanced] at hsuccessor ⊢
    refine ⟨⟨fun hgone => ?_, fun hhead => absurd hhead hinnermost⟩,
      fun hhead => absurd hhead hinnermost, fun _ => ⟨rfl, hsuccessor⟩⟩
    rw [hactive] at hgone
    cases hgone

/-- A loop inside another one, both of which are left at their heads. -/
def leftAtHead : Program Statement := .ofAdditions
  [.procedure "main", .node "main", .node "main", .node "main", .node "main",
    .internal 0 2 (.assign "x" 0), .internal 2 3 .nop, .internal 3 4 (.assumeLessThan "x" 3),
    .internal 4 3 (.add "x" 1), .internal 3 5 .nop, .internal 5 2 .nop,
    .internal 2 1 (.assumeAtLeast "x" 9)]

/-- The interval analysis of the loops that are left at their heads. -/
def leftAtHeadIntervals : Engine Nat (Transition Statement) IntervalState :=
  loopIntervals leftAtHead

/-- Whether the next item is the one at a position, stays in its scope, goes on from an active loop
head without entering the loop, and passes a check. -/
def departsNext (e : Engine L A S) (s : RunState L A S) (id : ItemId)
    (check : Item L A S → Bool) : Bool :=
  s.worklist.pop.any (fun pair => pair.1 = id) && e.widensNext s &&
    (s.items.get id).toOption.any fun item =>
      item.isLoopHead (e.transitions.source item.action) && !e.entersLoop item.action &&
        !e.leaves item && check item

theorem exists_of_departsNext {check : Item L A S → Bool} (h : e.departsNext s id check = true) :
    ∃ item tracked post u, e.ComesToBook s id item tracked post u ∧
      item.isLoopHead (e.transitions.source item.action) = true ∧
      e.entersLoop item.action = false ∧ e.leaves item = false ∧ check item = true := by
  unfold departsNext at h
  simp only [Bool.and_eq_true] at h
  obtain ⟨⟨hpop, hwidens⟩, hitem⟩ := h
  obtain ⟨item, hget, hitem⟩ := exists_of_checkItem hitem
  simp only [Bool.and_eq_true, Bool.not_eq_true'] at hitem
  obtain ⟨⟨⟨hactive, henters⟩, hstays⟩, hcheck⟩ := hitem
  obtain ⟨id', worklist, item', tracked, post, u, hpop', hcomes⟩ := exists_of_widensNext hwidens
  rw [hpop', Option.any_some, decide_eq_true_eq] at hpop
  subst hpop
  obtain ⟨u', hbook⟩ := hcomes.comesToBook
  have hsame : item' = item := by
    obtain ⟨_, _, _, -, hget', -⟩ := hbook
    exact Except.ok.inj (hget'.symm.trans hget)
  subst hsame
  exact ⟨item', tracked, post, u', hbook, hactive, henters, hstays, hcheck⟩

set_option maxRecDepth 100000 in
/-- The ninth item goes on from the head of the inner loop, which is forgotten; its successor is
still in the outer one. -/
theorem forgets_iff_innermost_leftAtHead : ∃ s s' item tracked post u next,
    leftAtHeadIntervals.stateAfter [0] 8 = some s ∧ leftAtHeadIntervals.iterate s = .ok true s' ∧
    leftAtHeadIntervals.ComesToBook s ⟨7⟩ item tracked post u ∧
    item.isLoopHead (leftAtHeadIntervals.transitions.source item.action) = true ∧
    leftAtHeadIntervals.entersLoop item.action = false ∧ leftAtHeadIntervals.leaves item = false ∧
    item.currentLoopHead = some (leftAtHeadIntervals.transitions.source item.action) ∧
    tracked.isLoopHead (leftAtHeadIntervals.transitions.source item.action) = false ∧
    s'.items.get ⟨5⟩ = .ok next ∧ next.predecessor = some ⟨7⟩ ∧
    next.loops.map ActiveLoop.head = [2] ∧ ∀ l ∈ next.loops.drop item.loopDepth,
      l.head ≠ leftAtHeadIntervals.transitions.source item.action := by
  have hbefore : (leftAtHeadIntervals.stateAfter [0] 8).any (fun s =>
      leftAtHeadIntervals.departsNext s ⟨7⟩ fun item =>
        item.currentLoopHead = some (leftAtHeadIntervals.transitions.source item.action)) =
      true := by
    decide +kernel
  have hafter : (leftAtHeadIntervals.stateAfter [0] 9).any (fun s' =>
      (s'.items.get ⟨5⟩).toOption.any fun next =>
        next.predecessor = some ⟨7⟩ && next.loops.map ActiveLoop.head = [2]) = true := by
    decide +kernel
  obtain ⟨s', hs', -, hafter⟩ := exists_of_stateAfter hafter
  obtain ⟨next, hnext, hafter⟩ := exists_of_checkItem hafter
  obtain ⟨s, hs, hiterate⟩ := iterate_of_stateAfter hs'
  rw [hs, Option.any_some] at hbefore
  obtain ⟨item, tracked, post, u, hbook, hactive, henters, hstays, hinnermost⟩ :=
    exists_of_departsNext hbefore
  simp only [Bool.and_eq_true, decide_eq_true_eq] at hafter hinnermost
  obtain ⟨hiff, hforgets, -⟩ :=
    forgets_iff_innermost (reachable_of_stateAfter hs) hbook hactive henters hstays
  exact ⟨s, s', item, tracked, post, u, next, hs, hiterate, hbook, hactive, henters, hstays,
    hinnermost, hiff.mpr hinnermost, hnext, hafter.1, hafter.2,
    hforgets hinnermost s' ⟨5⟩ next hiterate hnext hafter.1⟩

/-- A loop inside another one, which is left from the middle of its body. -/
def brokenOff : Program Statement := .ofAdditions
  [.procedure "main", .node "main", .node "main", .node "main", .node "main", .node "main",
    .node "main", .errorNode "main", .internal 0 7 (.assign "y" 0), .internal 7 2 (.assign "x" 0),
    .internal 2 3 (.assumeLessThan "x" 1), .internal 3 4 .nop, .internal 4 3 .nop,
    .internal 4 2 (.add "x" 1), .internal 2 5 (.assumeAtLeast "x" 1),
    .internal 5 6 (.assign "x" 0), .internal 6 2 (.assign "y" 1), .internal 0 6 .assumeFalse,
    .internal 5 8 (.assumeAtLeast "x" 2)]

/-- The interval analysis of the loop that is left from the middle, with up to four states for each
location. -/
def brokenOffIntervals : Engine Nat (Transition Statement) IntervalState :=
  brokenOff.intervals (brokenOff.loopTable.toOption.getD ⟨.empty⟩)
    ⟨1, 4, .fifo, false, Nat.one_pos, Nat.succ_pos 3⟩

set_option maxRecDepth 100000 in
/-- The tenth item goes on from the head of the outer loop and out of it, but the inner loop is still
active, so the outer one is not left: the successor goes on with its counter and its snapshot. -/
theorem not_forgotten_brokenOff : ∃ table s s' item tracked post u next,
    brokenOff.loopTable.toOption = some table ∧ brokenOffIntervals.entersLoop = table.isEntered ∧
    brokenOffIntervals.stateAfter [0] 9 = some s ∧ brokenOffIntervals.iterate s = .ok true s' ∧
    brokenOffIntervals.ComesToBook s ⟨7⟩ item tracked post u ∧
    item.isLoopHead (brokenOffIntervals.transitions.source item.action) = true ∧
    brokenOffIntervals.entersLoop item.action = false ∧ brokenOffIntervals.leaves item = false ∧
    tracked.isLoopHead (brokenOffIntervals.transitions.source item.action) = true ∧
    s'.items.get ⟨6⟩ = .ok next ∧ next.predecessor = some ⟨7⟩ ∧
    (next.loopAt (brokenOffIntervals.transitions.source item.action)).isSome ∧
    next.loopAt (brokenOffIntervals.transitions.source item.action) =
      item.loopAt (brokenOffIntervals.transitions.source item.action) := by
  have htable : brokenOff.loopTable.toOption.isSome = true := by decide +kernel
  have hbefore : (brokenOffIntervals.stateAfter [0] 9).any (fun s =>
      brokenOffIntervals.departsNext s ⟨7⟩ fun item =>
        (brokenOffIntervals.advanced item).isLoopHead
          (brokenOffIntervals.transitions.source item.action) &&
        (brokenOffIntervals.stateAfter [0] 10).any fun s' =>
          (s'.items.get ⟨6⟩).toOption.any fun next => next.predecessor = some ⟨7⟩ &&
            (next.loopAt (brokenOffIntervals.transitions.source item.action)).isSome &&
            next.loopAt (brokenOffIntervals.transitions.source item.action) =
              item.loopAt (brokenOffIntervals.transitions.source item.action)) = true := by
    decide +kernel
  obtain ⟨table, htable⟩ := Option.isSome_iff_exists.mp htable
  obtain ⟨s, hs, -, hbefore⟩ := exists_of_stateAfter hbefore
  obtain ⟨item, tracked, post, u, hbook, hactive, henters, hstays, hcheck⟩ :=
    exists_of_departsNext hbefore
  rw [Bool.and_eq_true] at hcheck
  obtain ⟨hstill, hafter⟩ := hcheck
  obtain ⟨s', hs', -, hafter⟩ := exists_of_stateAfter hafter
  obtain ⟨next, hnext, hafter⟩ := exists_of_checkItem hafter
  simp only [Bool.and_eq_true, decide_eq_true_eq] at hafter
  obtain ⟨⟨hpredecessor, hsome⟩, hsame⟩ := hafter
  obtain ⟨s₁, hs₁, hiterate⟩ := iterate_of_stateAfter hs'
  rw [hs] at hs₁
  cases hs₁
  have htracked : tracked = brokenOffIntervals.advanced item := by
    obtain ⟨_, _, _, -, -, -, -, -, hbooked⟩ := hbook
    exact (bookkeep_ok hbooked).1
  rw [← htracked] at hstill
  have hloops : brokenOffIntervals.entersLoop = table.isEntered := by
    unfold brokenOffIntervals
    rw [htable]
    rfl
  exact ⟨table, s, s', item, tracked, post, u, next, htable, hloops, hs, hiterate, hbook, hactive,
    henters, hstays, hstill, hnext, hpredecessor, hsome, hsame⟩

end Engine

end Interproc
