/-
  Interproc.Proofs.RecursionDepth
  ───────────────────────────────
  What the recursion depth of a call counts.  An entry of the scope stack that does not
  count is the only one of its action, and its action is not the call's.  So there are
  no more such entries than other actions on the stack, and a stack that is longer than
  this by more than the allowed depth leaves widening no choice:

    * `Item.reentryDepth_eq_countP` — the entries that count;
    * `Item.length_lt_reentryDepth_add` — there are few others;
    * `Engine.exists_widen` — a call that recurses too deep is widened.

  Main result: `Engine.widened_of_long_stack`.
-/
import Mathlib
import Interproc.Proofs.Progress
import Interproc.Proofs.Reentry
import Interproc.Proofs.Stabilization

namespace Interproc

variable {L A S : Type}

/-! ## §1. Entries that count. -/

namespace Item

variable {item : Item L A S} {action : A}

/-- The actions that entered the scopes of an item, outermost first, and one more. -/
def entries (item : Item L A S) (action : A) : List A :=
  item.scopes.reverse.map Scope.action ++ [action]

theorem mem_entries {a : A} :
    a ∈ item.entries action ↔ a ∈ item.scopes.map Scope.action ∨ a = action := by
  simp [entries]

variable [DecidableEq A]

/-- An entry counts if it is one of the action, or one of several for its own action. -/
def recurs (l : List A) (action a : A) : Bool := a = action ∨ 2 ≤ l.count a

/-- The recursion depth is the number of entries that count. -/
theorem reentryDepth_eq_countP (item : Item L A S) (action : A) :
    item.reentryDepth action =
      (item.entries action).countP (recurs (item.entries action) action) := by
  show ((tallies (item.entries action)).filter _).foldr _ 0 = _
  rw [sum_tallies]
  refine List.countP_congr fun a _ => ?_
  simp [recurs, or_comm, Nat.succ_le_iff]

/-- The entries that do not count are all different. -/
theorem nodup_filter_recurs (l : List A) (action : A) :
    (l.filter fun a => decide ¬recurs l action a = true).Nodup := by
  refine List.nodup_iff_count_le_one.mpr fun a => ?_
  by_cases ha : a ∈ l.filter fun a => decide ¬recurs l action a = true
  · have hsingle : ¬2 ≤ l.count a := by
      have := (List.mem_filter.mp ha).2
      simp only [recurs, decide_eq_true_eq, not_or] at this
      exact this.2
    calc (l.filter fun a => decide ¬recurs l action a = true).count a
        ≤ l.count a := List.filter_sublist.count_le a
      _ ≤ 1 := by omega
  · rw [List.count_eq_zero_of_not_mem ha]
    exact Nat.zero_le 1

/-- No more entries fail to count than there are other actions on the stack. -/
theorem length_lt_reentryDepth_add (item : Item L A S) (action : A) :
    item.scopes.length <
      item.reentryDepth action + ((item.scopes.map Scope.action).toFinset.erase action).card := by
  have hsplit := List.length_eq_countP_add_countP (l := item.entries action)
    (recurs (item.entries action) action)
  have hlength : (item.entries action).length = item.scopes.length + 1 := by simp [entries]
  have hrest : (item.entries action).countP
      (fun a => decide ¬recurs (item.entries action) action a = true) ≤
        ((item.scopes.map Scope.action).toFinset.erase action).card := by
    rw [List.countP_eq_length_filter,
      ← List.toFinset_card_of_nodup (nodup_filter_recurs (item.entries action) action)]
    refine Finset.card_le_card fun a ha => ?_
    obtain ⟨hmem, hnot⟩ := List.mem_filter.mp (List.mem_toFinset.mp ha)
    simp only [recurs, decide_eq_true_eq, not_or] at hnot
    have hscope := (mem_entries.mp hmem).resolve_right hnot.1
    exact Finset.mem_erase.mpr ⟨hnot.1, List.mem_toFinset.mpr hscope⟩
  rw [reentryDepth_eq_countP]
  omega

/-- What counts on a stack counts on every higher one. -/
theorem reentryDepth_le_enterScope (item : Item L A S) (action call : A) (layer : LayerId)
    (before entry : Disjunction S) :
    item.reentryDepth action ≤ (item.enterScope call layer before entry).reentryDepth action := by
  have hsublist : (item.entries action).Sublist
      ((item.enterScope call layer before entry).entries action) := by
    simp [entries, enterScope]
  rw [reentryDepth_eq_countP, reentryDepth_eq_countP]
  -- The predicate is weakened on the lower stack first: occurrences are counted on the higher one.
  refine (List.countP_mono_left fun a _ ha => ?_).trans hsublist.countP_le
  simp only [recurs, decide_eq_true_eq] at ha ⊢
  exact ha.imp_right fun htwice => htwice.trans (hsublist.count_le a)

/-- A stack that is long enough for its number of different actions is too deep to enter one more
scope. -/
theorem lt_reentryDepth {bound : Nat}
    (hlong : bound + (item.scopes.map Scope.action).toFinset.card < item.scopes.length) :
    bound < item.reentryDepth action := by
  have hdepth := item.length_lt_reentryDepth_add action
  have herase := Finset.card_erase_le (s := (item.scopes.map Scope.action).toFinset) (a := action)
  omega

theorem exists_latestEntry (h : action ∈ item.scopes.map Scope.action) :
    ∃ activation older, item.latestEntry action = some (activation, older) := by
  obtain ⟨scope, hscope, haction⟩ := List.mem_map.mp h
  have hfound : (item.scopes.find? fun scope => scope.action = action).isSome = true :=
    List.find?_isSome.mpr ⟨scope, hscope, decide_eq_true haction⟩
  obtain ⟨latest, hlatest⟩ := Option.isSome_iff_exists.mp hfound
  exact ⟨latest.layer, latest.entry, by rw [latestEntry, hlatest]; rfl⟩

end Item

/-! ## §2. Calls that are widened. -/

namespace Engine

open Run

variable [DecidableEq L] [DecidableEq A]
variable {e : Engine L A S} {s t u : RunState L A S} {id : ItemId} {item tracked : Item L A S}
variable {post older widened : Disjunction S} {activation : LayerId}
variable {new : List (ItemId × Item L A S)}

theorem widensAgainst_eq_some (henters : e.transitions.entersScope item.action = true)
    (hdeep : e.options.maxUnwindings < item.reentryDepth item.action)
    (hentry : item.latestEntry item.action = some (activation, older)) :
    e.widensAgainst item = some older := by
  rw [widensAgainst, if_pos henters, if_pos hdeep, hentry]
  rfl

variable [AbstractState S]

/-- If the domain refuses to widen, so does the step. -/
theorem widen_eq_error {cause : Error} (henters : e.transitions.entersScope item.action = true)
    (hdeep : e.options.maxUnwindings < item.reentryDepth item.action)
    (hentry : item.latestEntry item.action = some (activation, older))
    (hwiden : older.widen post e.domain = .error cause) :
    e.widen id item post u = .error (.refused cause) u := by
  rw [widen, if_pos henters, widenEntry, if_pos hdeep, hentry]
  dsimp only
  rw [hwiden]
  rfl

/-- A call that recurses too deep is widened against the entry state of the activation that it is
about to enter again. -/
theorem exists_widen (h : InFlight id (fun _ => 0) item new t u)
    (hlayer : item.currentLayer.index < u.layers.size)
    (henters : e.transitions.entersScope item.action = true)
    (hdeep : e.options.maxUnwindings < item.reentryDepth item.action)
    (hentry : item.latestEntry item.action = some (activation, older))
    (hwiden : older.widen post e.domain = .ok widened) :
    ∃ v, e.widen id item post u =
        .ok (if widened.isEquivalent older then none else some widened) v ∧
      u.statistics.widenings < v.statistics.widenings := by
  have hagainst := widensAgainst_eq_some henters hdeep hentry
  -- The domain does not refuse, and there is no other way to fail.
  have hfails : FailsWith (fun _ => False) (e.widen id item post) u := by
    refine failsWith_widen h hlayer fun older' cause hagainst' hrefused => ?_
    rw [hagainst] at hagainst'
    cases hagainst'
    rw [hwiden] at hrefused
    cases hrefused
  cases hresult : e.widen id item post u with
  | error halt v => exact (hfails halt v hresult).elim
  | ok result v =>
    refine ⟨v, ?_⟩
    cases widen_ok hresult with
    | kept hkept =>
      rw [hagainst] at hkept
      cases hkept
    | widened hagainst' hwiden' hchanged hcount =>
      rw [hagainst] at hagainst'
      cases hagainst'
      rw [hwiden] at hwiden'
      cases hwiden'
      rw [hchanged]
      exact ⟨rfl, hcount⟩
    | loopFixpoint hstays =>
      rw [henters] at hstays
      cases hstays
    | entryFixpoint _ _ hagainst' hwiden' hsame _ hcount hsubscribed =>
      rw [hagainst] at hagainst'
      cases hagainst'
      rw [hwiden] at hwiden'
      cases hwiden'
      obtain ⟨_, -, -, -, -, -, -, -, hstatistics⟩ := h.logged.subscribed hsubscribed
      rw [hsame, hstatistics]
      exact ⟨rfl, hcount⟩

theorem ComesToWiden.eq_advanced (h : e.ComesToWiden s id item tracked post u) :
    tracked = e.advanced item := by
  obtain ⟨_, _, _, _, _, _, _, _, _, hbook, _⟩ := h
  exact (bookkeep_ok hbook).1

/-- When it comes to widening, the item is in flight, and its layer is there. -/
theorem ComesToWiden.inFlight (hs : e.Orderly s) (hintact : Intact s)
    (h : e.ComesToWiden s id item tracked post u) :
    ∃ t new, InFlight id (fun _ => 0) tracked new t u ∧
      tracked.currentLayer.index < u.layers.size := by
  obtain ⟨worklist, t, t', t'', hpop, hget, htake, hpost, hask, hbook, herror⟩ := h
  have hid : id ∈ s.pending := Worklist.mem_of_pop hpop
  obtain ⟨hcovered, rfl⟩ := isCovered_ok hask
  obtain ⟨rfl, hbooked⟩ := bookkeep_ok hbook
  obtain ⟨added, hflight, hlayers⟩ := takenUp_flight (taken_tidy hs.tidy hpop) hget htake
  rw [hlayers] at hcovered
  obtain ⟨new, hnoted, -, -, -, hsame, -⟩ := hflight.noted hget (hs.tidy.of_pending hid).2.2.2.2
    hpost hcovered hbooked (reportError_ok herror)
  have hsize : u.layers.size = s.layers.size := by
    rw [hsame, hlayers]
    rfl
  refine ⟨_, _, hnoted, ?_⟩
  rw [hsize]
  exact (hintact.nested id item hget).advanced.currentLayer_lt hintact.pos

/-- The recursion depth of a call is the number of entries of the scope stack, with the call's on
top of it, whose action is that of the call or has several entries.  So at most as many entries are
left out as there are other actions on the stack, and a scope more never lowers the depth.

On a stack that is longer than the allowed depth and the number of different actions on it taken
together, every call is therefore too deep.  In a reachable state, one that is on the stack already
is widened against the entry state of its innermost activation, unless the domain refuses. -/
theorem widened_of_long_stack (e : Engine L A S) :
    (∀ (item : Item L A S) (action : A),
      item.reentryDepth action = (item.entries action).countP (fun a =>
        a = action ∨ 2 ≤ (item.entries action).count a) ∧
      item.scopes.length + 1 ≤
        item.reentryDepth action + ((item.scopes.map Scope.action).toFinset.erase action).card ∧
      ∀ call layer before entry, item.reentryDepth action ≤
        (item.enterScope call layer before entry).reentryDepth action) ∧
    (∀ (item : Item L A S) (action : A),
      e.options.maxUnwindings + (item.scopes.map Scope.action).toFinset.card <
        item.scopes.length → e.options.maxUnwindings < item.reentryDepth action) ∧
    ∀ starts s id item tracked post u, e.Reachable starts s →
      e.ComesToWiden s id item tracked post u →
      e.transitions.entersScope tracked.action = true →
      tracked.action ∈ tracked.scopes.map Scope.action →
      e.options.maxUnwindings + (tracked.scopes.map Scope.action).toFinset.card <
        tracked.scopes.length →
      ∃ activation older, tracked.latestEntry tracked.action = some (activation, older) ∧
        (∀ cause, older.widen post e.domain = .error cause →
          e.widen id tracked post u = .error (.refused cause) u) ∧
        ∀ widened, older.widen post e.domain = .ok widened → ∃ v,
          e.widen id tracked post u =
            .ok (if widened.isEquivalent older then none else some widened) v ∧
          u.statistics.widenings < v.statistics.widenings := by
  refine ⟨fun item action => ⟨item.reentryDepth_eq_countP action,
    item.length_lt_reentryDepth_add action, item.reentryDepth_le_enterScope action⟩,
    fun item action => Item.lt_reentryDepth, ?_⟩
  intro starts s id item tracked post u hs hcomes henters hagain hlong
  obtain ⟨horderly, hintact⟩ := hs.intact
  obtain ⟨t, new, hflight, hlayer⟩ := hcomes.inFlight horderly hintact
  obtain ⟨activation, older, hentry⟩ := Item.exists_latestEntry hagain
  have hdeep : e.options.maxUnwindings < tracked.reentryDepth tracked.action :=
    Item.lt_reentryDepth hlong
  exact ⟨activation, older, hentry, fun cause => widen_eq_error henters hdeep hentry,
    fun widened => exists_widen hflight hlayer henters hdeep hentry⟩

/-- A procedure that calls itself, and counts in a second variable once the first is large. -/
def twoCounters : Program Statement := .ofAdditions
  [.procedure "f", .node "f", .node "f", .node "f", .node "f", .internal 4 5 (.assign "x" 0),
    .internal 5 2 (.assign "y" 0), .internal 0 2 (.add "x" 1),
    .internal 0 3 (.assumeAtLeast "x" 10), .internal 3 2 (.add "y" 1), .call 2 1 "f" .nop]

/-- The interval analysis of `twoCounters`, which has no loops. -/
def twoCountersIntervals : Engine Nat (Transition Statement) IntervalState :=
  twoCounters.intervals ⟨.empty⟩ ⟨1, 1, .fifo, false, Nat.one_pos, Nat.one_pos⟩

set_option maxRecDepth 100000 in
/-- After thirteen passes the call has entered three scopes, the second with the first variable
widened and the third with the second variable widened as well.  It is about to enter a fourth. -/
theorem widened_of_long_stack_twoCounters : ∃ s id item tracked post u activation older v,
    twoCountersIntervals.stateAfter [4] 13 = some s ∧
    twoCountersIntervals.ComesToWiden s id item tracked post u ∧
    twoCountersIntervals.transitions.entersScope tracked.action = true ∧
    tracked.scopes.length = 3 ∧ tracked.action ∈ tracked.scopes.map Scope.action ∧
    (tracked.scopes.map Scope.action).toFinset.card = 1 ∧
    1 < tracked.reentryDepth tracked.action ∧
    tracked.latestEntry tracked.action = some (activation, older) ∧
    (∃ result, twoCountersIntervals.widen id tracked post u = .ok result v) ∧
    u.statistics.widenings < v.statistics.widenings := by
  have hcheck : (twoCountersIntervals.stateAfter [4] 13).any (fun s =>
      twoCountersIntervals.widensNext s && s.worklist.pop.any fun pair =>
        (s.items.get pair.1).toOption.any fun item =>
          decide (twoCountersIntervals.transitions.entersScope
              (twoCountersIntervals.advanced item).action = true ∧
            (twoCountersIntervals.advanced item).scopes.length = 3 ∧
            (twoCountersIntervals.advanced item).action ∈
              (twoCountersIntervals.advanced item).scopes.map Scope.action ∧
            ((twoCountersIntervals.advanced item).scopes.map Scope.action).toFinset.card = 1)) =
        true := by
    decide +kernel
  obtain ⟨s, hs, hreachable, hcheck⟩ := exists_of_stateAfter hcheck
  rw [Bool.and_eq_true] at hcheck
  obtain ⟨hwidens, hitem⟩ := hcheck
  obtain ⟨id, worklist, item, tracked, post, u, hpop, hcomes⟩ := exists_of_widensNext hwidens
  obtain rfl := hcomes.eq_advanced
  rw [hpop, Option.any_some] at hitem
  obtain ⟨item', hget, hitem⟩ := exists_of_checkItem hitem
  obtain ⟨henters, hlength, hagain, hsingle⟩ := of_decide_eq_true hitem
  have hsame : item = item' := by
    obtain ⟨_, _, _, _, -, hget', -⟩ := hcomes
    exact Except.ok.inj (hget'.symm.trans hget)
  subst hsame
  have hlong : twoCountersIntervals.options.maxUnwindings +
      ((twoCountersIntervals.advanced item).scopes.map Scope.action).toFinset.card <
        (twoCountersIntervals.advanced item).scopes.length := by
    rw [hlength, hsingle]
    decide
  obtain ⟨-, hdeep, hwidened⟩ := widened_of_long_stack twoCountersIntervals
  obtain ⟨activation, older, hentry, -, hwidened⟩ :=
    hwidened [4] s id item _ post u hreachable hcomes henters hagain hlong
  obtain ⟨widened, hwiden⟩ := Disjunction.widen_eq_ok older post
  obtain ⟨v, hstep, hcount⟩ := hwidened widened hwiden
  exact ⟨s, id, item, _, post, u, activation, older, v, hs, hcomes, henters, hlength, hagain,
    hsingle, hdeep _ _ hlong, hentry, ⟨_, hstep⟩, hcount⟩

end Engine

end Interproc
