/-
  Interproc.Proofs.Ownership
  ──────────────────────────
  Reference counts are exact, and nothing leaks.  A computation touches the arena in
  four ways only: it takes a reference, it replaces an item, it inserts an item and
  puts it on the worklist, and it gives a reference back.  Each of them leaves every
  live item with a reference, and the counter of live items right.  Hence a live item
  is held by the worklist, by a successor, by an activation or by a summary; and where
  no scopes are entered or left, only the first two of these are there, so that
  nothing is live once the worklist is empty.

  Main result: `Engine.references_eq_holders`.
-/
import Mathlib
import Interproc.Proofs.Exactness
import Interproc.Proofs.Safety

namespace Interproc

variable {L A S : Type}

/-! ## §1. Arenas that are kept well. -/

namespace Arena

variable {a a' b : Arena L A S} {id j : ItemId} {item : Item L A S}

/-- Every live item is referred to; the vacant slots and the number of live items are known. -/
structure Kept (a : Arena L A S) : Prop where
  referred : ∀ j slot, a.slot? j = some slot → 0 < slot.references
  live_eq : a.live = a.occupied
  vacant_lt : ∀ i ∈ a.vacant, a.slots[i]? = some none
  vacant_nodup : a.vacant.Nodup

theorem Kept.empty : ({} : Arena L A S).Kept where
  referred := fun _ _ hslot => by cases hslot
  live_eq := rfl
  vacant_lt := fun _ hi => by cases hi
  vacant_nodup := List.nodup_nil

/-- A live slot may be overwritten by one that is referred to. -/
theorem Kept.setSlot {old slot : Slot L A S} (h : a.Kept) (hold : a.slot? id = some old)
    (hslot : 0 < slot.references) : (a.setSlot id (some slot)).Kept where
  referred := by
    intro j s hs
    rw [slot?_setSlot hold] at hs
    split at hs
    · cases hs
      exact hslot
    · exact h.referred j s hs
  live_eq := by
    have hcount := countP_setIfInBounds Option.isSome (getElem?_of_slot? hold) (v := some slot)
    exact h.live_eq.trans (Nat.add_right_cancel hcount).symm
  vacant_lt := fun i hi => vacant_setSlot hold (h.vacant_lt i hi)
  vacant_nodup := h.vacant_nodup

theorem Kept.retain (h : a.Kept) (hretain : a.retain id = .ok a') : a'.Kept := by
  unfold Arena.retain at hretain
  cases hslot : a.slot? id with
  | none =>
    rw [hslot] at hretain
    cases hretain
  | some slot =>
    rw [hslot] at hretain
    cases hretain
    exact h.setSlot hslot (Nat.succ_pos _)

theorem Kept.set (h : a.Kept) (hset : a.set id item = .ok a') : a'.Kept := by
  unfold Arena.set at hset
  cases hslot : a.slot? id with
  | none =>
    rw [hslot] at hset
    cases hset
  | some slot =>
    rw [hslot] at hset
    cases hset
    exact h.setSlot hslot (h.referred id slot hslot)

/-- A new item is not referred to at first, but it is as soon as the worklist holds it. -/
theorem Kept.enqueue (h : a.Kept) (hinsert : a.insert item = .ok (id, b))
    (hretain : b.retain id = .ok a') : a'.Kept := by
  obtain ⟨c, hc, hplace⟩ : ∃ c : Arena L A S, c.Kept ∧ c.place item = (id, b) := by
    unfold Arena.insert at hinsert
    cases hp : item.predecessor with
    | none =>
      rw [hp] at hinsert
      exact ⟨a, h, Except.ok.inj hinsert⟩
    | some p =>
      rw [hp] at hinsert
      obtain ⟨c, hc, hplace⟩ := except_bind_eq_ok.mp hinsert
      exact ⟨c, h.retain hc, Except.ok.inj hplace⟩
  have hplaced := placed_of_place hc.vacant_lt hc.vacant_nodup hplace
  have hslot : b.slot? id = some ⟨item, 0⟩ := by rw [hplaced.slot?_eq, if_pos rfl]
  unfold Arena.retain at hretain
  rw [hslot] at hretain
  cases hretain
  constructor
  · intro j slot hj
    rw [slot?_setSlot hslot] at hj
    split at hj
    · cases hj
      exact Nat.one_pos
    · rename_i hne
      rw [hplaced.slot?_eq, if_neg hne] at hj
      exact hc.referred j slot hj
  · have hcount := countP_setIfInBounds Option.isSome (getElem?_of_slot? hslot)
      (v := some ⟨item, 1⟩)
    show b.live = _
    rw [hplaced.live_eq, hc.live_eq, ← hplaced.occupied_eq]
    exact (Nat.add_right_cancel hcount).symm
  · exact fun i hi => vacant_setSlot hslot (hplaced.vacant_lt i hi)
  · exact hplaced.vacant_nodup

theorem Kept.vacate {slot : Slot L A S} (h : a.Kept) (hslot : a.slot? id = some slot) :
    (a.vacate id).Kept := by
  obtain ⟨hvacant, hnodup⟩ := vacant_vacate hslot h.vacant_lt h.vacant_nodup
  refine ⟨fun j s hs => ?_, ?_, hvacant, hnodup⟩
  · rw [slot?_vacate hslot] at hs
    split at hs
    · cases hs
    · exact h.referred j s hs
  · have hoccupied := occupied_vacate hslot
    have hlive := h.live_eq
    show a.live - 1 = (a.vacate id).occupied
    omega

theorem Kept.releaseChain {n : Nat} (h : a.Kept)
    (hrelease : Arena.releaseChain n id a = .ok () a') : a'.Kept := by
  induction n generalizing a id with
  | zero =>
    cases hrelease
    exact h
  | succ n ih =>
    unfold Arena.releaseChain at hrelease
    cases hslot : a.slot? id with
    | none => simp [hslot] at hrelease
    | some slot =>
      simp only [hslot] at hrelease
      split at hrelease
      · rename_i hshared
        cases hrelease
        exact h.setSlot hslot (Nat.sub_pos_of_lt hshared)
      · cases hp : slot.item.predecessor with
        | none =>
          simp only [hp] at hrelease
          cases hrelease
          exact h.vacate hslot
        | some p =>
          simp only [hp] at hrelease
          exact ih (h.vacate hslot) hrelease

/-- Where predecessors do not lead in a circle, some live item has no successor. -/
theorem Rooted.exists_lonely (h : a.Rooted) (hget : a.get id = .ok item) :
    ∃ j i, a.get j = .ok i ∧ a.successors j = 0 := by
  -- Otherwise every chain could be made longer at its end, but chains are no longer than the arena.
  by_contra hnone
  simp only [not_exists, not_and] at hnone
  have hlong : ∀ n, ∃ j chain, a.Descends j chain ∧ n ≤ chain.length := by
    intro n
    induction n with
    | zero =>
      obtain ⟨chain, hchain⟩ := h id item hget
      exact ⟨id, chain, hchain, Nat.zero_le _⟩
    | succ n ih =>
      obtain ⟨j, chain, hchain, hn⟩ := ih
      obtain ⟨i, hi⟩ : ∃ i, a.get j = .ok i := by
        cases hchain with
        | first hi => exact ⟨_, hi⟩
        | next hi => exact ⟨_, hi⟩
      obtain ⟨k, i', hk, hp⟩ := exists_of_successors_pos (Nat.pos_of_ne_zero (hnone j i hi))
      exact ⟨k, k :: chain, .next hk hp hchain, Nat.succ_le_succ hn⟩
  obtain ⟨j, chain, hchain, hn⟩ := hlong (a.slots.size + 1)
  have hle := hchain.length_le
  omega

theorem Kept.live_eq_zero (h : a.Kept) (hnone : ∀ j, a.slot? j = none) : a.live = 0 := by
  rw [h.live_eq]
  show a.slots.toList.countP Option.isSome = 0
  rw [List.countP_eq_zero]
  intro slot hmem hsome
  obtain ⟨k, hk⟩ := List.mem_iff_getElem?.mp hmem
  rw [Array.getElem?_toList] at hk
  have hslot := hnone ⟨k⟩
  unfold slot? at hslot
  rw [hk] at hslot
  have hjoin : slot = none := hslot
  rw [hjoin] at hsome
  cases hsome

/-! ## §2. The steps of a computation. -/

/-- A property of arenas that all ways in which a computation handles items keep. -/
structure Upheld (P : Arena L A S → Prop) : Prop where
  retain : ∀ {a a' id}, P a → a.retain id = .ok a' → P a'
  set : ∀ {a a' id item}, P a → a.set id item = .ok a' → P a'
  enqueue : ∀ {a b a' id item}, P a → a.insert item = .ok (id, b) → b.retain id = .ok a' → P a'
  release : ∀ {a a' id}, P a → Arena.release id a = .ok () a' → P a'

theorem upheld_kept : Upheld (Kept (L := L) (A := A) (S := S)) where
  retain := Kept.retain
  set := Kept.set
  enqueue := Kept.enqueue
  release := Kept.releaseChain

end Arena

section Steps

variable {P : Arena L A S → Prop} {s s' : RunState L A S} {id : ItemId} {item : Item L A S}
variable {layer : LayerId}

theorem Enqueued.upheld (h : Enqueued item s s') (hP : Arena.Upheld P) (hs : P s.items) :
    P s'.items := by
  obtain ⟨id, items, items', events, hinsert, hretain, rfl⟩ := h
  exact hP.enqueue hs hinsert hretain

theorem HandedTo.upheld {exit : ScopeExit A S} (h : HandedTo id layer exit s s')
    (hP : Arena.Upheld P) (hs : P s.items) : P s'.items := by
  obtain ⟨_, -, henqueued⟩ := h
  exact henqueued.upheld hP hs

theorem Subscribed.upheld (h : Subscribed id layer s s') (hP : Arena.Upheld P) (hs : P s.items) :
    P s'.items := by
  obtain ⟨items, events, hretain, heach⟩ := h
  exact heach.preserves (P := fun u => P u.items) (fun _ _ _ _ hstep => hstep.upheld hP)
    (hP.retain hs hretain)

theorem Requeued.upheld (h : Requeued id s s') (hP : Arena.Upheld P) (hs : P s.items) :
    P s'.items := by
  obtain ⟨_, -, ⟨-, rfl⟩ | ⟨p, q, s₁, items, -, -, henqueued, hrelease, rfl⟩⟩ := h
  · exact hs
  · exact hP.release (henqueued.upheld hP hs) hrelease

end Steps

namespace Engine

variable [DecidableEq A] [AbstractState S]
variable {e : Engine L A S} {P : Arena L A S → Prop} {s s' : RunState L A S} {id : ItemId}
variable {item : Item L A S} {post : Disjunction S} {starts : List L}

theorem ExitTaken.upheld (h : e.ExitTaken item s s') (hP : Arena.Upheld P) (hs : P s.items) :
    P s'.items := by
  cases h with
  | skipped => exact hs
  | known => exact hs
  | @grown _ change exits items events statistics _ _ _ _ hheld _ hhanded =>
    refine hhanded.preserves (P := fun u => P u.items) (fun _ _ _ _ hstep => hstep.upheld hP) ?_
    show P items
    unfold heldBy at hheld
    split at hheld
    · exact hP.retain hs hheld
    · cases hheld
      exact hs

theorem Computed.upheld (h : e.Computed id item post s s') (hP : Arena.Upheld P)
    (hs : P s.items) : P s'.items := by
  cases h with
  | interpreted _ _ hlogged =>
    obtain ⟨_, _, -, rfl⟩ := hlogged
    exact hs
  | summarised _ _ hretain => exact hP.retain hs hretain

variable [DecidableEq L]

theorem Widened.upheld {result : Option (Disjunction S)} (h : e.Widened id item post result s s')
    (hP : Arena.Upheld P) (hs : P s.items) : P s'.items := by
  cases h with
  | kept => exact hs
  | widened => exact hs
  | loopFixpoint => exact hs
  | entryFixpoint _ _ _ _ _ _ _ hsubscribed => exact hsubscribed.upheld hP hs

theorem Propagated.upheld (h : e.Propagated id item post s s') (hP : Arena.Upheld P)
    (hs : P s.items) : P s'.items := by
  have hbooked : ∀ {s₁}, e.Bookkept id item post s s₁ → P s₁.items := by
    rintro s₁ ⟨items, events, hset, heach⟩
    exact heach.preserves (P := fun u => P u.items) (fun _ _ _ _ hstep => hstep.upheld hP)
      (hP.set hs hset)
  have hreported : ∀ {s₁ s₂}, e.ErrorReported id (e.advanced item).action post s₁ s₂ →
      P s₁.items → P s₂.items := by
    intro s₁ s₂ herror h₁
    cases herror with
    | silent => exact h₁
    | reported => exact h₁
  cases h with
  | fixpoint hbook herror hwiden => exact hwiden.upheld hP (hreported herror (hbooked hbook))
  | @stored s₁ s₂ s₃ s₄ s₅ widened inside changed hbook herror hwiden henter hstore hgo =>
    have h₃ : P s₃.items := hwiden.upheld hP (hreported herror (hbooked hbook))
    have h₄ : P s₄.items := by
      cases henter with
      | stayed => exact h₃
      | entered _ _ hset => exact hP.set h₃ hset
    have h₅ : P s₅.items := by
      obtain ⟨_, _, _, _, _, -, -, -, -, rfl⟩ := hstore
      exact h₄
    cases changed with
    | false =>
      rw [if_neg Bool.false_ne_true] at hgo
      exact hgo ▸ h₅
    | true =>
      rw [if_pos rfl] at hgo
      obtain ⟨events, heach⟩ := hgo
      exact heach.preserves (P := fun u => P u.items) (fun _ _ _ _ hstep => hstep.upheld hP) h₅

theorem Ended.upheld (h : e.Ended id item post s s') (hP : Arena.Upheld P) (hs : P s.items) :
    P s'.items := by
  cases h with
  | infeasible _ hs' => exact hs' ▸ hs
  | covered _ _ hdropped =>
    obtain ⟨events, hdropped⟩ := hdropped
    split at hdropped
    · exact hdropped.upheld hP hs
    · exact hdropped ▸ hs
  | propagated _ _ hpropagated => exact hpropagated.upheld hP hs

/-- A pass keeps what all ways to handle items keep. -/
theorem Passed.upheld (h : e.Passed id item post s s') (hP : Arena.Upheld P) (hs : P s.items) :
    P s'.items := by
  obtain ⟨worklist, s₁, items, -, -, ⟨-, s₂, ⟨s₃, hexit, hcomputed⟩, hended⟩, hrelease, rfl⟩ := h
  have h₃ : P s₃.items := hexit.upheld hP hs
  exact hP.release (hended.upheld hP (hcomputed.upheld hP h₃)) hrelease

/-- What holds of the empty arena, and is kept by all ways to handle items, holds throughout. -/
theorem Reachable.upheld (h : e.Reachable starts s) (hP : Arena.Upheld P) (hempty : P {}) :
    P s.items := by
  induction h with
  | seeded hseed =>
    refine (seed_ok hseed).preserves (P := fun u => P u.items) (fun _ _ t t' hactions => ?_) hempty
    refine hactions.preserves (P := fun u => P u.items) fun _ _ u u' hseeded hu => ?_
    obtain ⟨_, _, _, -, -, henqueued⟩ := hseeded
    exact henqueued.upheld hP hu
  | iterated _ hiterate ih =>
    obtain ⟨hfalse, -⟩ | ⟨-, _, _, _, hpassed⟩ := iterate_ok hiterate
    · cases hfalse
    · exact hpassed.upheld hP ih

end Engine

/-! ## §3. Computations without scopes. -/

/-- An action that neither enters a scope nor leaves one. -/
def Transitions.Stays (t : Transitions L A) (a : A) : Prop :=
  t.entersScope a = false ∧ ∀ scope, t.leavesScope a scope = false

/-- No action that a computation can come across enters or leaves a scope. -/
structure Transitions.WithoutScopes (t : Transitions L A) : Prop where
  actionsFrom : ∀ l, ∀ a ∈ t.actionsFrom l, t.Stays a
  following : ∀ a scope, ∀ b ∈ t.following a scope, t.Stays b

namespace Engine

variable [DecidableEq L] [DecidableEq A] [AbstractState S]
variable {e : Engine L A S} {s s' : RunState L A S} {id : ItemId} {item final : Item L A S}
variable {post : Disjunction S} {starts : List L}

variable (e) in
/-- Nothing is remembered about scopes. -/
structure Scopeless (s : RunState L A S) : Prop where
  exits : s.exits = {}
  stays : ∀ j i, s.items.get j = .ok i → e.transitions.Stays i.action
  plain : ∀ j i, s.items.get j = .ok i → i.summary = none

theorem Scopeless.pass (hwithout : e.transitions.WithoutScopes) (hs : e.Orderly s)
    (hs' : e.Orderly s') (h : e.Scopeless s) (hpass : e.Pass id item post final s s') :
    e.Scopeless s' := by
  have hstays := h.stays id item hpass.get
  -- No item leaves a scope or waits for one, so no exit is ever recorded.
  have hexits : s'.exits = {} := by
    cases hpass with
    | intro _ _ hexit _ hend =>
      obtain hsame | ⟨_, -, henters, -⟩ := hend.subscribed
      · have hleaves : e.leaves item = false := hstays.2 _
        cases hexit with
        | skipped _ hskipped => rw [hsame, hskipped, h.exits]
        | known htrue => exact absurd htrue (by rw [hleaves]; exact Bool.false_ne_true)
        | grown htrue => exact absurd htrue (by rw [hleaves]; exact Bool.false_ne_true)
      · rw [hstays.1] at henters
        cases henters
  have hitems : ∀ j i, s'.items.get j = .ok i →
      e.transitions.Stays i.action ∧ i.summary = none := by
    intro j i hi
    cases hpass.origin hs hs' hi with
    | returned hexit =>
      rw [hexits] at hexit
      cases hexit
    | redone hstale _ _ hsummary =>
      rw [h.plain _ _ hstale] at hsummary
      cases hsummary
    | successor _ hmem =>
      have haction := hwithout.following _ _ _ (List.mem_filter.mp hmem).1
      rw [successorOf_of_stays haction.1]
      exact ⟨haction, rfl⟩
    | final =>
      obtain ⟨⟨scopes, loops, hshape⟩, -⟩ := hpass.live
      rw [hshape]
      exact ⟨hstays, h.plain id item hpass.get⟩
    | old _ hold => exact ⟨h.stays j i hold, h.plain j i hold⟩
  exact ⟨hexits, fun j i hi => (hitems j i hi).1, fun j i hi => (hitems j i hi).2⟩

omit [DecidableEq A] in
theorem Scopeless.seed (hwithout : e.transitions.WithoutScopes) (h : e.Scopeless s)
    {location : L} {action : A} (haction : action ∈ e.transitions.actionsFrom location)
    (hseed : e.SeedPart location action s s') : e.Scopeless s' := by
  obtain ⟨state, _, _, _, -, -, hgrows⟩ := hseed
  refine ⟨hgrows.unmoved.exits.trans h.exits, fun j i hi => ?_, fun j i hi => ?_⟩
  · obtain ⟨rfl, rfl⟩ | ⟨hold, -⟩ := hgrows.old_singleton hi
    · exact hwithout.actionsFrom location action haction
    · exact h.stays j i hold
  · obtain ⟨rfl, rfl⟩ | ⟨hold, -⟩ := hgrows.old_singleton hi
    · rfl
    · exact h.plain j i hold

omit [DecidableEq L] [DecidableEq A] [AbstractState S] in
theorem Flat.withoutScopes (h : e.Flat) : e.transitions.WithoutScopes where
  actionsFrom := fun _ _ ha => ⟨h.enters ha, (h.direct ha).1⟩
  following := fun _ _ _ hb => ⟨h.enters (h.follows hb), (h.direct (h.follows hb)).1⟩

theorem Reachable.scopeless (hwithout : e.transitions.WithoutScopes) (h : e.Reachable starts s) :
    e.Scopeless s := by
  have hstart : e.Scopeless (.start e.options) :=
    ⟨rfl, fun _ _ hi => (nomatch hi), fun _ _ hi => (nomatch hi)⟩
  exact (h.induct hstart (fun _ _ _ ha _ _ _ hseed hs => hs.seed hwithout ha hseed)
    fun _ _ _ _ _ _ hs hs' hpass hscopeless => hscopeless.pass hwithout hs hs' hpass).2

end Engine

/-! ## §4. Who holds an item. -/

namespace Exits

variable (m : Exits A S) (j : ItemId)

/-- How often an item waits, as a call, for the returns of an activation. -/
def subscriptions : Nat := m.activations.total fun a => a.calls.count j

/-- How many recorded exits have an item as their predecessor. -/
def followers : Nat :=
  m.activations.total fun a => a.exits.countP fun exit => exit.predecessor = some j

theorem held_eq : m.held j = m.subscriptions j + m.followers j := by
  unfold held subscriptions followers Table.total
  rw [← List.sum_map_add]
  rfl

end Exits

namespace Engine

variable [DecidableEq L] [DecidableEq A] [AbstractState S]
variable {e : Engine L A S} {s : RunState L A S} {starts : List L}

/-- Without scopes, nothing is live once the worklist is empty. -/
theorem Reachable.slot?_eq_none (hwithout : e.transitions.WithoutScopes) (h : e.Reachable starts s)
    (hempty : s.pending = []) (j : ItemId) : s.items.slot? j = none := by
  obtain ⟨horderly, hintact⟩ := h.intact
  have hscopeless := h.scopeless hwithout
  by_contra hlive
  obtain ⟨slot, hslot⟩ := Option.ne_none_iff_exists'.mp hlive
  obtain ⟨k, i, hk, hlonely⟩ := hintact.rooted.exists_lonely
    (Arena.get_eq_ok_iff.mpr ⟨slot.references, hslot⟩)
  obtain ⟨n, hn⟩ := Arena.get_eq_ok_iff.mp hk
  -- The item that nobody follows is referred to, but there is nobody left who could hold it.
  have hpos : 0 < n := (h.upheld Arena.upheld_kept .empty).referred k _ hn
  have href := horderly.tidy.counted.references_eq k
  rw [Arena.references_of_slot? hn] at href
  have hexits : s.exits.held k = 0 := by
    rw [hscopeless.exits]
    rfl
  have hsummaries : s.summaries.held k = 0 := by
    by_contra hne
    have hsome := horderly.tidy.users k i (Nat.pos_of_ne_zero hne) hk
    rw [hscopeless.plain k i hk] at hsome
    cases hsome
  simp only [RunState.held, hempty, List.count_nil] at href
  omega

/-- Reference counts are exact, and nothing leaks.  Between two passes, every live item is referred
to, as often as it occurs on the worklist, is the predecessor of a live item, waits for an
activation as a call, is the predecessor of a recorded exit, and occurs among the uses of a
summary.  Where no action enters or leaves a scope, the arena is empty once the worklist is. -/
theorem references_eq_holders (h : e.Reachable starts s) :
    (∀ j slot, s.items.slot? j = some slot → 0 < slot.references ∧
      slot.references = s.pending.count j + s.items.successors j + s.exits.subscriptions j +
        s.exits.followers j + s.summaries.held j) ∧
    (e.transitions.WithoutScopes → s.pending = [] →
      s.items.live = 0 ∧ ∀ j, s.items.slot? j = none) := by
  have hkept := h.upheld Arena.upheld_kept .empty
  refine ⟨fun j slot hslot => ⟨hkept.referred j slot hslot, ?_⟩, fun hwithout hempty => ?_⟩
  · have href := h.orderly.tidy.counted.references_eq j
    rw [Arena.references_of_slot? hslot, RunState.held, Exits.held_eq] at href
    omega
  · have hnone := h.slot?_eq_none hwithout hempty
    exact ⟨hkept.live_eq_zero hnone, hnone⟩

/-- A procedure that calls itself, called twice with the same states. -/
def twofold : Program Statement := .ofAdditions
  [.procedure "main", .procedure "f", .node "f", .node "main", .node "main", .node "main",
    .internal 0 5 (.assign "x" 0), .call 5 6 "f" .nop, .internal 6 7 (.assign "x" 0),
    .call 7 1 "f" .nop, .internal 2 3 (.assumeAtLeast "x" 1), .internal 2 4 (.add "x" 1),
    .call 4 3 "f" .nop]

/-- The interval analysis of `twofold` that steps over the second call by a summary. -/
def twofoldIntervals : Engine Nat (Transition Statement) IntervalState :=
  twofold.intervals ⟨.empty⟩ ⟨1, 1, .fifo, true, Nat.one_pos, Nat.one_pos⟩

set_option maxRecDepth 100000 in
/-- After twenty-two passes over `twofold`, one item is held by a successor and by an exit, one by
a successor and by a summary, one as a waiting call, and one by the worklist.  Nothing is left of
the loop `counting` in the end. -/
theorem references_eq_holders_twofold :
    (∃ s held used waiting pending, twofoldIntervals.stateAfter [0] 22 = some s ∧
      s.items.slot? ⟨9⟩ = some held ∧ held.references = 2 ∧ s.items.successors ⟨9⟩ = 1 ∧
      s.exits.followers ⟨9⟩ = 1 ∧ s.items.slot? ⟨17⟩ = some used ∧ used.references = 2 ∧
      s.items.successors ⟨17⟩ = 1 ∧ s.summaries.held ⟨17⟩ = 1 ∧
      s.items.slot? ⟨13⟩ = some waiting ∧ waiting.references = s.exits.subscriptions ⟨13⟩ ∧
      s.items.slot? ⟨16⟩ = some pending ∧ pending.references = s.pending.count ⟨16⟩ ∧
      ∀ j slot, s.items.slot? j = some slot → 0 < slot.references ∧
        slot.references = s.pending.count j + s.items.successors j + s.exits.subscriptions j +
          s.exits.followers j + s.summaries.held j) ∧
    ∃ s, countingIntervals.stateAfter [0] 9 = some s ∧ s.pending = [] ∧
      countingIntervals.transitions.WithoutScopes ∧ s.items.live = 0 ∧
      ∀ j, s.items.slot? j = none := by
  constructor
  · have hcheck : (twofoldIntervals.stateAfter [0] 22).any (fun s =>
        (s.items.slot? ⟨9⟩).any (fun slot => slot.references = 2) &&
        (s.items.slot? ⟨17⟩).any (fun slot => slot.references = 2) &&
        (s.items.slot? ⟨13⟩).any (fun slot => slot.references = s.exits.subscriptions ⟨13⟩) &&
        (s.items.slot? ⟨16⟩).any (fun slot => slot.references = s.pending.count ⟨16⟩) &&
        decide (s.items.successors ⟨9⟩ = 1 ∧ s.exits.followers ⟨9⟩ = 1 ∧
          s.items.successors ⟨17⟩ = 1 ∧ s.summaries.held ⟨17⟩ = 1)) = true := by
      decide +kernel
    obtain ⟨s, hs, hreachable, hcheck⟩ := exists_of_stateAfter hcheck
    simp only [Bool.and_eq_true, Option.any_eq_true, decide_eq_true_eq] at hcheck
    obtain ⟨⟨⟨⟨⟨held, hheld, hheld'⟩, used, hused, hused'⟩, waiting, hwaiting, hwaiting'⟩,
      pending, hpending, hpending'⟩, hsuccessors, hfollowers, hsuccessors', huses⟩ := hcheck
    exact ⟨s, held, used, waiting, pending, hs, hheld, hheld', hsuccessors, hfollowers, hused,
      hused', hsuccessors', huses, hwaiting, hwaiting', hpending, hpending',
      (references_eq_holders hreachable).1⟩
  · have hcheck : (countingIntervals.stateAfter [0] 9).any (fun s => s.pending.isEmpty) = true := by
      decide +kernel
    obtain ⟨s, hs, hreachable, hempty⟩ := exists_of_stateAfter hcheck
    have hempty := List.isEmpty_iff.mp hempty
    have hwithout : countingIntervals.transitions.WithoutScopes :=
      Flat.withoutScopes (flat_of_kind (p := counting) rfl (by decide +kernel))
    obtain ⟨hlive, hnone⟩ := (references_eq_holders hreachable).2 hwithout hempty
    exact ⟨s, hs, hempty, hwithout, hlive, hnone⟩

end Engine

end Interproc
