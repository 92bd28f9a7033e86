/-
  Interproc.Proofs.Reachability
  ─────────────────────────────
  Induction over the states of a computation.  What holds at the start, and is kept
  by seeding an action and by every pass, holds in every reachable state.

  Main result: `Engine.Reachable.induct`.
-/
import Mathlib
import Interproc.Proofs.Passes

namespace Interproc

variable {L A S : Type} [DecidableEq A] [AbstractState S]

namespace Engine

variable (e : Engine L A S) {s s' : RunState L A S} {id : ItemId} {item : Item L A S}
variable {post : Disjunction S}

/-! ## §1. Stepping over calls. -/

/-- Items that step over a call carry the action that stands for it. -/
def Standing (s : RunState L A S) : Prop :=
  ∀ j i r, s.items.get j = .ok i → i.summary = some r →
    e.transitions.summaryOf r.call = some i.action

/-- The items that a pass may put on the worklist: an exit handed to a call, an item that steps
over a call once more, or a successor. -/
inductive Arrival (s s' : RunState L A S) (id : ItemId) (final : Item L A S) :
    Item L A S → Prop where
  | returned {state : Disjunction S} {action : A} {predecessor : Option ItemId}
      {call : Item L A S} {layer : LayerId} :
      Arrival s s' id final (.returning state action predecessor call layer)
  | redone {j : ItemId} {i : Item L A S} (h : s.Redoes j i) : Arrival s s' id final i
  | successor {widened : Disjunction S} {action : A} :
      Arrival s s' id final (e.successorOf s'.summaries id final widened action)

variable {e}

theorem exists_of_forall₂ {α β : Type} {R : α → β → Prop} {l : List α} {l' : List β} {b : β}
    (h : List.Forall₂ R l l') (hb : b ∈ l') : ∃ a ∈ l, R a b := by
  induction h with
  | nil => cases hb
  | @cons a c l l' hac _ ih =>
    obtain rfl | hb := List.mem_cons.mp hb
    · exact ⟨a, List.mem_cons_self, hac⟩
    · obtain ⟨a', ha', hR⟩ := ih hb
      exact ⟨a', List.mem_cons_of_mem a ha', hR⟩

/-- What a pass hands over is an exit of the item's activation, to a call that waits for it. -/
theorem ExitPart.handed_eq {exits : Exits A S} {handed : List (Item L A S)} {i : Item L A S}
    (h : e.ExitPart item s exits handed) (hi : i ∈ handed) :
    ∃ call ∈ (exits.activation item.currentLayer).calls,
      ∃ exit ∈ (exits.activation item.currentLayer).exits, ∃ callItem,
        s.items.get call = .ok callItem ∧
        i = .returning exit.state exit.action exit.predecessor callItem item.currentLayer := by
  cases h with
  | skipped _ _ hhanded =>
    rw [hhanded] at hi
    cases hi
  | known _ _ _ _ hhanded =>
    rw [hhanded] at hi
    cases hi
  | grown _ _ _ hrecord hhanded =>
    obtain ⟨call, hcall, callItem, hget, rfl⟩ := exists_of_forall₂ hhanded hi
    exact ⟨call, hcall, _, (Exits.record_ok hrecord).1.mem_exit.1, callItem, hget, rfl⟩

theorem ExitPart.arrival {exits : Exits A S} {handed : List (Item L A S)} {final i : Item L A S}
    (h : e.ExitPart item s exits handed) (hi : i ∈ handed) : e.Arrival s s' id final i := by
  obtain ⟨_, -, _, -, _, -, rfl⟩ := h.handed_eq hi
  exact .returned

variable [DecidableEq L]

theorem EndPart.arrival {exits : Exits A S} {summaries : Summaries A S} {final i : Item L A S}
    {new : List (Item L A S)} (h : e.EndPart id item post s exits summaries final new s')
    (hi : i ∈ new) : e.Arrival s s' id final i := by
  cases h with
  | infeasible _ _ hnew =>
    rw [hnew] at hi
    cases hi
  | covered _ _ _ _ hnew =>
    rw [hnew] at hi
    cases hi
  | coveredCall _ _ _ _ _ hnew =>
    rw [hnew] at hi
    obtain ⟨exit, -, rfl⟩ := List.mem_map.mp hi
    exact .returned
  | loopFixpoint _ _ _ _ _ _ _ _ _ hnew =>
    obtain ⟨j, -, hredoes⟩ := exists_of_forall₂ hnew hi
    exact .redone hredoes
  | entryFixpoint _ _ _ _ _ _ _ _ _ _ hredone hnew =>
    rw [hnew] at hi
    obtain hi | hi := List.mem_append.mp hi
    · obtain ⟨j, -, hredoes⟩ := exists_of_forall₂ hredone hi
      exact .redone hredoes
    · obtain ⟨exit, -, rfl⟩ := List.mem_map.mp hi
      exact .returned
  | stored _ _ _ _ _ _ _ _ hredone hnew =>
    rw [hnew] at hi
    obtain hi | hi := List.mem_append.mp hi
    · obtain ⟨j, -, hredoes⟩ := exists_of_forall₂ hredone hi
      exact .redone hredoes
    · split at hi
      · obtain ⟨action, -, rfl⟩ := List.mem_map.mp hi
        exact .successor
      · cases hi

omit [DecidableEq L] in
theorem successorOf_standing {summaries : Summaries A S} {final : Item L A S}
    {widened : Disjunction S} {action : A} {r : SummaryRef A}
    (h : (e.successorOf summaries id final widened action).summary = some r) :
    e.transitions.summaryOf r.call =
      some (e.successorOf summaries id final widened action).action := by
  unfold successorOf at h ⊢
  dsimp only at h ⊢
  split at h
  · rename_i summary standIn hknown hstandIn
    cases h
    split at hknown
    · obtain ⟨i, -, rfl⟩ := Option.map_eq_some_iff.mp hknown
      exact hstandIn
    · cases hknown
  · cases h

/-- The item that a pass leaves behind differs from the one it took in scopes and loops only. -/
theorem EndPart.final_eq {exits : Exits A S} {summaries : Summaries A S} {final : Item L A S}
    {new : List (Item L A S)} (h : e.EndPart id item post s exits summaries final new s') :
    ∃ scopes loops, final = { item with scopes := scopes, loops := loops } := by
  obtain ⟨loops, hadvanced⟩ := e.advanced_eq item
  cases h with
  | infeasible _ hfinal => exact ⟨_, _, hfinal⟩
  | covered _ _ _ hfinal => exact ⟨_, _, hfinal⟩
  | coveredCall _ _ _ _ hfinal => exact ⟨_, _, hfinal⟩
  | loopFixpoint _ _ _ _ _ _ _ _ hfinal => exact ⟨_, _, hfinal.trans hadvanced⟩
  | entryFixpoint _ _ _ _ _ _ _ _ _ hfinal => exact ⟨_, _, hfinal.trans hadvanced⟩
  | stored _ _ _ _ henter =>
    rw [hadvanced] at henter
    generalize hlayers : s.layers = layers at henter
    cases henter with
    | stayed => exact ⟨_, _, rfl⟩
    | entered => exact ⟨_, _, rfl⟩

/-- The live items after a pass: new ones, the one left behind, and old ones. -/
theorem Pass.live {final : Item L A S} (h : e.Pass id item post final s s') :
    (∃ scopes loops, final = { item with scopes := scopes, loops := loops }) ∧
      ∀ j i, s'.items.get j = .ok i → e.Arrival s s' id final i ∨ j = id ∧ i = final ∨
        s.items.get j = .ok i := by
  cases h with
  | intro hpop hget hexit hpost hend hadded hframe =>
    refine ⟨hend.final_eq, fun j i hi => ?_⟩
    obtain hnew | ⟨hj, hfinal, -⟩ | ⟨-, hold, -⟩ := hframe.old j i hi
    · have hmem := List.mem_map_of_mem (f := Prod.snd) hnew
      rw [hadded] at hmem
      obtain hmem | hmem := List.mem_append.mp hmem
      · exact .inl (hexit.arrival hmem)
      · exact .inl (hend.arrival hmem)
    · exact .inr (.inl ⟨hj, hfinal⟩)
    · exact .inr (.inr hold)

theorem Pass.get {final : Item L A S} (h : e.Pass id item post final s s') :
    s.items.get id = .ok item := by
  cases h
  assumption

theorem Pass.standing {final : Item L A S} (h : e.Pass id item post final s s')
    (hs : e.Standing s) : e.Standing s' := by
  obtain ⟨⟨scopes, loops, rfl⟩, hlive⟩ := h.live
  intro j i r hi hsummary
  obtain harrival | ⟨-, rfl⟩ | hold := hlive j i hi
  · cases harrival with
    | returned => cases hsummary
    | redone hredoes =>
      obtain ⟨staleItem, p, predecessor, hstale, -, -, -, rfl⟩ := hredoes
      exact hs _ staleItem r hstale hsummary
    | successor => exact successorOf_standing hsummary
  · exact hs id item r h.get hsummary
  · exact hs j i r hold hsummary

/-! ## §2. Induction over reachable states. -/

omit [DecidableEq L] [DecidableEq A] [AbstractState S] in
/-- The state before the first item is tidy. -/
theorem start_tidy (options : Options) :
    (RunState.start options : RunState L A S).Tidy fun _ => 0 where
  counted := by
    refine ⟨fun _ => rfl, ?_, List.nodup_nil⟩
    intro i hi
    cases hi
  fresh := by
    intro j hj
    cases hj
  linked := by
    intro j i hget
    cases hget
  users := by
    intro j i _ hget
    cases hget

variable (e) in
/-- An action that leaves a start location was seeded. -/
def SeedPart (location : L) (action : A) (s s' : RunState L A S) : Prop :=
  ∃ state stored layers id, e.declarations.initial action e.domain.fresh = .ok state ∧
    s.layers.addState Layers.root location (.single state) = .ok (stored, layers) ∧
    Grows (fun _ => 0) [(id, .initial action (.single state) Layers.root)]
      { s with layers := layers } s'

omit [DecidableEq A] in
theorem Seeded.seedPart {location : L} {action : A} (h : e.Seeded location action s s')
    (hs : s.Tidy fun _ => 0) : e.SeedPart location action s s' := by
  obtain ⟨state, stored, layers, hinitial, hadd, henqueued⟩ := h
  have htidy : RunState.Tidy (fun _ => 0) { s with layers := layers } :=
    hs.shift rfl rfl (fun _ => rfl) fun _ => le_rfl
  obtain ⟨id, hgrows⟩ := henqueued.grows htidy (fun p hp => by cases hp) (fun h => by cases h)
  exact ⟨state, stored, layers, id, hinitial, hadd, hgrows⟩

omit [DecidableEq A] in
theorem SeedPart.standing {location : L} {action : A} (h : e.SeedPart location action s s')
    (hs : e.Standing s) : e.Standing s' := by
  obtain ⟨state, stored, layers, id, -, -, hgrows⟩ := h
  intro j i r hi hsummary
  obtain ⟨rfl, rfl⟩ | ⟨hold, -⟩ := hgrows.old_singleton hi
  · cases hsummary
  · exact hs j i r hold hsummary

variable (e) in
/-- Tidy, and with all items that step over a call in order. -/
structure Orderly (s : RunState L A S) : Prop where
  tidy : s.Tidy fun _ => 0
  standing : e.Standing s

theorem Orderly.pass (hs : e.Orderly s) (h : e.iterate s = .ok true s') :
    e.Orderly s' ∧ ∃ id item post final, e.Pass id item post final s s' := by
  obtain ⟨htidy, id, item, post, final, hpass⟩ := iterate_pass hs.tidy h
  exact ⟨⟨htidy, hpass.standing hs.standing⟩, id, item, post, final, hpass⟩

omit [DecidableEq A] in
/-- What holds at the start and is kept by seeding holds once all actions are seeded. -/
theorem seed_induct {P : RunState L A S → Prop} {starts : List L}
    (hstart : P (.start e.options))
    (hseed : ∀ l ∈ starts, ∀ a ∈ e.transitions.actionsFrom l, ∀ s s', e.Orderly s →
      e.SeedPart l a s s' → P s → P s')
    (h : e.seed starts (.start e.options) = .ok () s) : e.Orderly s ∧ P s := by
  have hfirst : e.Orderly (.start e.options) := ⟨start_tidy e.options, fun j i r hi => by cases hi⟩
  refine (seed_ok h).preserves (P := fun s => e.Orderly s ∧ P s) (fun l hl t t' hactions ht => ?_)
    ⟨hfirst, hstart⟩
  refine hactions.preserves (P := fun s => e.Orderly s ∧ P s) (fun a ha u u' hseeded hu => ?_) ht
  have hpart := hseeded.seedPart hu.1.tidy
  refine ⟨⟨?_, hpart.standing hu.1.standing⟩, hseed l hl a ha u u' hu.1 hpart hu.2⟩
  obtain ⟨state, stored, layers, id, -, -, hgrows⟩ := hpart
  exact hgrows.tidy

/-- What holds at the start, and is kept by seeding and by every pass, holds in every reachable
state. -/
theorem Reachable.induct {P : RunState L A S → Prop} {starts : List L}
    (hstart : P (.start e.options))
    (hseed : ∀ l ∈ starts, ∀ a ∈ e.transitions.actionsFrom l, ∀ s s', e.Orderly s →
      e.SeedPart l a s s' → P s → P s')
    (hpass : ∀ s s' id item post final, e.Orderly s → e.Orderly s' →
      e.Pass id item post final s s' → P s → P s')
    (h : e.Reachable starts s) : e.Orderly s ∧ P s := by
  induction h with
  | seeded hs => exact seed_induct hstart hseed hs
  | iterated _ hiterate ih =>
    obtain ⟨horderly, id, item, post, final, hp⟩ := ih.1.pass hiterate
    exact ⟨horderly, hpass _ _ id item post final ih.1 horderly hp ih.2⟩

theorem Reachable.orderly {starts : List L} (h : e.Reachable starts s) : e.Orderly s :=
  (h.induct (P := fun _ => True) trivial (fun _ _ _ _ _ _ _ _ _ => trivial)
    fun _ _ _ _ _ _ _ _ _ _ => trivial).1

/-! ## §3. Evaluating computations. -/

variable (e) in
/-- The state of a computation after a number of passes, if there are as many. -/
def stateAfter (starts : List L) : Nat → Option (RunState L A S)
  | 0 =>
    match e.seed starts (.start e.options) with
    | .ok _ s => some s
    | .error _ _ => none
  | n + 1 => (stateAfter starts n).bind fun s =>
    match e.iterate s with
    | .ok true s' => some s'
    | _ => none

theorem stateAfter_zero {starts : List L} :
    e.stateAfter starts 0 = some s ↔ e.seed starts (.start e.options) = .ok () s := by
  unfold stateAfter
  cases e.seed starts (.start e.options) with
  | ok _ s₀ => simp
  | error halt s₀ => simp

theorem stateAfter_of_iterate {starts : List L} {n : Nat} (hs : e.stateAfter starts n = some s)
    (hiterate : e.iterate s = .ok true s') : e.stateAfter starts (n + 1) = some s' := by
  unfold stateAfter
  rw [hs, Option.bind_some, hiterate]

theorem iterate_of_stateAfter {starts : List L} {n : Nat}
    (h : e.stateAfter starts (n + 1) = some s') :
    ∃ s, e.stateAfter starts n = some s ∧ e.iterate s = .ok true s' := by
  obtain ⟨s, hs, h⟩ := Option.bind_eq_some_iff.mp h
  split at h
  · rename_i hiterate
    cases h
    exact ⟨s, hs, hiterate⟩
  · cases h

theorem reachable_of_stateAfter {starts : List L} {n : Nat} (h : e.stateAfter starts n = some s) :
    e.Reachable starts s := by
  induction n generalizing s with
  | zero => exact .seeded (stateAfter_zero.mp h)
  | succ n ih =>
    obtain ⟨t, ht, hiterate⟩ := iterate_of_stateAfter h
    exact (ih ht).iterated hiterate

/-- What can be checked of the state after a number of passes. -/
theorem exists_of_stateAfter {starts : List L} {n : Nat} {check : RunState L A S → Bool}
    (h : (e.stateAfter starts n).any check = true) :
    ∃ s, e.stateAfter starts n = some s ∧ e.Reachable starts s ∧ check s = true := by
  obtain ⟨s, hs, hcheck⟩ := (Option.any_eq_true _ _).mp h
  exact ⟨s, hs, reachable_of_stateAfter hs, hcheck⟩

omit [DecidableEq L] [DecidableEq A] [AbstractState S] in
/-- What can be checked of the item at a position. -/
theorem exists_of_checkItem {check : Item L A S → Bool}
    (h : (s.items.get id).toOption.any check = true) :
    ∃ i, s.items.get id = .ok i ∧ check i = true := by
  cases hget : s.items.get id with
  | error cause =>
    rw [hget] at h
    cases h
  | ok i =>
    rw [hget] at h
    exact ⟨i, rfl, h⟩

variable (e) in
/-- Whether the next item can be taken up and processed, and a check of it and of the states after
its action succeeds. -/
def processesNext (check : Item L A S → Disjunction S → Bool) (s : RunState L A S) : Bool :=
  match s.worklist.pop with
  | none => false
  | some (id, worklist) =>
    match s.items.get id with
    | .error _ => false
    | .ok item =>
      match e.takeUp id item (taken worklist s), e.process id (taken worklist s) with
      | .ok post _, .ok _ _ => check item post
      | _, _ => false

theorem exists_of_processesNext {check : Item L A S → Disjunction S → Bool}
    (h : e.processesNext check s = true) :
    ∃ id worklist item post t u, s.worklist.pop = some (id, worklist) ∧
      s.items.get id = .ok item ∧ e.takeUp id item (taken worklist s) = .ok post t ∧
      e.process id (taken worklist s) = .ok () u ∧ check item post = true := by
  unfold processesNext at h
  split at h
  · cases h
  · rename_i id worklist hpop
    split at h
    · cases h
    · rename_i item hget
      split at h
      · rename_i post t _ u htake hprocess
        exact ⟨id, worklist, item, post, t, u, hpop, hget, htake, hprocess, h⟩
      · cases h

variable (e) in
/-- Whether a computation ends with an answer that passes a check. -/
def answers (budget : Nat) (starts : List L) (check : Answer L A S → Bool) : Bool :=
  match e.run budget starts with
  | .ok answer _ => check answer
  | .error _ _ => false

theorem exists_of_answers {budget : Nat} {starts : List L} {check : Answer L A S → Bool}
    (h : e.answers budget starts check = true) :
    ∃ answer s, e.run budget starts = .ok answer s ∧ check answer = true := by
  unfold answers at h
  split at h
  · rename_i answer s hrun
    exact ⟨answer, s, hrun, h⟩
  · cases h

end Engine

end Interproc
