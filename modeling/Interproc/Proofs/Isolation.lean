/-
  Interproc.Proofs.Isolation
  ──────────────────────────
  Scopes isolate the context of their caller.  The loops of all scopes are on one
  stack, and a scope tells its own loops from the others only by the mark it was
  given when it was entered.  Two invariants of single operations make this safe:

    * marks never exceed the number of active loops and only grow inwards, no scope
      has two loops at one head, and every loop was entered at least once
      (`InOrder.step`);
    * scopes that are entered later have marks at least as high, so nothing that is
      done inside a scope reaches below its mark (`Above.step`).

  Main result: `Item.isolated_of_operations`.
-/
import Mathlib
import Interproc.Proofs.Forgetting
import Interproc.Residue.Set

namespace Interproc.Item

variable {L A S : Type}

/-! ## §1. Operations. -/

/-- An operation on the scopes and loops of an item. -/
inductive Operation (L A S : Type) where
  | enterScope (action : A) (layer : LayerId) (before entry : Disjunction S)
  | leaveScope
  | enterLoop (head : L) (snapshot : Disjunction S)
  | leaveLoop

variable {item base : Item L A S} {operations : List (Operation L A S)} {n m : Nat}

section Steps

variable [DecidableEq L]

/-- What an operation makes of an item.  Outside of all scopes there is none to be left. -/
def step (item : Item L A S) : Operation L A S → Item L A S
  | .enterScope action layer before entry => item.enterScope action layer before entry
  | .leaveScope => (item.leaveScope.map Prod.snd).getD item
  | .enterLoop head snapshot => (item.enterLoop head snapshot).2
  | .leaveLoop => item.leaveLoop.2

/-- What a sequence of operations makes of an item. -/
def afterAll (item : Item L A S) (operations : List (Operation L A S)) : Item L A S :=
  operations.foldl step item

/-- The number of open scopes after an operation, if there were `n` before; there is none if the
operation leaves a scope while none is open. -/
def Operation.opens (n : Nat) : Operation L A S → Option Nat
  | .enterScope .. => some (n + 1)
  | .leaveScope => if n = 0 then none else some (n - 1)
  | .enterLoop .. => some n
  | .leaveLoop => some n

/-- The number of scopes that a sequence of operations enters and does not leave; there is none if
it leaves a scope that it did not enter. -/
def opened (operations : List (Operation L A S)) : Option Nat :=
  operations.foldlM Operation.opens 0

theorem step_leaveScope {scope : Scope A S} {outer : List (Scope A S)}
    (hscopes : item.scopes = scope :: outer) : item.step .leaveScope =
      { item with scopes := outer, loops := item.loops.take scope.loopDepth } := by
  unfold step leaveScope
  rw [hscopes]
  rfl

theorem step_leaveScope_nil (hscopes : item.scopes = []) : item.step .leaveScope = item := by
  unfold step leaveScope
  rw [hscopes]
  rfl

end Steps

/-! ## §2. Contexts in order. -/

/-- The marks of the scopes fit the active loops, no two loops of one scope have the same head, and
every loop was entered. -/
structure InOrder (item : Item L A S) : Prop where
  depths : item.DepthsOrdered
  apart : item.LoopsApart
  counters : ∀ l ∈ item.loops, 1 ≤ l.counter

namespace InOrder

theorem initial (action : A) (pre : Disjunction S) (layer : LayerId) :
    (Item.initial action pre layer : Item L A S).InOrder where
  depths := List.pairwise_singleton _ _
  apart := .initial action pre layer
  counters := fun l hl => by cases hl

/-- Loops of the innermost scope that were entered may take the place of those that are there. -/
theorem counters_withLoops (h : item.InOrder) {loops : List (ActiveLoop L S)}
    (hloops : ∀ l ∈ loops, l ∈ item.scopeLoops ∨ 1 ≤ l.counter) :
    ∀ l ∈ item.loops.take item.loopDepth ++ loops, 1 ≤ l.counter := by
  intro l hl
  obtain hl | hl := List.mem_append.mp hl
  · exact h.counters l (List.mem_of_mem_take hl)
  · obtain hl | hl := hloops l hl
    · exact h.counters l (List.mem_of_mem_drop hl)
    · exact hl

variable [DecidableEq L]

/-- Every operation keeps a context in order. -/
theorem step (h : item.InOrder) (operation : Operation L A S) : (item.step operation).InOrder := by
  have hdepth := h.depths.loopDepth_le
  cases operation with
  | enterScope action layer before entry =>
    exact ⟨h.depths.enterScope .., h.apart.enterScope .., h.counters⟩
  | leaveScope =>
    cases hscopes : item.scopes with
    | nil =>
      rw [step_leaveScope_nil hscopes]
      exact h
    | cons scope outer =>
      rw [step_leaveScope hscopes]
      exact ⟨h.depths.leave hscopes, h.apart.leave hscopes,
        fun l hl => h.counters l (List.mem_of_mem_take hl)⟩
  | enterLoop head snapshot =>
    refine ⟨?_, h.apart.enterLoop hdepth head snapshot, ?_⟩
    · show DepthsOrdered (item.enterLoop head snapshot).2
      rw [enterLoop_eq]
      exact h.depths.withLoops _
    · show ∀ l ∈ (item.enterLoop head snapshot).2.loops, 1 ≤ l.counter
      rw [enterLoop_eq]
      refine h.counters_withLoops fun l hl => ?_
      obtain hl | hl := List.mem_append.mp hl
      · exact .inl ((List.takeWhile_sublist _).mem hl)
      · rw [List.mem_singleton.mp hl]
        exact .inr (Nat.le_add_left _ _)
  | leaveLoop =>
    refine ⟨?_, h.apart.leaveLoop hdepth, ?_⟩
    · show DepthsOrdered item.leaveLoop.2
      rw [leaveLoop_eq]
      exact h.depths.withLoops _
    · show ∀ l ∈ item.leaveLoop.2.loops, 1 ≤ l.counter
      rw [leaveLoop_eq]
      exact h.counters_withLoops fun l hl => .inl (List.mem_of_mem_dropLast hl)

theorem afterAll (h : item.InOrder) (operations : List (Operation L A S)) :
    (item.afterAll operations).InOrder := by
  unfold Item.afterAll
  induction operations generalizing item with
  | nil => exact h
  | cons operation rest ih => exact ih (h.step operation)

end InOrder

/-! ## §3. Inside a scope. -/

/-- An item has the context of `base` and on top of it `n` scopes, whose marks are not below the
loops of `base`. -/
structure Above (base : Item L A S) (n : Nat) (item : Item L A S) : Prop where
  scopes : ∃ inner, inner.length = n ∧ item.scopes = inner ++ base.scopes ∧
    ∀ scope ∈ inner, base.loops.length ≤ scope.loopDepth
  loops : base.loops <+: item.loops
  rest : { item with scopes := base.scopes, loops := base.loops } = base

namespace Above

theorem refl (base : Item L A S) : Above base 0 base :=
  ⟨⟨[], rfl, rfl, fun _ h => by cases h⟩, List.prefix_rfl, rfl⟩

/-- If no loop of `base` belongs to its innermost scope, then none of them belongs to the innermost
scope of an item above it. -/
theorem le_loopDepth (hbase : base.loopDepth = base.loops.length) (h : Above base n item) :
    base.loops.length ≤ item.loopDepth := by
  obtain ⟨inner, -, hscopes, hmarks⟩ := h.scopes
  cases inner with
  | nil =>
    have hsame : item.loopDepth = base.loopDepth := by
      unfold Item.loopDepth
      rw [hscopes, List.nil_append]
    rw [hsame, hbase]
  | cons scope inner =>
    have hown : item.loopDepth = scope.loopDepth := by
      unfold Item.loopDepth
      rw [hscopes]
      rfl
    rw [hown]
    exact hmarks scope List.mem_cons_self

/-- The loops of the innermost scope may be replaced. -/
theorem withLoops (hbase : base.loopDepth = base.loops.length) (h : Above base n item)
    (loops : List (ActiveLoop L S)) :
    Above base n { item with loops := item.loops.take item.loopDepth ++ loops } := by
  have hkept : base.loops <+: item.loops.take item.loopDepth :=
    List.prefix_take_iff.mpr ⟨h.loops, h.le_loopDepth hbase⟩
  exact ⟨h.scopes, hkept.trans (List.prefix_append _ _), h.rest⟩

theorem enterScope (h : Above base n item) (action : A) (layer : LayerId)
    (before entry : Disjunction S) :
    Above base (n + 1) (item.enterScope action layer before entry) := by
  obtain ⟨inner, hlength, hscopes, hmarks⟩ := h.scopes
  refine ⟨⟨⟨action, layer, before, entry, item.loops.length⟩ :: inner, ?_, ?_, ?_⟩, h.loops,
    h.rest⟩
  · rw [List.length_cons, hlength]
  · show _ :: item.scopes = _
    rw [hscopes, List.cons_append]
  · intro scope hscope
    obtain rfl | hscope := List.mem_cons.mp hscope
    · exact h.loops.length_le
    · exact hmarks scope hscope

/-- Leaving a scope inside which nothing is open restores the item that entered it. -/
theorem leaveScope_eq {action : A} {layer : LayerId} {before entry : Disjunction S}
    (h : Above (base.enterScope action layer before entry) 0 item) :
    item.leaveScope = some ((action, before), base) := by
  obtain ⟨inner, hlength, hscopes, -⟩ := h.scopes
  obtain rfl := List.eq_nil_of_length_eq_zero hlength
  have htake : item.loops.take base.loops.length = base.loops :=
    (List.prefix_iff_eq_take.mp h.loops).symm
  have hrest : { item with scopes := base.scopes, loops := base.loops } = base :=
    congrArg (fun i => { i with scopes := base.scopes }) h.rest
  unfold Item.leaveScope
  rw [hscopes]
  show some ((action, before),
    { item with scopes := base.scopes, loops := item.loops.take base.loops.length }) = _
  rw [htake, hrest]

variable [DecidableEq L]

theorem leaveScope (h : Above base (n + 1) item) : Above base n (item.step .leaveScope) := by
  obtain ⟨inner, hlength, hscopes, hmarks⟩ := h.scopes
  obtain ⟨scope, inner, rfl⟩ := List.exists_cons_of_length_eq_add_one hlength
  rw [step_leaveScope hscopes]
  -- The loops are cut off at the mark of a scope that was entered above `base`.
  refine ⟨⟨inner, Nat.succ.inj hlength, rfl, fun s hs => ?_⟩, ?_, h.rest⟩
  · exact hmarks s (List.mem_cons_of_mem scope hs)
  · exact List.prefix_take_iff.mpr ⟨h.loops, hmarks scope List.mem_cons_self⟩

/-- An operation that leaves no scope of `base` does not touch the context of `base`. -/
theorem step (hbase : base.loopDepth = base.loops.length) (h : Above base n item)
    {operation : Operation L A S} (hopens : operation.opens n = some m) :
    Above base m (item.step operation) := by
  cases operation with
  | enterScope action layer before entry =>
    cases hopens
    exact h.enterScope action layer before entry
  | leaveScope =>
    cases n with
    | zero => cases hopens
    | succ n =>
      cases hopens
      exact h.leaveScope
  | enterLoop head snapshot =>
    cases hopens
    show Above base n (item.enterLoop head snapshot).2
    rw [enterLoop_eq]
    exact h.withLoops hbase _
  | leaveLoop =>
    cases hopens
    show Above base n item.leaveLoop.2
    rw [leaveLoop_eq]
    exact h.withLoops hbase _

theorem afterAll (hbase : base.loopDepth = base.loops.length) (h : Above base n item)
    (hopened : operations.foldlM Operation.opens n = some m) :
    Above base m (item.afterAll operations) := by
  unfold Item.afterAll
  induction operations generalizing n item with
  | nil =>
    cases hopened
    exact h
  | cons operation rest ih =>
    rw [List.foldlM_cons] at hopened
    obtain ⟨k, hopens, hrest⟩ := Option.bind_eq_some_iff.mp hopened
    exact ih (h.step hbase hopens) hrest

end Above

variable [DecidableEq L]

/-- For every item that operations make of an initial one,

* the marks of its scopes do not decrease inwards, and are at most the number of active loops, so
  that the loops of the innermost scope are cut off at a place that is there;
* no two active loops of one scope have the same head, and all have been entered;
* whatever operations follow on entering another scope, as long as they do not leave that scope,
  the scopes and loops that were there stay as they are; and if in the end no scope that was entered
  later is open, then leaving the scope tells its action and the state before it, and restores the
  item as it was. -/
theorem isolated_of_operations (action : A) (pre : Disjunction S) (layer : LayerId)
    (operations : List (Operation L A S)) :
    let item := (initial action pre layer).afterAll operations
    (item.scopes.reverse.map Scope.loopDepth).Pairwise (· ≤ ·) ∧
    (∀ scope ∈ item.scopes, scope.loopDepth ≤ item.loops.length) ∧
    item.loopDepth ≤ item.loops.length ∧
    item.LoopsApart ∧
    (∀ l ∈ item.loops, 1 ≤ l.counter) ∧
    ∀ call callLayer before entry inner n, opened inner = some n →
      let inside := (item.enterScope call callLayer before entry).afterAll inner
      item.scopes <:+ inside.scopes ∧ item.loops <+: inside.loops ∧
        (n = 0 → inside.leaveScope = some ((call, before), item)) := by
  intro item
  have h : item.InOrder := (InOrder.initial action pre layer).afterAll operations
  obtain ⟨hmarks, hinwards⟩ := List.pairwise_cons.mp h.depths
  refine ⟨?_, fun scope hscope => ?_, h.depths.loopDepth_le, h.apart, h.counters, ?_⟩
  · rw [List.map_reverse, List.pairwise_reverse]
    exact hinwards
  · exact hmarks _ (List.mem_map_of_mem hscope)
  · intro call callLayer before entry inner n hopened
    -- Right after the scope was entered, no loop belongs to it.
    have habove := (Above.refl (item.enterScope call callLayer before entry)).afterAll rfl hopened
    obtain ⟨scopes, -, hscopes, -⟩ := habove.scopes
    refine ⟨?_, habove.loops, ?_⟩
    · rw [hscopes]
      exact (List.suffix_cons _ _).trans (List.suffix_append scopes _)
    · rintro rfl
      exact habove.leaveScope_eq

/-- A loop at 5 that was entered twice. -/
def twiceEntered : List (Operation Nat String ResidueSet) :=
  [.enterLoop 5 (.single (.ofList [0])), .enterLoop 5 (.single (.ofList [1]))]

/-- The loop at 5 is entered in a scope and in one inside it, and in the outer one again, which
leaves the loop at 7. -/
def entersAgain : List (Operation Nat String ResidueSet) :=
  [.leaveLoop, .enterLoop 5 .bottom, .enterLoop 7 .bottom, .enterScope "g" ⟨2⟩ .bottom .bottom,
    .enterLoop 5 .bottom, .leaveScope, .enterLoop 5 .bottom]

/-- The loop at 5 outside the scope keeps its counter and its snapshot, although another loop at 5
is active in the scope when it is left. -/
theorem isolated_of_operations_entersAgain :
    let item := (initial "a" .bottom ⟨0⟩).afterAll twiceEntered
    let inside := (item.enterScope "f" ⟨1⟩ (.single (.ofList [1])) .bottom).afterAll entersAgain
    item.loops = [⟨5, 2, .single (.ofList [1])⟩] ∧ opened entersAgain = some 0 ∧
      inside.loops = [⟨5, 2, .single (.ofList [1])⟩, ⟨5, 2, .bottom⟩] ∧
      inside.leaveScope = some (("f", .single (.ofList [1])), item) := by
  intro item inside
  have hopened : opened entersAgain = some 0 := by decide
  obtain ⟨-, -, -, -, -, hisolated⟩ := isolated_of_operations "a" .bottom ⟨0⟩ twiceEntered
  obtain ⟨-, -, hleave⟩ := hisolated "f" ⟨1⟩ (.single (.ofList [1])) .bottom entersAgain 0 hopened
  exact ⟨by decide +kernel, hopened, by decide +kernel, hleave rfl⟩

end Interproc.Item
