/-
  Interproc.Proofs.Soundness
  ──────────────────────────
  What an interval analysis says about the executions of a program.  An execution takes
  one transition after the other, executes their statements, and returns only from the
  call that was entered last.

  An analysis that steps over no calls contains every execution, if it is free of losses:
  an item may be dropped because the states after it are covered by what is stored, but
  what is stored can be a join of states that were never carried on together.  Errors are
  reported at all locations but the starts, where what is stored covers everything from
  the beginning.

  Main result: `Program.contained_of_execution`.
-/
import Mathlib
import Interproc.Proofs.Coverage
import Interproc.Proofs.Reports

namespace Interproc

/-! ## §1. Executions of programs. -/

/-- A point of an execution: the calls that are open, the innermost first, the location, and the
values of the variables. -/
structure Point where
  calls : List (Transition Statement)
  location : Nat
  store : Store

namespace Program

variable {p : Program Statement}

/-- One transition of an execution.  Calls are entered, and never stepped over. -/
inductive Step (p : Program Statement) : Point → Point → Prop where
  | within {calls : List (Transition Statement)} {l : Nat} {σ σ' : Store}
      {t : Transition Statement} (ht : t ∈ p.outOf l)
      (hkind : t.kind = .internal ∨ t.kind = .summary false) (hst : t.statement.LeadsTo σ σ') :
      Step p ⟨calls, l, σ⟩ ⟨calls, t.tail, σ'⟩
  | enter {calls : List (Transition Statement)} {l : Nat} {σ σ' : Store}
      {t : Transition Statement} (ht : t ∈ p.outOf l) (hkind : t.kind = .call)
      (hst : t.statement.LeadsTo σ σ') : Step p ⟨calls, l, σ⟩ ⟨t :: calls, t.tail, σ'⟩
  | leave {calls : List (Transition Statement)} {call : Transition Statement} {l : Nat}
      {σ σ' : Store} {t : Transition Statement} (ht : t ∈ p.outOf l)
      (hmatch : t.returnsFrom call = true) (hst : t.statement.LeadsTo σ σ') :
      Step p ⟨call :: calls, l, σ⟩ ⟨calls, t.tail, σ'⟩

/-- What the statement of a transition does to the values of the variables. -/
def Moves (t : Transition Statement) (σ σ' : Store) : Prop := t.statement.LeadsTo σ σ'

variable {table : LoopTable} {options : Options}

/-- A step takes a transition that may follow, and opens and closes calls as an analysis does. -/
theorem Step.exists_transition {x y : Point} (h : p.Step x y) :
    ∃ t ∈ p.outOf x.location, t.standsForCall = false ∧
      (∀ site, t.kind = .ret site → x.calls.head?.any t.returnsFrom = true) ∧
      Moves t x.store y.store ∧ (p.intervals table options).opened x.calls t = y.calls ∧
      t.tail = y.location := by
  cases h with
  | @within calls l σ σ' t ht hkind hst =>
    refine ⟨t, ht, ?_, ?_, hst, ?_, rfl⟩
    · obtain hkind | hkind := hkind <;> simp [Transition.standsForCall, hkind]
    · intro site hret
      rw [hret] at hkind
      obtain hkind | hkind := hkind <;> cases hkind
    · -- Neither a call nor a return, so the open calls stay as they are.
      have hcall : t.isCall = false := by
        obtain hkind | hkind := hkind <;> simp [Transition.isCall, hkind]
      have hreturn : calls.head?.any t.returnsFrom = false := by
        cases calls.head? with
        | none => rfl
        | some call =>
          show t.returnsFrom call = false
          obtain hkind | hkind := hkind <;> simp [Transition.returnsFrom, hkind]
      show (if t.isCall then _ else if calls.head?.any t.returnsFrom then _ else _) = _
      rw [hcall, hreturn]
      rfl
  | @enter calls l σ σ' t ht hkind hst =>
    refine ⟨t, ht, ?_, ?_, hst, ?_, rfl⟩
    · simp [Transition.standsForCall, hkind]
    · intro site hret
      rw [hret] at hkind
      cases hkind
    · show (if t.isCall then _ else _) = _
      rw [if_pos (by simp [Transition.isCall, hkind])]
  | @leave calls call l σ σ' t ht hmatch hst =>
    obtain ⟨site, hkind⟩ : ∃ site, t.kind = .ret site := by
      unfold Transition.returnsFrom at hmatch
      split at hmatch
      · exact ⟨_, by assumption⟩
      · cases hmatch
    refine ⟨t, ht, ?_, fun _ _ => hmatch, hst, ?_, rfl⟩
    · simp [Transition.standsForCall, hkind]
    · have hcall : t.isCall = false := by simp [Transition.isCall, hkind]
      show (if t.isCall then _ else if t.returnsFrom call then _ else _) = _
      rw [hcall, hmatch]
      rfl

variable (table options) in
/-- Executions of a program are executions as an analysis sees them. -/
theorem walk_of_execution {starts : List Nat} {start : Nat} (hstart : start ∈ starts) {σ : Store}
    {y : Point} (h : Relation.TransGen p.Step ⟨[], start, σ⟩ y) :
    ∃ t, (p.intervals table options).Walk Moves (fun _ => True) starts y.calls t y.store ∧
      t.tail = y.location := by
  induction h with
  | single hstep =>
    obtain ⟨t, ht, -, -, hmoves, hopened, htail⟩ := hstep.exists_transition
    refine ⟨t, ?_, htail⟩
    rw [← hopened]
    exact .first hstart ht trivial hmoves
  | tail _ hstep ih =>
    obtain ⟨t, hwalk, hlocation⟩ := ih
    obtain ⟨t', ht', hstands, hreturn, hmoves, hopened, htail⟩ := hstep.exists_transition
    refine ⟨t', ?_, htail⟩
    rw [← hopened]
    refine .step hwalk ?_ hmoves
    show t' ∈ (p.following t _).filter fun b => !b.standsForCall
    rw [List.mem_filter, following, List.mem_filter, hlocation, hstands]
    refine ⟨⟨ht', ?_⟩, rfl⟩
    split
    · exact hreturn _ (by assumption)
    · rfl

/-! ## §2. What intervals describe. -/

variable {item : Item Nat (Transition Statement) IntervalState} {post : Disjunction IntervalState}

theorem mapM_ok {α β : Type} (f : α → β) (l : List α) :
    l.mapM (fun a => (.ok (f a) : Except Error β)) = .ok (l.map f) := List.mapM_pure

/-- The states after a transition are covered by the states that an analysis computes. -/
theorem covers_of_evaluate (h : (p.intervals table options).evaluate item = .ok post)
    {s t : IntervalState} (hs : s ∈ item.pre.states) (ht : t ∈ s.post item.action.statement)
    (hbefore : ∀ before ∈ item.beforeScope, before.states ≠ []) : post.Covers t := by
  obtain ⟨fresh, hfresh, h⟩ := except_bind_eq_ok.mp h
  -- No variables come into scope, so the states before the statement are the ones it starts from.
  have hcovers : fresh.Covers s := by
    obtain ⟨states, hstates, hfresh⟩ := except_bind_eq_ok.mp hfresh
    cases hfresh
    have hsame := (mapM_ok id item.pre.states).symm.trans hstates
    rw [List.map_id] at hsame
    cases hsame
    exact Disjunction.covers_ofStates hs (IntervalState.mem_post_iff.mp ht).1
  obtain ⟨s', hs', hbelow⟩ := hcovers
  obtain ⟨t', ht', hbelow'⟩ := IntervalState.post_mono hbelow ht
  have hproper : isBottom t' = false := (IntervalState.mem_post_iff.mp ht').2.2
  refine Disjunction.Covers.of_below ?_ hbelow'
  unfold Engine.postOf at h
  split at h
  · rename_i before _ hscope
    obtain ⟨posts, hposts, h⟩ := except_bind_eq_ok.mp h
    cases h
    cases (mapM_ok (fun q : IntervalState × IntervalState => q.1.post item.action.statement)
      (fresh.pairs before)).symm.trans hposts
    obtain ⟨outer, houter⟩ := List.exists_mem_of_ne_nil _ (hbefore before hscope)
    refine Disjunction.covers_ofStates (List.mem_flatten.mpr ⟨_, ?_, ht'⟩) hproper
    have hpair : (s', outer) ∈ fresh.pairs before := by
      unfold Disjunction.pairs
      exact List.mem_flatMap.mpr ⟨s', hs', List.mem_map_of_mem houter⟩
    exact List.mem_map_of_mem hpair
  · obtain ⟨posts, hposts, h⟩ := except_bind_eq_ok.mp h
    cases h
    cases (mapM_ok (fun s : IntervalState => s.post item.action.statement)
      fresh.states).symm.trans hposts
    exact Disjunction.covers_ofStates
      (List.mem_flatten.mpr ⟨_, List.mem_map_of_mem hs', ht'⟩) hproper

/-- Abstract stores describe the stores that they contain. -/
theorem contains_sound : (p.intervals table options).Sound IntervalState.Contains Moves where
  mono hbelow hs := hs.mono hbelow
  proper hs := hs.1
  step := by
    intro item post t σ σ' hevaluate ht hσ hmoves hbefore
    obtain ⟨u, hu, hσ'⟩ := hσ.post hmoves
    obtain ⟨v, hv, hbelow⟩ := covers_of_evaluate hevaluate ht hu hbefore
    exact ⟨v, hv, hσ'.mono hbelow⟩

end Program

/-! ## §3. Starts and errors. -/

namespace Engine

variable {L A S : Type} [DecidableEq L] [AbstractState S]
variable {e : Engine L A S} {s s' : RunState L A S} {starts : List L} {id : ItemId}
variable {item final : Item L A S} {post : Disjunction S}

theorem SeedPart.waits {location : L} {action : A} (h : e.SeedPart location action s s') :
    (∃ state, e.declarations.initial action e.domain.fresh = .ok state ∧
      s'.Waits (.initial action (.single state) Layers.root)) ∧ ∀ i, s.Waits i → s'.Waits i := by
  obtain ⟨state, stored, layers, id, hinitial, -, hgrows⟩ := h
  refine ⟨⟨state, hinitial, id, hgrows.mem_pending_of_new List.mem_cons_self,
    hgrows.created _ List.mem_cons_self⟩, fun i hi => ?_⟩
  obtain ⟨j, hj, hget⟩ := hi
  exact ⟨j, hgrows.mem_pending hj, hgrows.get_of_pending hj hget⟩

variable (e) in
/-- All actions that leave a location are on the worklist, with the states that they start from. -/
def Started (s : RunState L A S) (l : L) : Prop :=
  ∀ a ∈ e.transitions.actionsFrom l, ∃ state,
    e.declarations.initial a e.domain.fresh = .ok state ∧
      s.Waits (.initial a (.single state) Layers.root)

/-- Every action that leaves a start is on the worklist at first. -/
theorem started_of_seed (h : e.seed starts (.start e.options) = .ok () s) :
    ∀ l ∈ starts, e.Started s l := by
  refine ((seed_ok h).achieves (P := fun t => t.Tidy fun _ => 0) (Q := fun l t => e.Started t l)
    ?_ ?_ (start_tidy e.options)).2
  · intro l _ t t' hactions ht
    refine hactions.achieves (Q := fun a u => ∃ state,
        e.declarations.initial a e.domain.fresh = .ok state ∧
          u.Waits (.initial a (.single state) Layers.root))
      (fun a _ u u' hseeded hu => ?_) (fun _ _ b u u' hseeded hu hb => ?_) ht
    · have hpart := hseeded.seedPart hu
      refine ⟨?_, hpart.waits.1⟩
      obtain ⟨_, _, _, _, -, -, hgrows⟩ := hpart
      exact hgrows.tidy
    · obtain ⟨state, hstate, hwaits⟩ := hb
      exact ⟨state, hstate, (hseeded.seedPart hu).waits.2 _ hwaits⟩
  · -- Seeding other starts leaves on the worklist what is there.
    intro l _ m t t' hactions ht hm
    refine (hactions.preserves (P := fun u => (u.Tidy fun _ => 0) ∧ e.Started u m) ?_
      ⟨ht, hm⟩).2
    intro a _ u u' hseeded ⟨hu, hm⟩
    have hpart := hseeded.seedPart hu
    refine ⟨?_, fun b hb => ?_⟩
    · obtain ⟨_, _, _, _, -, -, hgrows⟩ := hpart
      exact hgrows.tidy
    · obtain ⟨state, hstate, hwaits⟩ := hm b hb
      exact ⟨state, hstate, hpart.waits.2 _ hwaits⟩

/-! ## §4. Without summaries. -/

/-- No item steps over a call. -/
def Plain (s : RunState L A S) : Prop := ∀ j i, s.items.get j = .ok i → i.summary = none

variable [DecidableEq A]

theorem Plain.pass (hsummaries : e.options.useSummaries = false) (h : Plain s)
    (hpass : e.Pass id item post final s s') : Plain s' := by
  cases hpass with
  | @intro worklist exits summaries handed new added hpop hget hexit hpost hend hadded hframe =>
    intro j i hi
    obtain hmem | hmem | ⟨rfl, rfl⟩ | hold := hframe.live_cases hadded hi
    · obtain ⟨_, -, _, -, _, -, rfl⟩ := hexit.handed_eq hmem
      rfl
    · obtain ⟨k, stale, _, _, hstale, -, -, hsome, rfl⟩ | ⟨_, _, _, -, -, -, -, rfl⟩ |
        ⟨widened, -, action, -, rfl⟩ := hend.mem_new hmem
      · rw [h k stale hstale] at hsome
        cases hsome
      · rfl
      · unfold successorOf
        rw [hsummaries]
        rfl
    · obtain ⟨scopes, loops, hshape⟩ := hend.final_eq
      rw [hshape]
      exact h j item hget
    · exact h j i hold

theorem Reachable.plain (hsummaries : e.options.useSummaries = false)
    (h : e.Reachable starts s) : Plain s := by
  refine (h.induct (fun j i hi => by cases hi) ?_
    fun _ _ _ _ _ _ _ _ hpass hs => hs.pass hsummaries hpass).2
  intro _ _ _ _ t t' _ hseed ht j i hi
  obtain ⟨_, _, _, _, -, -, hgrows⟩ := hseed
  obtain ⟨rfl, rfl⟩ | ⟨hold, -⟩ := hgrows.old_singleton hi
  · rfl
  · exact ht j i hold

/-! ## §5. Finished computations contain all executions. -/

theorem stateAfter_of_later {n : Nat} (hs : e.stateAfter starts n = some s)
    (hlater : e.Later s s') : ∃ m, e.stateAfter starts m = some s' := by
  induction hlater generalizing n with
  | refl => exact ⟨n, hs⟩
  | iterated hiterate _ ih => exact ih (stateAfter_of_iterate hs hiterate)

/-- A computation that ends was in some state after its last pass. -/
theorem stateAfter_of_run {budget : Nat} {answer : Answer L A S}
    (h : e.run budget starts = .ok answer s') :
    ∃ s₀ n s, e.seed starts (.start e.options) = .ok () s₀ ∧ e.stateAfter starts 0 = some s₀ ∧
      e.stateAfter starts n = some s ∧ s.pending = [] ∧
      answer = ⟨s.layers, s.summaries, s.counterexamples, s.statistics⟩ := by
  obtain ⟨s₀, s, hseed, hlater, hpop, hanswer⟩ := run_ok h
  have hfirst := stateAfter_zero.mpr hseed
  obtain ⟨n, hn⟩ := stateAfter_of_later hfirst hlater
  exact ⟨s₀, n, s, hseed, hfirst, hn, Worklist.pending_of_pop_none hpop, hanswer⟩

variable [LawfulState S] {X : Type} {R : S → X → Prop} {next : A → X → X → Prop}

/-- All executions arrive, if a computation is closed under what actions do. -/
theorem Covering.describes_of_walk (hc : e.Coherent) (hsound : e.Sound R next) {n : Nat}
    {F : Contexts L A S} (h : e.Covering F (e.seen starts n) s)
    (hclosed : e.Closed R next F (e.seen starts n) s.layers) {s₀ : RunState L A S}
    (hseed : e.seed starts (.start e.options) = .ok () s₀)
    (hfirst : e.stateAfter starts 0 = some s₀) {initial : X → Prop}
    (hinitial : ∀ a state, e.declarations.initial a e.domain.fresh = .ok state →
      ∀ x, initial x → R state x) {calls : List A} {a : A} {y : X}
    (hwalk : e.Walk next initial starts calls a y) :
    ∃ layer, s.layers.Describes R layer (e.transitions.target a) y := by
  have hroot : F.scopeOf Layers.root = none := by
    unfold Contexts.scopeOf
    rw [h.backed.framed.wellFormed.root_scopes]
    rfl
  obtain ⟨layer, -, hdescribes, -⟩ := hclosed.walk hc hroot (fun l hl b hb x hx => by
    obtain ⟨state, hstate, hwaits⟩ := started_of_seed hseed l hl b hb
    have hx := hinitial b state hstate x hx
    exact ⟨_, ⟨0, Nat.zero_le n, s₀, hfirst, hwaits⟩, state,
      ⟨rfl, rfl, rfl, Disjunction.covers_single (hsound.proper hx)⟩, hx⟩) hwalk
  exact ⟨layer, hdescribes⟩

/-- All executions arrive in a finished computation that is free of losses and steps over no
calls. -/
theorem describes_of_walk (hc : e.Coherent) (hlaws : e.domain.Lawful) (hsound : e.Sound R next)
    (hsummaries : e.options.useSummaries = false) (hfree : e.LossFree starts) {budget : Nat}
    {answer : Answer L A S} (hrun : e.run budget starts = .ok answer s') {initial : X → Prop}
    (hinitial : ∀ a state, e.declarations.initial a e.domain.fresh = .ok state →
      ∀ x, initial x → R state x) {calls : List A} {a : A} {y : X}
    (hwalk : e.Walk next initial starts calls a y) :
    (∃ layer, answer.layers.Describes R layer (e.transitions.target a) y) ∧
      (e.transitions.isError (e.transitions.target a) = true →
        e.transitions.target a ∉ starts → answer.reachedError = true) := by
  obtain ⟨s₀, n, s, hseed, hfirst, hn, hfinished, rfl⟩ := stateAfter_of_run hrun
  obtain ⟨-, F, hcovering⟩ := hfree.covering hc hlaws hn
  have hplain : ∀ i ∈ e.seen starts n, i.summary = none := by
    rintro i ⟨m, -, t, ht, j, -, hget⟩
    exact (reachable_of_stateAfter ht).plain hsummaries j i hget
  have hclosed := hcovering.closed hc hsound hfinished fun i hi r hsome => by
    rw [hplain i hi] at hsome
    cases hsome
  obtain ⟨layer, t, ⟨d, hd, hcovers⟩, hy⟩ :=
    hcovering.describes_of_walk hc hsound hclosed hseed hfirst hinitial hwalk
  refine ⟨⟨layer, t, ⟨d, hd, hcovers⟩, hy⟩, fun herror hstart => ?_⟩
  have hreported := (reachable_of_stateAfter hn).reported hc
  obtain ⟨a, ha, -⟩ := hreported.stored _ ⟨layer, d, hd⟩ hstart herror
  rw [← hreported.examples] at ha
  unfold Answer.reachedError
  dsimp only
  cases hcounter : s.counterexamples with
  | nil =>
    rw [hcounter] at ha
    cases ha
  | cons => rfl

end Engine

namespace Program

variable {p : Program Statement} {table : LoopTable} {options : Options} {starts : List Nat}

/-- Soundness of interval analyses that step over no calls and are free of losses.  Every execution
of at least one step is contained in what the answer states for the location that it reaches, and
if that is an error location and no start, then an error is reported. -/
theorem contained_of_execution (hp : p.Built) (hsummaries : options.useSummaries = false)
    (hfree : (p.intervals table options).LossFree starts) {budget : Nat}
    {answer : Answer Nat (Transition Statement) IntervalState}
    {s : RunState Nat (Transition Statement) IntervalState}
    (hrun : (p.intervals table options).run budget starts = .ok answer s) {start : Nat}
    (hstart : start ∈ starts) {σ : Store} {y : Point}
    (hexec : Relation.TransGen p.Step ⟨[], start, σ⟩ y) :
    (∃ q ∈ answer.statesAt y.location, ∃ t ∈ q.2.states, t.Contains y.store) ∧
      (p.isErrorLocation y.location = true → y.location ∉ starts →
        answer.reachedError = true) := by
  have hc : (p.intervals table options).Coherent := hp.coherent rfl rfl
  obtain ⟨t, hwalk, hlocation⟩ := walk_of_execution table options hstart hexec
  obtain ⟨⟨layer, u, ⟨d, hd, v, hv, hbelow⟩, hu⟩, herror⟩ := Engine.describes_of_walk hc
    IntervalState.domain_lawful contains_sound hsummaries hfree hrun
    (fun _ state hstate x _ => by
      cases hstate
      exact IntervalState.contains_unconstrained x) hwalk
  have htarget : (p.intervals table options).transitions.target t = y.location := hlocation
  rw [htarget] at hd herror
  obtain ⟨q, hq, rfl⟩ := Answer.exists_mem_statesAt hd
  exact ⟨⟨q, hq, v, hv, hu.mono hbelow⟩, herror⟩

open Engine in
set_option maxRecDepth 100000 in
/-- An execution that calls twice, where the analysis answers the second call by the activation of
the first. -/
theorem contained_of_execution_climbing :
    climbingIntervals.LossFree [2] ∧ ∃ answer s y, climbingIntervals.run 40 [2] = .ok answer s ∧
      Relation.TransGen climbing.Step ⟨[], 2, fun _ => 7⟩ y ∧ y.calls = [] ∧ y.location = 3 ∧
      y.store "x" = 1 ∧ ∃ q ∈ answer.statesAt 3, ∃ t ∈ q.2.states, t.Contains y.store := by
  have hfree : climbingIntervals.LossFree [2] := by
    have hcheck : climbingIntervals.holdsThroughout climbingIntervals.nextDropsFreely 40 [2]
        = true := by decide +kernel
    exact lossFree_of_holdsThroughout hcheck
  have hanswers : climbingIntervals.answers 40 [2] (fun _ => true) = true := by decide +kernel
  obtain ⟨answer, s, hrun, -⟩ := exists_of_answers hanswers
  let c : Transition Statement := ⟨2, 0, .call, .nop⟩
  let σ : Store := fun _ => 7
  let σ₀ : Store := Function.update σ "x" (0 : Int64).toInt
  let σ₁ : Store := Function.update σ₀ "x" (σ₀ "x" + (1 : Int64).toInt)
  have hcall : climbing.Step ⟨[], 2, σ⟩ ⟨[c], 0, σ⟩ := .enter (t := c) (by decide +kernel) rfl rfl
  have hback : climbing.Step ⟨[c], 0, σ⟩ ⟨[c], 2, σ⟩ :=
    .within (t := ⟨0, 2, .internal, .nop⟩) (by decide +kernel) (.inl rfl) rfl
  have hagain : climbing.Step ⟨[c], 2, σ⟩ ⟨[c, c], 0, σ⟩ :=
    .enter (t := c) (by decide +kernel) rfl rfl
  have hassign : climbing.Step ⟨[c, c], 0, σ⟩ ⟨[c, c], 1, σ₀⟩ :=
    .within (t := ⟨0, 1, .internal, .assign "x" 0⟩) (by decide +kernel) (.inl rfl) rfl
  have hreturn : climbing.Step ⟨[c, c], 1, σ₀⟩ ⟨[c], 3, σ₀⟩ :=
    .leave (t := ⟨1, 3, .ret 2, .nop⟩) (by decide +kernel) rfl rfl
  have hadd : climbing.Step ⟨[c], 3, σ₀⟩ ⟨[c], 1, σ₁⟩ :=
    .within (t := ⟨3, 1, .internal, .add "x" 1⟩) (by decide +kernel) (.inl rfl) rfl
  have hlast : climbing.Step ⟨[c], 1, σ₁⟩ ⟨[], 3, σ₁⟩ :=
    .leave (t := ⟨1, 3, .ret 2, .nop⟩) (by decide +kernel) rfl rfl
  have hexec : Relation.TransGen climbing.Step ⟨[], 2, σ⟩ ⟨[], 3, σ₁⟩ :=
    .tail (.tail (.tail (.tail (.tail (.tail (.single hcall) hback) hagain) hassign) hreturn) hadd)
      hlast
  obtain ⟨hcontained, -⟩ := contained_of_execution (p := climbing) ⟨_, rfl⟩ rfl hfree hrun
    List.mem_cons_self hexec
  exact ⟨hfree, answer, s, _, hrun, hexec, rfl, rfl, by decide, hcontained⟩

/-- Three branches that meet: the second one to arrive makes what is stored cover the third. -/
def meeting : Program Statement := .ofAdditions
  [.procedure "main", .node "main", .node "main", .node "main", .node "main", .node "main",
    .node "main", .errorNode "main", .internal 0 2 (.assign "x" 0), .internal 0 3 (.assign "x" 10),
    .internal 0 4 (.assign "x" 5), .internal 2 6 .nop, .internal 3 6 .nop, .internal 4 5 .nop,
    .internal 5 6 .nop, .internal 6 7 (.assumeAtLeast "x" 5), .internal 7 8 (.assumeLessThan "x" 6)]

/-- The interval analysis of `meeting`, which has no loops. -/
def meetingIntervals : Engine Nat (Transition Statement) IntervalState :=
  meeting.intervals ⟨.empty⟩ ⟨1, 1, .fifo, false, Nat.one_pos, Nat.one_pos⟩

open Engine in
set_option maxRecDepth 100000 in
/-- Executions get lost where branches meet: `x` is `0` on the first branch, `10` on the second,
and `5` on the third, which is dropped because the join of the others covers it.  So the analysis
never finds the error that the third branch leads to. -/
theorem not_contained_meeting : ∃ answer s y, meetingIntervals.run 40 [0] = .ok answer s ∧
    Relation.TransGen meeting.Step ⟨[], 0, fun _ => 0⟩ y ∧
    meeting.isErrorLocation y.location = true ∧ y.location ∉ [0] ∧
    answer.statesAt y.location = [] ∧ answer.reachedError = false := by
  have hanswers : meetingIntervals.answers 40 [0] (fun answer =>
      (answer.statesAt 8).isEmpty && !answer.reachedError) = true := by
    decide +kernel
  obtain ⟨answer, s, hrun, hmissing⟩ := exists_of_answers hanswers
  rw [Bool.and_eq_true, List.isEmpty_iff, Bool.not_eq_true'] at hmissing
  let σ : Store := Function.update (fun _ => 0) "x" (5 : Int64).toInt
  have hassign : meeting.Step ⟨[], 0, fun _ => 0⟩ ⟨[], 4, σ⟩ :=
    .within (t := ⟨0, 4, .internal, .assign "x" 5⟩) (by decide +kernel) (.inl rfl) rfl
  have hfirst : meeting.Step ⟨[], 4, σ⟩ ⟨[], 5, σ⟩ :=
    .within (t := ⟨4, 5, .internal, .nop⟩) (by decide +kernel) (.inl rfl) rfl
  have hsecond : meeting.Step ⟨[], 5, σ⟩ ⟨[], 6, σ⟩ :=
    .within (t := ⟨5, 6, .internal, .nop⟩) (by decide +kernel) (.inl rfl) rfl
  have habove : meeting.Step ⟨[], 6, σ⟩ ⟨[], 7, σ⟩ :=
    .within (t := ⟨6, 7, .internal, .assumeAtLeast "x" 5⟩) (by decide +kernel) (.inl rfl)
      ⟨by decide, rfl⟩
  have hbelow : meeting.Step ⟨[], 7, σ⟩ ⟨[], 8, σ⟩ :=
    .within (t := ⟨7, 8, .internal, .assumeLessThan "x" 6⟩) (by decide +kernel) (.inl rfl)
      ⟨by decide, rfl⟩
  exact ⟨answer, s, ⟨[], 8, σ⟩, hrun,
    .tail (.tail (.tail (.tail (.single hassign) hfirst) hsecond) habove) hbelow,
    by decide +kernel, by decide, hmissing⟩

end Program

end Interproc
