/-
  Interproc.Proofs.Precision
  ──────────────────────────
  What stepping over calls does to the result of an interval analysis.  As long as
  nothing is widened, an analysis that steps over no calls stores nothing but joins of
  states that single executions lead to.  An analysis that steps over calls, is free of
  losses and tells all returns covers each of these states, so its result is above the
  other one.

  Returns that are dropped before they are recorded get lost, though, if another
  activation steps over the same call later.

  Main results: `Program.joinedState_isBelow_of_summaries` and
  `Program.not_isBelow_relaying`.
-/
import Mathlib
import Interproc.Proofs.Substitution

namespace Interproc

/-! ## §1. States that executions lead to. -/

namespace Engine

variable {L A S : Type}
variable {e : Engine L A S} {s s' : RunState L A S} {id : ItemId} {item final : Item L A S}
variable {post : Disjunction S} {exits : Exits A S} {summaries : Summaries A S}
variable {new : List (Item L A S)} {starts : List L}
variable {next : A → S → S → Prop} {initial : S → Prop}

variable (e next initial starts) in
/-- An execution may go on from a state with an action, while the given calls are open. -/
inductive Proceeds : List A → A → S → Prop where
  | first {l : L} {b : A} {t : S} (hl : l ∈ starts) (hb : b ∈ e.transitions.actionsFrom l)
      (ht : initial t) : Proceeds [] b t
  | step {calls : List A} {a b : A} {t : S} (h : e.Walk next initial starts calls a t)
      (hb : b ∈ e.onward a calls.head?) : Proceeds calls b t

theorem Proceeds.walk {calls : List A} {b : A} {t u : S}
    (h : e.Proceeds starts next initial calls b t) (hnext : next b t u) :
    e.Walk next initial starts (e.opened calls b) b u := by
  cases h with
  | first hl hb ht => exact .first hl hb ht hnext
  | step h hb => exact .step h hb hnext

variable [DecidableEq L] [DecidableEq A] [AbstractState S]

variable (e next initial starts) in
/-- A state that is below everything that is above all states with which executions arrive at a
location, or start there. -/
def Bounded (l : L) (t : S) : Prop :=
  ∀ u, (∀ calls a y, e.Walk next initial starts calls a y → e.transitions.target a = l →
      isBelow y u = true) →
    (l ∈ starts → ∀ b ∈ e.transitions.actionsFrom l, ∀ x, initial x → isBelow x u = true) →
    isBelow t u = true

variable (e next) in
/-- The states after an action are states to which single states before it lead, as long as these
are few enough. -/
def Exact : Prop :=
  ∀ item post, e.evaluate item = .ok post →
    item.pre.states.length ≤ max e.options.maxParallelStates 1 →
    ∀ u ∈ post.states, ∃ t ∈ item.pre.states, next item.action t u

/-! ## §2. Computations that widen nothing. -/

variable (e next initial starts) in
/-- No call waits, items start from states of single executions, and what is stored is made of such
states. -/
structure Traced (s : RunState L A S) : Prop where
  calls : ∀ layer, (s.exits.activation layer).calls = []
  fixpoints : ∀ layer action, s.layers.fixpoint? layer action = none
  items : ∀ j ∈ s.pending, ∀ i, s.items.get j = .ok i →
    i.pre.states.length ≤ max e.options.maxParallelStates 1 ∧
      ∀ t ∈ i.pre.states, e.Proceeds starts next initial (i.scopes.map Scope.action) i.action t
  stored : ∀ layer l d, s.layers.stored? layer l = some d →
    ∀ t ∈ d.states, e.Bounded starts next initial l t

/-- A pass that widens nothing drops the item, or stores the states after its action. -/
theorem EndPart.quiet (h : e.EndPart id item post s exits summaries final new s')
    (hcount : s'.statistics.widenings = 0)
    (hfixpoints : ∀ layer action, s.layers.fixpoint? layer action = none) :
    s'.exits = exits ∧ (s'.layers = s.layers ∧ new = [] ∨
      e.Stores item post final post s s' ∧ ∀ i ∈ new, (∃ j, s.Redoes j i) ∨
        ∃ b ∈ e.goesOn final, i = e.successorOf s'.summaries id final post b) := by
  cases h with
  | infeasible _ _ hnew hlayers hexits => exact ⟨hexits, .inl ⟨hlayers, hnew⟩⟩
  | covered _ _ _ _ hnew hlayers hexits => exact ⟨hexits, .inl ⟨hlayers, hnew⟩⟩
  | coveredCall _ hcovered henters =>
    -- There are no fixpoints that could cover a call.
    unfold covers at hcovered
    rw [henters, if_pos rfl] at hcovered
    have hfixpoint := Layers.isScopeFixpoint_eq_ok hcovered
    rw [hfixpoints] at hfixpoint
    cases hfixpoint
  | loopFixpoint _ _ _ _ _ _ _ hlt =>
    rw [hcount] at hlt
    exact absurd hlt (Nat.not_lt_zero _)
  | entryFixpoint _ _ _ _ _ _ _ _ hlt =>
    rw [hcount] at hlt
    exact absurd hlt (Nat.not_lt_zero _)
  | stored hpost _ _ hwiden henter _ hadd _ hredone hnew hexits =>
    obtain ⟨hagainst, rfl⟩ | ⟨_, -, -, -, hlt⟩ := hwiden
    · refine ⟨hexits, .inr ⟨⟨hpost, .inl ⟨hagainst, rfl⟩, _, _, henter, hadd⟩, fun i hi => ?_⟩⟩
      rw [hnew] at hi
      obtain hi | hi := List.mem_append.mp hi
      · obtain ⟨j, -, hredoes⟩ := exists_of_forall₂ hredone hi
        exact .inl ⟨j, hredoes⟩
      · split at hi
        · obtain ⟨b, hb, rfl⟩ := List.mem_map.mp hi
          exact .inr ⟨b, hb, rfl⟩
        · cases hi
    · rw [hcount] at hlt
      exact absurd hlt (Nat.not_lt_zero _)

/-- The scopes that an item is left with are those of the calls that are open then. -/
theorem Stores.opened {widened : Disjunction S} (hc : e.Coherent)
    (h : e.Stores item post final widened s s') :
    final.scopes.map Scope.action = e.opened (item.scopes.map Scope.action) item.action := by
  unfold Engine.opened
  cases hkind : e.transitions.entersScope item.action with
  | true =>
    obtain ⟨hfinal, -⟩ := h.entered hkind
    rw [hfinal, if_pos rfl]
    show item.action :: (e.advanced item).scopes.map Scope.action = _
    rw [advanced_scopes_of_enters hc.separate hkind]
  | false =>
    obtain ⟨hfinal, -⟩ := h.stayed hkind
    obtain ⟨loops, hadvanced⟩ := e.advanced_eq item
    rw [hfinal, hadvanced, List.head?_map]
    show (if e.transitions.leavesScope item.action item.currentScope then _ else _ :
      List (Scope A S)).map Scope.action = _
    unfold Item.currentScope
    split
    · exact List.map_tail
    · rfl

variable [JoinedState S]

omit [DecidableEq L] [DecidableEq A] in
theorem Bounded.join {l : L} (t t' : S) (h : e.Bounded starts next initial l t)
    (h' : e.Bounded starts next initial l t') :
    e.Bounded starts next initial l (Interproc.join t t') :=
  fun u hwalks hstarts => join_below (h u hwalks hstarts) (h' u hwalks hstarts)

namespace Traced

omit [JoinedState S] in
/-- The states after an item's action are states of executions, with the calls that are open
then. -/
theorem walk (hexact : e.Exact next) (h : e.Traced starts next initial s) (hid : id ∈ s.pending)
    (hget : s.items.get id = .ok item) (hevaluate : e.evaluate item = .ok post) {u : S}
    (hu : u ∈ post.states) : e.Walk next initial starts
      (e.opened (item.scopes.map Scope.action) item.action) item.action u := by
  obtain ⟨hlength, hproceeds⟩ := h.items id hid item hget
  obtain ⟨t, ht, hnext⟩ := hexact item post hevaluate hlength u hu
  exact (hproceeds t ht).walk hnext

theorem stored_pass (h : e.Traced starts next initial s)
    (hbounded : ∀ u ∈ post.states,
      e.Bounded starts next initial (e.transitions.target item.action) u)
    (hstores : e.Stores item post final post s s') (layer : LayerId) (l : L) (d : Disjunction S)
    (hd : s'.layers.stored? layer l = some d) :
    ∀ t ∈ d.states, e.Bounded starts next initial l t := by
  obtain ⟨-, -, layers, stored, henter, hadd⟩ := hstores
  have hmerged := Layers.addState_ok hadd
  rw [hmerged.stored_eq] at hd
  split at hd
  · rename_i hplace
    cases hd
    rw [hmerged.stored_def, hplace.2]
    refine Disjunction.forall_merge Bounded.join ?_ hbounded
    rw [henter.stored_eq]
    cases hold : s.layers.stored? final.currentLayer (e.transitions.target item.action) with
    | none => exact fun t ht => absurd ht List.not_mem_nil
    | some d => exact h.stored _ _ d hold
  · rw [henter.stored_eq] at hd
    exact h.stored layer l d hd

theorem pass (hc : e.Coherent) (hexact : e.Exact next)
    (hsummaries : e.options.useSummaries = false) (hplain : Plain s)
    (h : e.Traced starts next initial s) (hpass : e.Pass id item post final s s')
    (hcount : s'.statistics.widenings = 0) : e.Traced starts next initial s' := by
  cases hpass with
  | @intro worklist exits summaries handed new added hpop hget hexit hpost hend hadded hframe =>
    have hid : id ∈ s.pending := Worklist.mem_of_pop hpop
    -- Without summaries, no item steps over a call.
    have hevaluate : e.evaluate item = .ok post := by
      cases hpost with
      | interpreted _ hevaluate => exact hevaluate
      | summarised hsome =>
        rw [hplain id item hget] at hsome
        cases hsome
    have hwalk := fun u => h.walk hexact hid hget hevaluate (u := u)
    -- As nothing is widened, the item is dropped, or its states are stored as they are.
    obtain ⟨hexits, hcases⟩ := hend.quiet hcount h.fixpoints
    have hcalls : ∀ layer, (exits.activation layer).calls = [] := fun layer => by
      rw [hexit.exits_mem.1, h.calls]
    refine ⟨fun layer => by rw [hexits]; exact hcalls layer, ?_, fun j hj i hi => ?_, ?_⟩
    · obtain ⟨hlayers, -⟩ | ⟨⟨-, -, layers, stored, henter, hadd⟩, -⟩ := hcases
      · rw [hlayers]
        exact h.fixpoints
      · intro layer action
        rw [(Layers.addState_ok hadd).fixpoint_eq, henter.fixpoint_eq]
        exact h.fixpoints layer action
    · obtain hmem | hmem | ⟨hj, hold⟩ := hframe.pending_cases hadded hj hi
      -- No call waits for an exit.
      · obtain ⟨call, hcall, -⟩ := hexit.handed_eq hmem
        rw [hcalls] at hcall
        cases hcall
      · obtain ⟨-, hnil⟩ | ⟨hstores, hnew⟩ := hcases
        · rw [hnil] at hmem
          cases hmem
        · obtain ⟨k, stale, _, _, hstale, -, -, hsome, -⟩ | ⟨b, hb, rfl⟩ := hnew i hmem
          · rw [hplain k stale hstale] at hsome
            cases hsome
          · have hsuccessor : e.successorOf s'.summaries id final post b
                = .successor post b id final := by
              unfold successorOf
              rw [hsummaries]
              rfl
            rw [hsuccessor]
            refine ⟨length_of_evaluate hevaluate, fun t ht => ?_⟩
            show e.Proceeds starts next initial (final.scopes.map Scope.action) b t
            rw [hstores.opened hc]
            refine .step (hwalk t ht) ?_
            unfold goesOn Item.currentScope at hb
            rw [hstores.action_eq, ← List.head?_map, hstores.opened hc] at hb
            exact hb
      · exact h.items j hj i hold
    · obtain ⟨hlayers, -⟩ | ⟨hstores, -⟩ := hcases
      · rw [hlayers]
        exact h.stored
      · exact h.stored_pass (fun u hu v hwalks _ => hwalks _ _ _ (hwalk u hu) rfl) hstores

theorem seed (hinitial : ∀ a state, e.declarations.initial a e.domain.fresh = .ok state →
      initial state) (h : e.Traced starts next initial s) {location : L}
    (hlocation : location ∈ starts) {action : A}
    (haction : action ∈ e.transitions.actionsFrom location)
    (hseed : e.SeedPart location action s s') : e.Traced starts next initial s' := by
  obtain ⟨state, stored, layers, id, hstate, hadd, hgrows⟩ := hseed
  have hlayers : s'.layers = layers := hgrows.unmoved.layers
  have hexits : s'.exits = s.exits := hgrows.unmoved.exits
  have hmerged := Layers.addState_ok hadd
  have hsingle : ∀ t ∈ (Disjunction.single state).states, t = state := fun t ht =>
    (Disjunction.mem_add ht).elim (fun ht => absurd ht List.not_mem_nil) fun ht => ht
  refine ⟨fun layer => by rw [hexits]; exact h.calls layer, fun layer a => ?_, ?_, ?_⟩
  · rw [hlayers, hmerged.fixpoint_eq]
    exact h.fixpoints layer a
  · intro j hj i hi
    obtain ⟨rfl, rfl⟩ | ⟨hold, hpending⟩ := hgrows.old_singleton hi
    · refine ⟨(Disjunction.length_single state).trans (Nat.le_max_right _ _), fun t ht => ?_⟩
      rw [hsingle t ht]
      exact .first hlocation haction (hinitial action state hstate)
    · exact h.items j (hpending hj) i hold
  · intro layer l d hd
    rw [hlayers, hmerged.stored_eq] at hd
    split at hd
    · rename_i hplace
      cases hd
      rw [hmerged.stored_def, hplace.2]
      refine Disjunction.forall_merge Bounded.join ?_ fun t ht u _ hstarts => ?_
      · cases hold : s.layers.stored? Layers.root location with
        | none => exact fun t ht => absurd ht List.not_mem_nil
        | some d => exact h.stored _ _ d hold
      · rw [hsingle t ht]
        exact hstarts hlocation action haction state (hinitial action state hstate)
    · exact h.stored layer l d hd

end Traced

omit [JoinedState S] in
theorem Pass.widenings_le (h : e.Pass id item post final s s') :
    s.statistics.widenings ≤ s'.statistics.widenings := by
  cases h
  assumption

/-- A computation that steps over no calls and widens nothing stores joins of states of
executions. -/
theorem Reachable.traced (hc : e.Coherent) (hexact : e.Exact next)
    (hinitial : ∀ a state, e.declarations.initial a e.domain.fresh = .ok state → initial state)
    (hsummaries : e.options.useSummaries = false) (h : e.Reachable starts s)
    (hcount : s.statistics.widenings = 0) : e.Traced starts next initial s := by
  induction h with
  | seeded hseed =>
    refine (seed_induct (P := e.Traced starts next initial) ⟨fun _ => rfl, ?_, ?_, ?_⟩ ?_ hseed).2
    · exact fun _ _ => Layers.fixpoint?_empty e.options.maxParallelStates
    · intro j hj
      cases hj
    · intro layer l d hd
      cases (Layers.stored?_empty e.options.maxParallelStates).symm.trans hd
    · exact fun l hl a ha t t' _ hpart ht => ht.seed hinitial hl ha hpart
  | iterated h hiterate ih =>
    obtain ⟨-, id, item, post, final, hpass⟩ := h.orderly.pass hiterate
    have hle : _ ≤ _ := hpass.widenings_le
    exact (ih (by omega)).pass hc hexact hsummaries (h.plain hsummaries) hpass hcount

omit [DecidableEq L] [DecidableEq A] [AbstractState S] [JoinedState S] in
/-- Executions depend on the control flow only, and take only transitions that it offers. -/
theorem Walk.map {e' : Engine L A S} {X : Type} {next next' : A → X → X → Prop}
    {initial : X → Prop} {calls : List A} {a : A} {y : X}
    (h : e.Walk next initial starts calls a y) (htransitions : e'.transitions = e.transitions)
    (hfirst : ∀ l b x y, b ∈ e.transitions.actionsFrom l → next b x y → next' b x y)
    (hstep : ∀ a scope b x y, b ∈ e.transitions.following a scope → next b x y → next' b x y) :
    e'.Walk next' initial starts calls a y := by
  have hopened : ∀ calls b, e'.opened calls b = e.opened calls b := by
    intro calls b
    unfold opened
    rw [htransitions]
  have honward : ∀ a scope, e'.onward a scope = e.onward a scope := by
    intro a scope
    unfold onward
    rw [htransitions]
  induction h with
  | @first l a x y hl ha hx hnext =>
    rw [← hopened]
    exact .first hl (by rw [htransitions]; exact ha) hx (hfirst l a x y ha hnext)
  | @step calls a b x y _ hb hnext ih =>
    rw [← hopened]
    refine .step ih (by rw [honward]; exact hb) ?_
    exact hstep a calls.head? b x y (List.mem_of_mem_filter hb) hnext

/-- What is stored before the first pass goes on being stored. -/
theorem holds_of_stateAfter (hc : e.Coherent) (hlaws : e.domain.Lawful) {s₀ : RunState L A S}
    (hfirst : e.stateAfter starts 0 = some s₀) {layer : LayerId} {l : L} {d : Disjunction S}
    (h : s₀.layers.Holds layer l d) {n : Nat} (hs : e.stateAfter starts n = some s) :
    s.layers.Holds layer l d := by
  induction n generalizing s with
  | zero =>
    rw [hfirst] at hs
    cases hs
    exact h
  | succ n ih =>
    obtain ⟨t, ht, hiterate⟩ := iterate_of_stateAfter hs
    obtain ⟨hordered, F, hbacked⟩ := (reachable_of_stateAfter ht).backed hc hlaws
    obtain ⟨-, id, item, post, final, hpass⟩ := hordered.pass hiterate
    exact (ih ht).grown (hpass.grown hbacked.proper)

end Engine

/-! ## §3. Joined states. -/

namespace Answer

variable {L A S : Type} [DecidableEq L] [AbstractState S] {answer : Answer L A S} {l : L} {c : S}

theorem joinedState_eq (answer : Answer L A S) (l : L) : answer.joinedState l =
    Disjunction.collapse ⟨(answer.statesAt l).filterMap fun q => q.2.collapse⟩ := rfl

/-- What joins keep holds of a joined state, if it holds of what is stored. -/
theorem forall_joinedState {Q : S → Prop} (hjoin : ∀ s t, Q s → Q t → Q (join s t))
    (h : ∀ layer d, answer.layers.stored? layer l = some d → ∀ t ∈ d.states, Q t)
    (hc : answer.joinedState l = some c) : Q c := by
  rw [joinedState_eq] at hc
  refine Disjunction.forall_collapse hjoin (fun t ht => ?_) hc
  obtain ⟨⟨id, d⟩, hd, ht⟩ := List.mem_filterMap.mp ht
  obtain ⟨found, hfound, hstate⟩ := List.mem_filterMap.mp hd
  obtain ⟨d', hd', hpair⟩ := Option.map_eq_some_iff.mp hstate
  cases hpair
  obtain ⟨i, hi, hget⟩ := List.mem_iff_getElem.mp hfound
  refine Disjunction.forall_collapse hjoin (h ⟨i⟩ d ?_) ht
  unfold Layers.stored?
  rw [Array.getElem?_eq_some_iff.mpr ⟨by simpa using hi, by simpa using hget⟩]
  exact hd'

/-- What is stored is below the joined state. -/
theorem below_joinedState [OrderedState S] {layer : LayerId} {d : Disjunction S} {t : S}
    (h : answer.layers.stored? layer l = some d) (ht : t ∈ d.states) :
    ∃ c, answer.joinedState l = some c ∧ isBelow t c = true := by
  obtain ⟨q, hq, rfl⟩ := exists_mem_statesAt h
  cases hcollapse : q.2.collapse with
  | none =>
    rw [Disjunction.collapse_eq_none_iff.mp hcollapse] at ht
    cases ht
  | some c₁ =>
    have hc₁ : c₁ ∈ (answer.statesAt l).filterMap fun q => q.2.collapse :=
      List.mem_filterMap.mpr ⟨q, hq, hcollapse⟩
    cases hjoined : answer.joinedState l with
    | none =>
      have hnone : (answer.statesAt l).filterMap (fun q => q.2.collapse) = [] :=
        Disjunction.collapse_eq_none_iff.mp hjoined
      rw [hnone] at hc₁
      cases hc₁
    | some c =>
      exact ⟨c, rfl, below_trans (Disjunction.below_collapse hcollapse ht)
        (Disjunction.below_collapse hjoined hc₁)⟩

end Answer

/-! ## §4. Interval analyses with summaries and without. -/

namespace Program

variable {p : Program Statement} {table : LoopTable} {options : Options} {starts : List Nat}

/-- All calls from one node return to one node. -/
def ReturnsMeet (p : Program Statement) : Prop :=
  ∀ u ∈ p.allTransitions, ∀ r ∈ p.allTransitions, u.standsForCall = true →
    r.kind = .ret u.head → r.tail = u.tail

/-- A transition of the program leads from one abstract store to another. -/
def Leads (p : Program Statement) (t : Transition Statement) (x y : IntervalState) : Prop :=
  t ∈ p.allTransitions ∧ y ∈ x.post t.statement

/-- Abstract stores describe the abstract stores below them. -/
theorem below_sound : (p.intervals table options).Sound
    (fun t x => x.bottom = false ∧ x.isSubset t = true) p.Leads where
  mono hbelow hs := ⟨hs.1, IntervalState.isSubset_trans hs.2 hbelow⟩
  proper hs := (IntervalState.not_bottom_of_isSubset hs.2 hs.1).1
  step := by
    rintro item post t x y hevaluate ht ⟨-, hx⟩ ⟨-, hy⟩ hbefore
    obtain ⟨u, hu, hyu⟩ := IntervalState.post_mono hx hy
    obtain ⟨v, hv, huv⟩ := covers_of_evaluate hevaluate ht hu hbefore
    exact ⟨v, hv, (IntervalState.mem_post_iff.mp hy).2.2, IntervalState.isSubset_trans hyu huv⟩

theorem standsIn_of_returnsMeet (hp : p.Built) (hmeet : p.ReturnsMeet) :
    (p.intervals table options).StandsIn p.Leads := by
  intro call u r x y hu hleaves hnext
  obtain ⟨hkind, hhead⟩ := hp.placed.standIn hu
  have hmatch : r.returnsFrom call = true := hleaves
  have hret : r.kind = .ret u.head := by
    unfold Transition.returnsFrom at hmatch
    split at hmatch
    · rename_i site hsite
      rw [Bool.and_eq_true, decide_eq_true_iff] at hmatch
      rw [hsite, hhead, hmatch.2]
    · cases hmatch
  have hmem : u ∈ p.allTransitions := by
    have hfound : p.summaryOf call = some u := hu
    unfold summaryOf at hfound
    split at hfound
    · exact mem_allTransitions (List.mem_of_find?_eq_some hfound)
    · cases hfound
  have htail := hmeet u hmem r hnext.1 (by simp [Transition.standsForCall, hkind]) hret
  refine ⟨htail, fun scope => ?_⟩
  show (p.following r scope).filter _ = (p.following u scope).filter _
  unfold following
  rw [htail]

theorem length_flatMap_le {α β : Type} {f : α → List β} (h : ∀ a, (f a).length ≤ 1) (l : List α) :
    (l.flatMap f).length ≤ l.length := by
  induction l with
  | nil => exact le_rfl
  | cons a l ih =>
    have ha := h a
    simp only [List.flatMap_cons, List.length_append, List.length_cons]
    omega

/-- A statement leads from each abstract store to one at most, so few of them are not joined. -/
theorem exact_intervals : (p.intervals table options).Exact
    fun t x y => y ∈ x.post t.statement := by
  intro item post hevaluate hlength u hu
  obtain ⟨fresh, hfresh, h⟩ := except_bind_eq_ok.mp hevaluate
  have hold : fresh.states ⊆ item.pre.states ∧
      fresh.states.length ≤ max options.maxParallelStates 1 := by
    obtain ⟨states, hstates, hfresh⟩ := except_bind_eq_ok.mp hfresh
    cases hfresh
    have hsame := (mapM_ok id item.pre.states).symm.trans hstates
    rw [List.map_id] at hsame
    cases hsame
    exact ⟨fun t ht => Disjunction.mem_of_mem_ofStates (List.Subset.refl _) hlength ht,
      Disjunction.length_reduce _ _⟩
  have hfew := (length_flatMap_le (fun t : IntervalState => t.length_post item.action.statement)
    fresh.states).trans hold.2
  suffices hfound : ∃ t ∈ fresh.states, u ∈ t.post item.action.statement by
    obtain ⟨t, ht, hu⟩ := hfound
    exact ⟨t, hold.1 ht, hu⟩
  unfold Engine.postOf at h
  split at h
  · rename_i before _ _
    obtain ⟨posts, hposts, h⟩ := except_bind_eq_ok.mp h
    cases h
    cases (mapM_ok (fun q : IntervalState × IntervalState => q.1.post item.action.statement)
      (fresh.pairs before)).symm.trans hposts
    -- Which state the scope was entered from makes no difference.
    have hsub : ((fresh.pairs before).map fun q => q.1.post item.action.statement).flatten ⊆
        fresh.states.flatMap fun t => t.post item.action.statement := by
      intro y hy
      obtain ⟨_, hmem, hy⟩ := List.mem_flatten.mp hy
      obtain ⟨q, hq, rfl⟩ := List.mem_map.mp hmem
      obtain ⟨t, ht, hq⟩ := List.mem_flatMap.mp hq
      obtain ⟨_, -, rfl⟩ := List.mem_map.mp hq
      exact List.mem_flatMap.mpr ⟨t, ht, hy⟩
    exact List.mem_flatMap.mp (hsub (Disjunction.mem_of_mem_ofStates hsub hfew hu))
  · obtain ⟨posts, hposts, h⟩ := except_bind_eq_ok.mp h
    cases h
    cases (mapM_ok (fun t : IntervalState => t.post item.action.statement)
      fresh.states).symm.trans hposts
    exact List.mem_flatMap.mp (Disjunction.mem_of_mem_ofStates (List.Subset.refl _) hfew hu)

section Compared

variable {budget : Nat} {answer : Answer Nat (Transition Statement) IntervalState}
variable {s : RunState Nat (Transition Statement) IntervalState} {l : Nat} {t : IntervalState}

/-- The joined states of an analysis that steps over no calls and widens nothing are bounded by the
states of executions. -/
theorem bounded_of_run (hp : p.Built) (hsummaries : options.useSummaries = false)
    (hrun : (p.intervals table options).run budget starts = .ok answer s)
    (hwidens : answer.statistics.widenings = 0) (ht : answer.joinedState l = some t) :
    t.bottom = false ∧ (p.intervals table options).Bounded starts
      (fun r x y => y ∈ x.post r.statement) (· = .unconstrained) l t := by
  have hc : (p.intervals table options).Coherent := hp.coherent rfl rfl
  obtain ⟨s₀, n, u, -, -, hn, -, rfl⟩ := Engine.stateAfter_of_run hrun
  have hreachable := Engine.reachable_of_stateAfter hn
  obtain ⟨-, F, hbacked⟩ := hreachable.backed hc IntervalState.domain_lawful
  have htraced : (p.intervals table options).Traced starts
      (fun r x y => y ∈ x.post r.statement) (· = .unconstrained) u :=
    hreachable.traced hc exact_intervals (fun _ state hstate => by cases hstate; rfl) hsummaries
      hwidens
  refine ⟨?_, Answer.forall_joinedState Engine.Bounded.join
    (fun layer d hd => htraced.stored layer l d hd) ht⟩
  refine Answer.forall_joinedState (Q := fun t => isBottom t = false) (fun t t' hproper _ => ?_)
    (fun layer d hd t ht => hbacked.proper layer l d hd t ht) ht
  exact Disjunction.not_isBottom_of_below (below_join_left t t') hproper

/-- The state that an analysis starts with is below the joined states at its starts. -/
theorem unconstrained_below_joinedState (hp : p.Built)
    (hrun : (p.intervals table options).run budget starts = .ok answer s) (hl : l ∈ starts)
    {r : Transition Statement} (hr : r ∈ p.outOf l) :
    ∃ c, answer.joinedState l = some c ∧ isBelow IntervalState.unconstrained c = true := by
  have hc : (p.intervals table options).Coherent := hp.coherent rfl rfl
  obtain ⟨s₀, n, u, hseed, hfirst, hn, -, hanswer⟩ := Engine.stateAfter_of_run hrun
  obtain ⟨state, hstate, j, hj, hget⟩ := Engine.started_of_seed hseed l hl r hr
  cases hstate
  obtain ⟨-, F, hbacked⟩ :=
    (Engine.reachable_of_stateAfter hfirst).backed hc IntervalState.domain_lawful
  have hholds : s₀.layers.Holds Layers.root r.head (.single .unconstrained) :=
    hbacked.sources j hj _ hget rfl
  rw [hp.placed.head_of_outOf hr] at hholds
  obtain ⟨d, hd, hsub⟩ :=
    Engine.holds_of_stateAfter hc IntervalState.domain_lawful hfirst hholds hn
  obtain ⟨v, hv, hbelow⟩ :=
    (Disjunction.covers_single (s := IntervalState.unconstrained) rfl).of_isSubset hsub
  have hstored : answer.layers.stored? Layers.root l = some d := by rw [hanswer]; exact hd
  obtain ⟨c, hjoined, hvc⟩ := Answer.below_joinedState hstored hv
  exact ⟨c, hjoined, below_trans hbelow hvc⟩

end Compared

/-- Stepping over calls loses nothing, compared with an analysis that widens nothing, if the
analysis that does so is free of losses, tells all returns, and all calls from one node return to
one node. -/
theorem joinedState_isBelow_of_summaries (hp : p.Built) (hmeet : p.ReturnsMeet)
    {budget budget' : Nat} {plain summarised : Answer Nat (Transition Statement) IntervalState}
    {s s' : RunState Nat (Transition Statement) IntervalState}
    (hplain : (p.intervals table { options with useSummaries := false }).run budget starts
      = .ok plain s)
    (hsummarised : (p.intervals table { options with useSummaries := true }).run budget' starts
      = .ok summarised s')
    (hwidens : plain.statistics.widenings = 0)
    (hfree : (p.intervals table { options with useSummaries := true }).LossFree starts)
    (htells : (p.intervals table { options with useSummaries := true }).TellsAll starts) {l : Nat}
    {t : IntervalState} (ht : plain.joinedState l = some t) :
    ∃ t', summarised.joinedState l = some t' ∧ isBelow t t' = true := by
  have hc : (p.intervals table { options with useSummaries := true }).Coherent :=
    hp.coherent rfl rfl
  obtain ⟨hproper, hbounded⟩ := bounded_of_run hp rfl hplain hwidens ht
  have hwalks : ∀ calls r y, (p.intervals table { options with useSummaries := false }).Walk
      (fun r x y => y ∈ x.post r.statement) (· = .unconstrained) starts calls r y → r.tail = l →
      ∃ c, summarised.joinedState l = some c ∧ isBelow y c = true := by
    rintro calls r y hwalk rfl
    have hwalk' : (p.intervals table { options with useSummaries := true }).Walk p.Leads
        (· = .unconstrained) starts calls r y :=
      hwalk.map rfl (fun _ _ _ _ hb hnext => ⟨mem_allTransitions hb, hnext⟩)
        fun _ _ _ _ _ hb hnext => ⟨mem_allTransitions (List.mem_of_mem_filter hb), hnext⟩
    obtain ⟨layer, v, ⟨d, hd, w, hw, hvw⟩, -, hyv⟩ := htells.describes_of_walk hc
      IntervalState.domain_lawful below_sound (standsIn_of_returnsMeet hp hmeet) hfree hsummarised
      (fun _ state hstate x hx => by
        cases hstate
        rw [hx]
        exact ⟨rfl, IntervalState.isSubset_refl _⟩) hwalk'
    obtain ⟨c, hjoined, hwc⟩ := Answer.below_joinedState hd hw
    exact ⟨c, hjoined, below_trans (below_trans hyv hvw) hwc⟩
  have hstarts := fun hl r (hr : r ∈ p.outOf l) =>
    unconstrained_below_joinedState hp hsummarised hl hr
  cases hjoined : summarised.joinedState l with
  | none =>
    -- Nothing leads here, so the other analysis would have stored nothing either.
    have hbottom := hbounded .empty (fun calls r y hwalk hr => by
      obtain ⟨c, hc, -⟩ := hwalks calls r y hwalk hr
      rw [hjoined] at hc
      cases hc) (fun hl r hr _ _ => by
      obtain ⟨c, hc, -⟩ := hstarts hl r hr
      rw [hjoined] at hc
      cases hc)
    cases (IntervalState.not_bottom_of_isSubset hbottom hproper).1
  | some c =>
    refine ⟨c, rfl, hbounded c (fun calls r y hwalk hr => ?_) fun hl r hr x hx => ?_⟩
    · obtain ⟨c', hc', hbelow⟩ := hwalks calls r y hwalk hr
      rw [hjoined] at hc'
      cases hc'
      exact hbelow
    · obtain ⟨c', hc', hbelow⟩ := hstarts hl r hr
      rw [hjoined] at hc'
      cases hc'
      rw [hx]
      exact hbelow

/-- A procedure `h` that is called twice and does nothing but call `g`, which returns early with `y`
at `1`, and late with `y` at `2`. -/
def forwarding : Program Statement := .ofAdditions
  [.procedure "main", .procedure "h", .procedure "g", .node "main", .node "main", .node "g",
    .node "g", .node "g", .node "g", .internal 0 6 .nop, .call 6 7 "h" .nop, .call 7 1 "h" .nop,
    .call 2 3 "g" .nop, .internal 4 5 (.assign "y" 1), .internal 4 8 .nop, .internal 8 9 .nop,
    .internal 9 10 .nop, .internal 10 11 .nop, .internal 11 5 (.assign "y" 2)]

/-- One state for each location, and items in the order in which they were added. -/
def inOrder : Options := ⟨1, 1, .fifo, false, Nat.one_pos, Nat.one_pos⟩

/-- The interval analysis of a program without loops, with summaries or without. -/
def loopFreeIntervals (p : Program Statement) (useSummaries : Bool) :
    Engine Nat (Transition Statement) IntervalState :=
  p.intervals ⟨.empty⟩ { inOrder with useSummaries := useSummaries }

open Engine in
set_option maxRecDepth 100000 in
/-- The second call of `h` steps over `g` by a summary that has the early return only, and does so
again when the late return has been added to it. -/
theorem joinedState_isBelow_of_summaries_forwarding : ∃ plain summarised s s' t t',
    (forwarding.loopFreeIntervals false).run 80 [0] = .ok plain s ∧
    (forwarding.loopFreeIntervals true).run 80 [0] = .ok summarised s' ∧
    forwarding.ReturnsMeet ∧ plain.statistics.widenings = 0 ∧
    (forwarding.loopFreeIntervals true).LossFree [0] ∧
    (forwarding.loopFreeIntervals true).TellsAll [0] ∧
    summarised.statistics.summariesApplied = 3 ∧
    t = IntervalState.unconstrained.setVariable "y" ⟨1, 2⟩ ∧ plain.joinedState 1 = some t ∧
    summarised.joinedState 1 = some t' ∧ isBelow t t' = true := by
  have hplain : (forwarding.loopFreeIntervals false).answers 80 [0] (fun answer =>
      answer.statistics.widenings = 0 && decide (answer.joinedState 1 =
        some (IntervalState.unconstrained.setVariable "y" ⟨1, 2⟩))) = true := by decide +kernel
  have hsummarised : (forwarding.loopFreeIntervals true).answers 80 [0] (fun answer =>
      answer.statistics.summariesApplied = 3) = true := by decide +kernel
  have hmeet : forwarding.ReturnsMeet := by
    unfold ReturnsMeet
    decide +kernel
  have hfree : (forwarding.loopFreeIntervals true).LossFree [0] := by
    have hcheck : (forwarding.loopFreeIntervals true).holdsThroughout
        (forwarding.loopFreeIntervals true).nextDropsFreely 80 [0] = true := by decide +kernel
    exact lossFree_of_holdsThroughout hcheck
  have htells : (forwarding.loopFreeIntervals true).TellsAll [0] := by
    have hcheck : (forwarding.loopFreeIntervals true).isTelling 21 [0] = true := by decide +kernel
    exact tellsAll_of_isTelling hcheck
  obtain ⟨plain, s, hrun, hcheck⟩ := exists_of_answers hplain
  rw [Bool.and_eq_true, decide_eq_true_iff, decide_eq_true_iff] at hcheck
  obtain ⟨summarised, s', hrun', happlied⟩ := exists_of_answers hsummarised
  obtain ⟨t', ht', hbelow⟩ := joinedState_isBelow_of_summaries ⟨_, rfl⟩ hmeet hrun hrun' hcheck.1
    hfree htells hcheck.2
  exact ⟨plain, summarised, s, s', _, t', hrun, hrun', hmeet, hcheck.1, hfree, htells,
    of_decide_eq_true happlied, rfl, hcheck.2, ht', hbelow⟩

/-- A procedure `h` that is called twice, with `x` at `10` and at `0`.  It calls `g`, or takes a
longer branch, for which `x` has to be at least `10`. -/
def relaying : Program Statement := .ofAdditions
  [.procedure "main", .procedure "h", .procedure "g", .node "main", .node "main", .node "main",
    .node "main", .node "main", .node "h", .node "h", .internal 0 6 (.assign "x" 10),
    .call 6 7 "h" .nop, .internal 7 8 (.havoc "y"), .internal 8 9 (.assign "x" 0),
    .call 9 10 "h" .nop, .internal 10 1 .nop, .internal 2 11 (.havoc "x"), .call 11 12 "g" .nop,
    .internal 12 3 .nop, .node "h", .internal 2 13 (.assumeAtLeast "x" 10), .node "h",
    .internal 13 14 .nop, .node "h", .internal 14 15 .nop, .internal 15 12 (.havoc "x"),
    .internal 4 5 (.assign "y" 1), .node "g", .internal 4 16 .nop, .internal 16 5 (.assign "y" 2)]

open Engine in
set_option maxRecDepth 100000 in
/-- Returns get lost between calls: the second return of `g` is dropped, because the long branch of
`h` made what is stored after the call cover it, and so it never gets into the summary by which the
second call of `h` steps over `g`.  There, without the long branch, `y` is `1` and never `2`. -/
theorem not_isBelow_relaying : ∃ plain summarised s s' t t',
    (relaying.loopFreeIntervals false).run 80 [0] = .ok plain s ∧
    (relaying.loopFreeIntervals true).run 80 [0] = .ok summarised s' ∧
    plain.joinedState 1 = some t ∧ summarised.joinedState 1 = some t' ∧
    isBelow t t' = false := by
  have hplain : (relaying.loopFreeIntervals false).answers 80 [0] (fun answer =>
      answer.joinedState 1 = some (IntervalState.unconstrained.setVariable "y" ⟨1, 2⟩)) = true := by
    decide +kernel
  have hsummarised : (relaying.loopFreeIntervals true).answers 80 [0] (fun answer =>
      answer.joinedState 1 = some (IntervalState.unconstrained.setVariable "y" ⟨1, 1⟩)) = true := by
    decide +kernel
  obtain ⟨plain, s, hrun, ht⟩ := exists_of_answers hplain
  obtain ⟨summarised, s', hrun', ht'⟩ := exists_of_answers hsummarised
  exact ⟨plain, summarised, s, s', _, _, hrun, hrun', of_decide_eq_true ht,
    of_decide_eq_true ht', by decide +kernel⟩

end Program

end Interproc
