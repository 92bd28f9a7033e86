/-
  Interproc.Proofs.Termination
  ────────────────────────────
  Computations end.  An engine whose actions and states are among finitely many, and
  whose parts never refuse, processes items until none is left, because every pass
  uses up some of the potential.

  Interval analyses are such engines: a program has finitely many transitions, which
  mention finitely many variables, and an interval has finitely many ends.

  Main result: `Engine.finishes_of_intervals`.
-/
import Mathlib
import Interproc.Proofs.Potential
import Interproc.Proofs.Safety
import Interproc.Proofs.Soundness

namespace Interproc

variable {L A S : Type} [AbstractState S]

/-! ## §1. Engines with finitely many actions and states. -/

namespace Engine

variable [DecidableEq L] [DecidableEq A] {e : Engine L A S} {x : Extent A S} {starts : List L}

/-- What is reachable can be processed until no item is left. -/
theorem exists_finished [LawfulState S] (hc : e.Coherent) (hlaws : e.domain.Lawful)
    (hspans : e.Spans x) (hsafe : ∀ halt, ¬e.Excused halt) {F : Contexts L A S}
    {s : RunState L A S} (hs : e.Reachable starts s) (hbacked : e.Backed F s) :
    ∃ t, e.Later s t ∧ t.pending = [] := by
  obtain ⟨hordered, hintact⟩ := hs.intact
  cases hiterate : e.iterate s with
  | error halt s' => exact (hsafe halt (failsWith_iterate hordered hintact halt s' hiterate)).elim
  | ok more s' =>
    obtain ⟨-, hpop, -⟩ | ⟨rfl, -⟩ := iterate_ok hiterate
    · exact ⟨s, .refl, Worklist.pending_of_pop_none hpop⟩
    · -- Layers keep their contexts, and a new layer gets one of its own.
      obtain ⟨hordered', id, item, post, final, hpass⟩ := hordered.pass hiterate
      have hshrinks := hpass.potential_lt hc hlaws hspans hordered hordered' hbacked
        (hs.sustained hspans.sustains)
      obtain ⟨t, hlater, ht⟩ := exists_finished hc hlaws hspans hsafe (hs.iterated hiterate)
        (hbacked.pass hc hordered hordered' hpass fun _ hstores => hstores.holds hlaws)
      exact ⟨t, .iterated hiterate hlater, ht⟩
termination_by (e.potential x F s, s.pending.toFinset.card)
decreasing_by
  obtain hlt | ⟨hle, hlt⟩ := hshrinks
  · exact Prod.Lex.left _ _ hlt
  · obtain heq | hlt' := Nat.eq_or_lt_of_le hle
    · rw [heq]
      exact Prod.Lex.right _ hlt
    · exact Prod.Lex.left _ _ hlt'

/-- There is no pass after one that leaves no item. -/
theorem stateAfter_eq_none {n k : Nat} {s : RunState L A S} (h : e.stateAfter starts n = some s)
    (hpending : s.pending = []) (hk : n < k) : e.stateAfter starts k = none := by
  induction k, hk using Nat.le_induction with
  | base =>
    cases hnext : e.stateAfter starts (n + 1) with
    | none => rfl
    | some s' =>
      obtain ⟨t, ht, hiterate⟩ := iterate_of_stateAfter hnext
      rw [h] at ht
      cases ht
      obtain ⟨hfalse, -⟩ | ⟨-, _, _, _, _, _, _, hpop, -⟩ := iterate_ok hiterate
      · cases hfalse
      · have hmem := Worklist.mem_of_pop hpop
        rw [show s.worklist.pending = [] from hpending] at hmem
        cases hmem
  | succ k _ ih =>
    unfold stateAfter
    rw [ih]
    rfl

/-- A computation ends after some passes, and there is an answer if it may take as many. -/
theorem finishes [LawfulState S] (hc : e.Coherent) (hlaws : e.domain.Lawful)
    (hspans : e.Spans x) (hsafe : ∀ halt, ¬e.Excused halt) (starts : List L) :
    ∃ n s, e.stateAfter starts n = some s ∧ s.pending = [] ∧
      (starts ≠ [] → ∀ budget, n < budget → ∃ answer s', e.run budget starts = .ok answer s') := by
  obtain ⟨s₀, hseed⟩ : ∃ s₀, e.seed starts (.start e.options) = .ok () s₀ := by
    cases hseed : e.seed starts (.start e.options) with
    | error halt s' => exact (hsafe halt (failsWith_seed starts halt s' hseed)).elim
    | ok _ s₀ => exact ⟨s₀, rfl⟩
  have hfirst := stateAfter_zero.mpr hseed
  have hreachable : e.Reachable starts s₀ := .seeded hseed
  obtain ⟨-, F, hbacked⟩ := hreachable.backed hc hlaws
  obtain ⟨s, hlater, hpending⟩ := exists_finished hc hlaws hspans hsafe hreachable hbacked
  obtain ⟨n, hn⟩ := stateAfter_of_later hfirst hlater
  refine ⟨n, s, hn, hpending, fun hstarts budget hbudget => ?_⟩
  cases hrun : e.run budget starts with
  | ok answer s' => exact ⟨answer, s', rfl⟩
  | error halt s' =>
    have hcompute : e.compute budget starts (.start e.options) = .error halt s' := hrun
    -- Nothing is excused, so all that could fail is that the passes are too few.
    obtain hexcused | ⟨-, hsome⟩ := failsWith_compute hstarts budget halt s' hcompute
    · exact (hsafe halt hexcused).elim
    · rw [stateAfter_eq_none hn hpending hbudget] at hsome
      cases hsome

end Engine

/-! ## §2. Properties that domains keep. -/

/-- A property of states that all that a domain does with actions of a kind keeps. -/
structure Domain.Closed (domain : Domain A S) (R : A → Prop) (Q : S → Prop) : Prop where
  fresh : Q domain.fresh
  join : ∀ s t, Q s → Q t → Q (join s t)
  post : ∀ {a s ts}, R a → Q s → domain.post s a = .ok ts → ∀ t ∈ ts, Q t
  postLeaving : ∀ {a s outer ts}, R a → Q s → Q outer → domain.postLeaving s outer a = .ok ts →
    ∀ t ∈ ts, Q t
  widen : ∀ {s t u}, Q s → Q t → domain.widen s t = .ok u → Q u

namespace Domain.Closed

variable {domain : Domain A S} {R : A → Prop} {Q : S → Prop} {d outer older newer : Disjunction S}
variable {action : A} {width : Nat}

theorem mono {R' : A → Prop} (h : domain.Closed R Q) (hR : ∀ {a}, R' a → R a) :
    domain.Closed R' Q :=
  ⟨h.fresh, h.join, fun ha => h.post (hR ha), fun ha => h.postLeaving (hR ha), h.widen⟩

theorem ofStates (h : domain.Closed R Q) {l : List S} (hl : ∀ t ∈ l, Q t) :
    ∀ t ∈ (Disjunction.ofStates l width).states, Q t :=
  Disjunction.forall_narrow h.join _ fun t ht =>
    (Disjunction.mem_addAll ht).elim (fun hnone => (nomatch hnone)) (hl t)

theorem disjunction_post (h : domain.Closed R Q) (ha : R action) (hd : ∀ t ∈ d.states, Q t)
    {after : Disjunction S} (hafter : d.post domain action width = .ok after) :
    ∀ t ∈ after.states, Q t := by
  obtain ⟨posts, hposts, hafter⟩ := except_bind_eq_ok.mp hafter
  cases hafter
  refine h.ofStates fun t ht => ?_
  obtain ⟨ts, hts, ht⟩ := List.mem_flatten.mp ht
  obtain ⟨s, hs, happlied⟩ := Engine.exists_of_forall₂ (forall₂_of_mapM hposts) hts
  exact h.post ha (hd s hs) happlied t ht

theorem disjunction_postLeaving (h : domain.Closed R Q) (ha : R action)
    (hd : ∀ t ∈ d.states, Q t) (houter : ∀ t ∈ outer.states, Q t) {after : Disjunction S}
    (hafter : d.postLeaving outer domain action width = .ok after) :
    ∀ t ∈ after.states, Q t := by
  obtain ⟨posts, hposts, hafter⟩ := except_bind_eq_ok.mp hafter
  cases hafter
  refine h.ofStates fun t ht => ?_
  obtain ⟨ts, hts, ht⟩ := List.mem_flatten.mp ht
  obtain ⟨pair, hpair, happlied⟩ := Engine.exists_of_forall₂ (forall₂_of_mapM hposts) hts
  obtain ⟨s, hs, hpair⟩ := List.mem_flatMap.mp hpair
  obtain ⟨u, hu, rfl⟩ := List.mem_map.mp hpair
  exact h.postLeaving ha (hd s hs) (houter u hu) happlied t ht

theorem disjunction_widen (h : domain.Closed R Q) (holder : ∀ t ∈ older.states, Q t)
    (hnewer : ∀ t ∈ newer.states, Q t) {widened : Disjunction S}
    (hwiden : older.widen newer domain = .ok widened) : ∀ t ∈ widened.states, Q t := by
  unfold Disjunction.widen at hwiden
  split at hwiden
  · rename_i s t hs ht
    obtain ⟨u, hu, hwiden⟩ := except_bind_eq_ok.mp hwiden
    cases hwiden
    intro v hv
    rw [Disjunction.eq_of_mem_single hv]
    exact h.widen (Disjunction.forall_collapse h.join holder hs)
      (Disjunction.forall_collapse h.join hnewer ht) hu
  · cases hwiden
    exact holder
  · cases hwiden
    exact hnewer

/-- Where no variables come into scope, computations keep what the domain keeps. -/
theorem sustains {e : Engine L A S} (h : e.domain.Closed R Q) (hnone : e.declarations = .none)
    (hfrom : ∀ {l a}, a ∈ e.transitions.actionsFrom l → R a)
    (hfollowing : ∀ {a b scope}, b ∈ e.transitions.following a scope → R b)
    (hsummary : ∀ {a b}, e.transitions.summaryOf a = some b → R b) :
    e.Sustains R fun d => ∀ t ∈ d.states, Q t where
  bottom _ ht := (nomatch ht)
  initial := by
    intro l a state ha hstate
    rw [hnone] at hstate
    cases hstate
    refine ⟨hfrom ha, fun t ht => ?_⟩
    rw [Disjunction.eq_of_mem_single ht]
    exact h.fresh
  following := hfollowing
  summaryOf := hsummary
  evaluate := by
    intro item post ha hpre hbefore hpost
    obtain ⟨fresh, hfresh, hpost⟩ := except_bind_eq_ok.mp hpost
    obtain ⟨states, hstates, hfresh⟩ := except_bind_eq_ok.mp hfresh
    cases hfresh
    have hstart : ∀ t ∈ (Disjunction.ofStates states e.options.maxParallelStates).states, Q t := by
      refine h.ofStates fun t ht => ?_
      obtain ⟨s, hs, hdeclared⟩ := Engine.exists_of_forall₂ (forall₂_of_mapM hstates) ht
      rw [hnone] at hdeclared
      cases hdeclared
      exact hpre t hs
    -- An action that leaves a scope also gets the states from before the scope.
    unfold Engine.postOf at hpost
    split at hpost
    · rename_i before _ hscope
      exact h.disjunction_postLeaving ha hstart (hbefore before hscope) hpost
    · exact h.disjunction_post ha hstart hpost
  merge := Disjunction.forall_merge h.join
  widen := fun holder hnewer hwiden => h.disjunction_widen holder hnewer hwiden

end Domain.Closed

/-! ## §3. Stores over finitely many variables. -/

/-- The variable that a statement is about. -/
def Statement.variable? : Statement → Option String
  | .nop => none
  | .assign name _ => some name
  | .add name _ => some name
  | .assumeLessThan name _ => some name
  | .assumeAtLeast name _ => some name
  | .assumeFalse => none
  | .havoc name => some name

instance : Finite Interval := by
  refine Finite.of_injective (fun i : Interval => (i.lo.toBitVec, i.hi.toBitVec)) fun i j h => ?_
  obtain ⟨hlo, hhi⟩ := Prod.mk.inj h
  cases i
  cases j
  congr
  · exact Int64.toBitVec_inj.mp hlo
  · exact Int64.toBitVec_inj.mp hhi

namespace IntervalState

variable {V : Finset String} {s t : IntervalState} {name : String}

/-- A store that constrains no variables but some. -/
def Over (V : Finset String) (s : IntervalState) : Prop :=
  ∀ name, (s.intervals.find? name).isSome → name ∈ V

theorem Over.find?_eq_none (hs : Over V s) (hname : name ∉ V) : s.intervals.find? name = none := by
  by_contra hsome
  exact hname (hs name (Option.isSome_iff_ne_none.mpr hsome))

/-- There are finitely many stores over finitely many variables. -/
theorem finite_over (V : Finset String) : {s | Over V s}.Finite := by
  have hfinite : Finite {s // Over V s} := by
    refine Finite.of_injective (fun s : {s // Over V s} =>
      (s.1.bottom, fun name : V => s.1.intervals.find? name)) ?_
    rintro ⟨⟨b, m⟩, hs⟩ ⟨⟨b', m'⟩, ht⟩ h
    obtain ⟨rfl, hfind⟩ := Prod.mk.inj h
    congr 2
    -- Two stores that agree on the variables agree on all others, which none of them constrains.
    refine SortedMap.ext_find? fun name => ?_
    by_cases hname : name ∈ V
    · exact congrFun hfind ⟨name, hname⟩
    · exact (hs.find?_eq_none hname).trans (ht.find?_eq_none hname).symm
  exact Set.finite_coe_iff.mp hfinite

theorem over_unconstrained : Over V unconstrained := by
  intro name h
  cases h

theorem over_empty : Over V empty := by
  intro name h
  cases h

theorem Over.setVariable (hs : Over V s) (hname : name ∈ V) (i : Interval) :
    Over V (s.setVariable name i) := by
  unfold IntervalState.setVariable
  split
  · exact over_empty
  · split
    · exact hs
    · intro other h
      rw [SortedMap.find?_insert] at h
      split at h
      · rename_i hother
        exact hother ▸ hname
      · exact hs other h

theorem Over.forget (hs : Over V s) : Over V (s.forget name) := by
  intro other h
  unfold IntervalState.forget at h
  rw [SortedMap.find?_erase] at h
  split at h
  · cases h
  · exact hs other h

theorem Over.combine (hs : Over V s) (f : Interval → Interval → Interval) :
    Over V (combine f s t) := by
  intro other h
  rw [find?_combine] at h
  refine hs other ?_
  cases hfind : s.intervals.find? other with
  | none =>
    rw [hfind] at h
    cases h
  | some i => rfl

theorem Over.join (hs : Over V s) (ht : Over V t) : Over V (s.join t) := by
  unfold IntervalState.join
  split
  · exact ht
  · split
    · exact hs
    · exact hs.combine _

theorem Over.widen (hs : Over V s) (ht : Over V t) : Over V (s.widen t) := by
  unfold IntervalState.widen
  split
  · exact ht
  · split
    · exact hs
    · exact hs.combine _

theorem Over.after (hs : Over V s) {statement : Statement}
    (hname : ∀ name ∈ statement.variable?, name ∈ V) : Over V (s.after statement) := by
  cases statement with
  | nop => exact hs
  | assign name k => exact hs.setVariable (hname name rfl) _
  | add name k => exact hs.setVariable (hname name rfl) _
  | assumeLessThan name k => exact hs.setVariable (hname name rfl) _
  | assumeAtLeast name k => exact hs.setVariable (hname name rfl) _
  | assumeFalse => exact over_empty
  | havoc name => exact hs.forget

theorem Over.post (hs : Over V s) {statement : Statement}
    (hname : ∀ name ∈ statement.variable?, name ∈ V) : ∀ t ∈ s.post statement, Over V t := by
  intro t ht
  obtain ⟨-, rfl, -⟩ := mem_post_iff.mp ht
  exact hs.after hname

/-- Statements about some variables lead from stores over them to stores over them. -/
theorem domain_closed (V : Finset String) : domain.Closed
    (fun t => ∀ name ∈ t.statement.variable?, name ∈ V) (Over V) where
  fresh := over_unconstrained
  join _ _ := Over.join
  post := by
    intro t s ts ht hs hts
    cases hts
    exact hs.post ht
  postLeaving := by
    intro t s outer ts ht hs _ hts
    cases hts
    exact hs.post ht
  widen := by
    intro s t u hs ht hu
    cases hu
    exact hs.widen ht

end IntervalState

/-! ## §4. Interval analyses. -/

namespace Engine

variable {p : Program Statement} {table : LoopTable} {options : Options}

/-- Interval analyses never fail on their own. -/
theorem not_excused_of_intervals (halt : Halt (Transition Statement)) :
    ¬(p.intervals table options).Excused halt := by
  intro h
  cases h with
  | cancelled h => cases h
  | refused h =>
    cases h with
    | initial h => cases h
    | after h => cases h
    | post h => cases h
    | postLeaving h => cases h
    | widen h => cases h
  | unsound hcheck => cases hcheck

/-- The variables of a program. -/
def programVariables (p : Program Statement) : Finset String :=
  (p.allTransitions.filterMap fun t => t.statement.variable?).toFinset

/-- All that an interval analysis of a program computes with. -/
noncomputable def programExtent (p : Program Statement) :
    Extent (Transition Statement) IntervalState where
  actions := p.allTransitions.toFinset
  states := (IntervalState.finite_over (programVariables p)).toFinset
  branching := ∑ t ∈ p.allTransitions.toFinset, (p.outOf t.tail).length

theorem spans_of_intervals : (p.intervals table options).Spans (programExtent p) where
  sustains := by
    have hstates : (fun t => t ∈ (programExtent p).states) =
        IntervalState.Over (programVariables p) :=
      funext fun t => propext (Set.Finite.mem_toFinset _)
    have hclosed : (p.intervals table options).domain.Closed (· ∈ (programExtent p).actions)
        (fun t => t ∈ (programExtent p).states) := by
      rw [hstates]
      refine (IntervalState.domain_closed _).mono fun {t} ht name hname => ?_
      rw [programVariables, List.mem_toFinset, List.mem_filterMap]
      exact ⟨t, List.mem_toFinset.mp ht, hname⟩
    refine hclosed.sustains rfl (fun ha => ?_) (fun hb => ?_) (fun {a b} hb => ?_)
    · exact List.mem_toFinset.mpr (Program.mem_allTransitions ha)
    · exact List.mem_toFinset.mpr (Program.mem_allTransitions (List.mem_of_mem_filter hb))
    · have hb : p.summaryOf a = some b := hb
      unfold Program.summaryOf at hb
      split at hb
      · exact List.mem_toFinset.mpr (Program.mem_allTransitions (List.mem_of_find?_eq_some hb))
      · cases hb
  branching := by
    intro t ht scope
    refine (List.length_filter_le _ _).trans ?_
    exact Finset.single_le_sum (f := fun t : Transition Statement => (p.outOf t.tail).length)
      (fun _ _ => Nat.zero_le _) ht

/-- An interval analysis of a program ends after some passes, whatever the program, the order of the
worklist, and the starts are, and whether summaries are used or not; and there is an answer if it
may take as many passes. -/
theorem finishes_of_intervals (hp : p.Built) (table : LoopTable) (options : Options)
    (starts : List Nat) : ∃ n s, (p.intervals table options).stateAfter starts n = some s ∧
      s.pending = [] ∧ (starts ≠ [] → ∀ budget, n < budget →
        ∃ answer s', (p.intervals table options).run budget starts = .ok answer s') :=
  finishes (hp.coherent rfl rfl) IntervalState.domain_lawful spans_of_intervals
    not_excused_of_intervals starts

/-- Two procedures that call each other, and a loop that can be entered at both of its locations, of
which neither is a header. -/
def tangled : Program Statement := .ofAdditions
  [.procedure "main", .procedure "f", .procedure "g", .node "main", .node "main",
    .internal 0 6 (.assign "x" 0), .internal 0 7 (.assign "x" 1), .internal 6 7 (.add "x" 1),
    .internal 7 6 (.assumeLessThan "x" 3), .call 7 1 "f" .nop, .internal 2 3 .nop,
    .call 2 3 "g" .nop, .internal 4 5 (.add "x" 1), .call 4 5 "f" (.add "x" 1)]

/-- The interval analysis of `tangled` that steps over calls by summaries. -/
def tangledIntervals : Engine Nat (Transition Statement) IntervalState :=
  tangled.intervals (tangled.loopTable.toOption.getD ⟨.empty⟩)
    ⟨1, 1, .lifo, true, Nat.one_pos, Nat.one_pos⟩

set_option maxRecDepth 100000 in
/-- The analysis of `tangled` takes more than a few passes, but not for ever. -/
theorem finishes_of_intervals_tangled : tangled.Built ∧
    (∃ s, tangledIntervals.stateAfter [0] 20 = some s ∧ s.pending ≠ []) ∧
    ∃ n s, tangledIntervals.stateAfter [0] n = some s ∧ s.pending = [] ∧
      ∃ answer s', tangledIntervals.run (n + 1) [0] = .ok answer s' := by
  have hbuilt : tangled.Built := ⟨_, rfl⟩
  have hbusy : (tangledIntervals.stateAfter [0] 20).any (fun s => !s.pending.isEmpty) = true := by
    decide +kernel
  obtain ⟨s₁, hs₁, hpending₁⟩ := (Option.any_eq_true _ _).mp hbusy
  obtain ⟨n, s, hs, hpending, hrun⟩ := finishes_of_intervals hbuilt
    (tangled.loopTable.toOption.getD ⟨.empty⟩) ⟨1, 1, .lifo, true, Nat.one_pos, Nat.one_pos⟩ [0]
  refine ⟨hbuilt, ⟨s₁, hs₁, ?_⟩, n, s, hs, hpending,
    hrun (List.cons_ne_nil _ _) (n + 1) n.lt_succ_self⟩
  rwa [Bool.not_eq_true', List.isEmpty_eq_false_iff] at hpending₁

end Engine

end Interproc
