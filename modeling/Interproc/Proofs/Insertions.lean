/-
  Interproc.Proofs.Insertions
  ───────────────────────────
  What inserting transitions does to a program, if some of them are refused.  A
  transition is refused if one of its ends is no node, or if some transition, of
  whatever kind, connects them already; nothing changes then.  Of several transitions
  that are inserted one after the other, those before the first refusal stay.

  A call inserts three, and checks only its sites and its callee beforehand.  So it is
  not all or nothing: a call whose first transition is admitted and whose second or
  third is not fails with a part of it left behind.

    * `insertAll_cases` — what stays is what was inserted before the first refusal;
    * `call_eq_insertAll` — a call that passes its checks inserts its three transitions.

  Main result: `Program.allOrNothing_iff`, which tells these calls by the program before.
-/
import Mathlib
import Interproc.Proofs.Structure

namespace Interproc

variable {T : Type}

namespace Program

variable {p q r : Program T} {t u : Transition T} {ts us : List (Transition T)} {head tail : Nat}

/-! ## §1. Programs with more transitions. -/

/-- A transition from one node to another may be inserted: both are there, and none connects them
yet. -/
structure Admits (p : Program T) (head tail : Nat) : Prop where
  new : ∀ u, p.transition head tail ≠ .ok u
  head : ∃ node, p.node head = .ok node
  tail : ∃ node, p.node tail = .ok node

/-- The program with one more transition. -/
def withTransition (p : Program T) (t : Transition T) : Program T :=
  { p with graph := p.graph.withEdge t.arc t }

/-- A program gains some transitions, between nodes that no two of them and none before
connected. -/
structure Gains (p : Program T) (ts : List (Transition T)) (q : Program T) : Prop where
  admits : ∀ t ∈ ts, p.Admits t.head t.tail
  distinct : (ts.map Transition.arc).Nodup
  program_eq : q = ts.foldl withTransition p

theorem transition_withTransition (p : Program T) (t : Transition T) (head tail : Nat) :
    (p.withTransition t).transition head tail =
      if head = t.head ∧ tail = t.tail then .ok t else p.transition head tail := by
  have hedges : (p.withTransition t).graph.edges = p.graph.edges.insert t.arc t := rfl
  unfold transition Digraph.edge
  rw [hedges, SortedMap.find?_insert]
  simp only [Transition.arc, Arc.mk.injEq]
  by_cases hends : head = t.head ∧ tail = t.tail
  · rw [if_pos hends, if_pos hends]
  · rw [if_neg hends, if_neg hends]

/-- A transition that was admitted takes the place of none. -/
theorem transition_withTransition_eq_ok (ht : p.Admits t.head t.tail) :
    (p.withTransition t).transition head tail = .ok u ↔
      p.transition head tail = .ok u ∨ u = t ∧ u.head = head ∧ u.tail = tail := by
  rw [transition_withTransition]
  by_cases hends : head = t.head ∧ tail = t.tail
  · obtain ⟨rfl, rfl⟩ := hends
    rw [if_pos ⟨rfl, rfl⟩]
    constructor
    · intro hu
      cases hu
      exact .inr ⟨rfl, rfl, rfl⟩
    · rintro (hu | ⟨rfl, -, -⟩)
      · exact absurd hu (ht.new u)
      · rfl
  · rw [if_neg hends]
    constructor
    · exact .inl
    · rintro (hu | ⟨rfl, hhead, htail⟩)
      · exact hu
      · exact absurd ⟨hhead.symm, htail.symm⟩ hends

/-- One more transition leaves room for all others but one between the same nodes. -/
theorem admits_withTransition : (p.withTransition t).Admits head tail ↔
    p.Admits head tail ∧ ¬(head = t.head ∧ tail = t.tail) := by
  constructor
  · rintro ⟨hnew, hhead, htail⟩
    have hapart : ¬(head = t.head ∧ tail = t.tail) := by
      intro hends
      refine hnew t ?_
      rw [transition_withTransition, if_pos hends]
    refine ⟨⟨fun u hu => hnew u ?_, hhead, htail⟩, hapart⟩
    rw [transition_withTransition, if_neg hapart]
    exact hu
  · rintro ⟨⟨hnew, hhead, htail⟩, hapart⟩
    refine ⟨fun u hu => hnew u ?_, hhead, htail⟩
    rw [transition_withTransition, if_neg hapart] at hu
    exact hu

theorem Gains.nil (p : Program T) : p.Gains [] p := ⟨nofun, List.nodup_nil, rfl⟩

/-- What is gained after a transition was gained with it. -/
theorem Gains.cons (ht : p.Admits t.head t.tail) (h : (p.withTransition t).Gains ts q) :
    p.Gains (t :: ts) q where
  admits := by
    intro u hu
    obtain rfl | hu := List.mem_cons.mp hu
    · exact ht
    · exact (admits_withTransition.mp (h.admits u hu)).1
  distinct := by
    refine List.nodup_cons.mpr ⟨fun hmem => ?_, h.distinct⟩
    obtain ⟨u, hu, harc⟩ := List.mem_map.mp hmem
    refine (admits_withTransition.mp (h.admits u hu)).2 ⟨?_, ?_⟩
    · exact congrArg Arc.head harc
    · exact congrArg Arc.tail harc
  program_eq := h.program_eq

theorem Gains.of_cons (h : p.Gains (t :: ts) q) : (p.withTransition t).Gains ts q where
  admits := by
    intro u hu
    have hapart := (List.nodup_cons.mp h.distinct).1
    refine admits_withTransition.mpr ⟨h.admits u (List.mem_cons_of_mem t hu), ?_⟩
    rintro ⟨hhead, htail⟩
    exact hapart (List.mem_map.mpr ⟨u, hu, congrArg₂ Arc.mk hhead htail⟩)
  distinct := (List.nodup_cons.mp h.distinct).2
  program_eq := h.program_eq

/-- The transitions of a program that gained some are the old ones and those it gained. -/
theorem Gains.transition_iff (h : p.Gains ts q) :
    q.transition head tail = .ok u ↔
      p.transition head tail = .ok u ∨ u ∈ ts ∧ u.head = head ∧ u.tail = tail := by
  induction ts generalizing p with
  | nil =>
    rw [h.program_eq]
    simp
  | cons t ts ih =>
    rw [ih h.of_cons, transition_withTransition_eq_ok (h.admits t List.mem_cons_self),
      List.mem_cons, or_and_right, or_assoc]

/-- Of transitions that can be gained, the first few can be gained alone. -/
theorem Gains.take (h : p.Gains ts q) (n : Nat) : ∃ q', p.Gains (ts.take n) q' :=
  ⟨_, fun t ht => h.admits t (List.mem_of_mem_take ht),
    h.distinct.sublist ((List.take_sublist n ts).map _), rfl⟩

/-- A program that gained a transition is another one. -/
theorem Gains.eq_nil (h : p.Gains ts p) : ts = [] := by
  cases ts with
  | nil => rfl
  | cons t ts =>
    have hthere := h.transition_iff.mpr (.inr ⟨List.mem_cons_self, rfl, rfl⟩)
    exact absurd hthere ((h.admits t List.mem_cons_self).new t)

end Program

/-! ## §2. Insertions up to the first refusal. -/

namespace Build

open Program

variable {p : Program T} {t : Transition T}

/-- Insert transitions, one after the other. -/
def insertAll : List (Transition T) → Build T Unit
  | [] => pure ()
  | t :: ts => do
    insertTransition t
    insertAll ts

theorem hasVertex_iff {n : Nat} : p.graph.hasVertex n = true ↔ ∃ node, p.node n = .ok node := by
  unfold Digraph.hasVertex SortedMap.contains
  rw [Option.isSome_iff_exists]
  simp only [node_eq_ok]

theorem adj_iff {head tail : Nat} :
    p.graph.Adj head tail ↔ ∃ u, p.transition head tail = .ok u := by
  unfold Digraph.Adj SortedMap.contains
  rw [Option.isSome_iff_exists]
  simp only [transition_eq_ok]

theorem insertEdge_eq_ok_iff {graph : Digraph Node (Transition T)} :
    p.graph.insertEdge t.arc t = .ok graph ↔
      p.Admits t.head t.tail ∧ (p.withTransition t).graph = graph := by
  rw [Digraph.insertEdge_eq_ok, hasVertex_iff, hasVertex_iff]
  show ¬p.graph.Adj t.head t.tail ∧ _ ↔ _
  rw [adj_iff, not_exists]
  constructor
  · rintro ⟨hnew, hhead, htail, hgraph⟩
    exact ⟨⟨hnew, hhead, htail⟩, hgraph⟩
  · rintro ⟨⟨hnew, hhead, htail⟩, hgraph⟩
    exact ⟨hnew, hhead, htail, hgraph⟩

/-- A transition that is admitted is inserted. -/
theorem insertTransition_eq_ok (h : p.Admits t.head t.tail) :
    insertTransition t p = .ok () (p.withTransition t) := by
  have hinsert := insertEdge_eq_ok_iff.mpr ⟨h, rfl⟩
  unfold insertTransition changeGraph
  simp only [hinsert]
  rfl

/-- A transition that is not admitted is refused. -/
theorem insertTransition_eq_error (h : ¬p.Admits t.head t.tail) :
    ∃ cause, insertTransition t p = .error cause p := by
  unfold insertTransition changeGraph
  cases hinsert : p.graph.insertEdge t.arc t with
  | error cause => exact ⟨cause, by simp only [hinsert]⟩
  | ok graph => exact absurd (insertEdge_eq_ok_iff.mp hinsert).1 h

/-- Insertions stop at the first refusal: if not all transitions can be gained, as many of them are
gained as can be. -/
theorem insertAll_cases (ts : List (Transition T)) (p : Program T) :
    (∃ q, insertAll ts p = .ok () q ∧ p.Gains ts q) ∨
    ∃ n cause q, n < ts.length ∧ insertAll ts p = .error cause q ∧ p.Gains (ts.take n) q ∧
      ∀ q', ¬p.Gains (ts.take (n + 1)) q' := by
  -- Each insertion changes what the later ones find, so the program is not fixed.
  induction ts generalizing p with
  | nil => exact .inl ⟨p, rfl, .nil p⟩
  | cons t ts ih =>
    by_cases ht : p.Admits t.head t.tail
    · have hstep : insertAll (t :: ts) p = insertAll ts (p.withTransition t) :=
        bind_eq_of_ok (insertTransition_eq_ok ht)
      rw [hstep]
      obtain ⟨q, hok, hgains⟩ | ⟨n, cause, q, hn, herror, hgains, hmost⟩ :=
        ih (p.withTransition t)
      · exact .inl ⟨q, hok, .cons ht hgains⟩
      · exact .inr ⟨n + 1, cause, q, Nat.succ_lt_succ hn, herror, .cons ht hgains,
          fun q' hq' => hmost q' hq'.of_cons⟩
    · obtain ⟨cause, hrefused⟩ := insertTransition_eq_error ht
      refine .inr ⟨0, cause, p, Nat.succ_pos _, bind_eq_of_error hrefused, .nil p, ?_⟩
      exact fun q' hq' => ht (hq'.admits t List.mem_cons_self)

end Build

/-! ## §3. Calls. -/

/-- The transitions of a call: into the procedure, back from it, and over it. -/
def Procedure.callTransitions (x : Procedure) (callSite returnSite : Nat) (statement : T) :
    List (Transition T) :=
  [⟨callSite, x.entry, .call, statement⟩, ⟨x.exit, returnSite, .ret callSite, statement⟩,
    ⟨callSite, returnSite, .summary true, statement⟩]

namespace Build

open Program

variable {p : Program T} {callSite returnSite : Nat} {callee : String} {statement : T}

theorem sameProcedure_eq_ok (h : p.Together callSite returnSite) :
    p.sameProcedure callSite returnSite = .ok () := by
  obtain ⟨name, ⟨m, hm, hmname⟩, n, hn, hnname⟩ := h
  unfold sameProcedure
  rw [hm, hn]
  show (if m.procedure = n.procedure then Except.ok () else _) = _
  rw [if_pos (hmname.trans hnname.symm)]

/-- A call that passes its checks inserts its three transitions. -/
theorem call_eq_insertAll {x : Procedure} (h : p.Together callSite returnSite)
    (hx : p.procedure callee = .ok x) : call callSite returnSite callee statement p =
      insertAll (x.callTransitions callSite returnSite statement) p := by
  have hchecked : call callSite returnSite callee statement p =
      (do insertTransition ⟨callSite, x.entry, .call, statement⟩
          insertTransition ⟨x.exit, returnSite, .ret callSite, statement⟩
          insertTransition ⟨callSite, returnSite, .summary true, statement⟩ : Build T Unit) p :=
    (bind_eq_of_ok (ask_eq_ok (sameProcedure_eq_ok h))).trans (bind_eq_of_ok (ask_eq_ok hx))
  -- The last insertion is followed by nothing, and not by a step that does nothing.
  have hlast : ∀ t : Transition T, insertTransition t = (do insertTransition t; insertAll []) :=
    fun t => (bind_pure (insertTransition t)).symm
  rw [hchecked, hlast ⟨callSite, returnSite, .summary true, statement⟩]
  rfl

/-- A call that does not pass its checks changes nothing. -/
theorem call_eq_error (statement : T)
    (h : ¬(p.Together callSite returnSite ∧ ∃ x, p.procedure callee = .ok x)) :
    ∃ cause, call callSite returnSite callee statement p = .error cause p := by
  cases hsame : p.sameProcedure callSite returnSite with
  | error cause => exact ⟨cause, bind_eq_of_error (ask_eq_error hsame)⟩
  | ok u =>
    cases hx : p.procedure callee with
    | error cause =>
      refine ⟨cause, (bind_eq_of_ok (ask_eq_ok hsame)).trans ?_⟩
      exact bind_eq_of_error (ask_eq_error hx)
    | ok x => exact absurd ⟨together_of_sameProcedure hsame, x, hx⟩ h

end Build

namespace Program

variable {p q : Program T} {callSite returnSite : Nat} {callee : String} {statement : T}

/-- A call is all or nothing: it succeeds and the program gains just its three transitions, or it
fails and the program stays as it is. -/
def AllOrNothing (p : Program T) (callSite returnSite : Nat) (callee : String) (statement : T) :
    Prop :=
  match Build.call callSite returnSite callee statement p with
  | .ok _ q => ∃ x, p.procedure callee = .ok x ∧
      p.Gains (x.callTransitions callSite returnSite statement) q
  | .error _ q => q = p

/-- The three transitions of a call can be gained if each of them is admitted, and no two of them
connect the same nodes. -/
theorem exists_gains_iff {x : Procedure} :
    (∃ q, p.Gains (x.callTransitions callSite returnSite statement) q) ↔
      p.Admits callSite x.entry ∧ p.Admits x.exit returnSite ∧ p.Admits callSite returnSite ∧
        callSite ≠ x.exit ∧ returnSite ≠ x.entry := by
  have hadmits : (∀ t ∈ x.callTransitions callSite returnSite statement,
      p.Admits t.head t.tail) ↔
      p.Admits callSite x.entry ∧ p.Admits x.exit returnSite ∧ p.Admits callSite returnSite := by
    simp [Procedure.callTransitions]
  have hdistinct : ((x.callTransitions callSite returnSite statement).map Transition.arc).Nodup ↔
      callSite ≠ x.exit ∧ returnSite ≠ x.entry := by
    simp only [Procedure.callTransitions, List.map_cons, List.map_nil, Transition.arc,
      List.nodup_cons, List.mem_cons, Arc.mk.injEq, List.not_mem_nil, List.nodup_nil]
    grind
  constructor
  · rintro ⟨q, hq⟩
    obtain ⟨hinto, hback, hover⟩ := hadmits.mp hq.admits
    exact ⟨hinto, hback, hover, hdistinct.mp hq.distinct⟩
  · rintro ⟨hinto, hback, hover, hends⟩
    exact ⟨_, hadmits.mpr ⟨hinto, hback, hover⟩, hdistinct.mpr hends, rfl⟩

/-- All that a call can do: it is refused at once, it is connected, or a part of it is left. -/
theorem call_cases (p : Program T) (callSite returnSite : Nat) (callee : String) (statement : T) :
    (∃ cause, Build.call callSite returnSite callee statement p = .error cause p ∧
      ∀ x, p.Together callSite returnSite → p.procedure callee = .ok x →
        ¬p.Admits callSite x.entry) ∨
    (∃ x q, Build.call callSite returnSite callee statement p = .ok () q ∧
      p.procedure callee = .ok x ∧
      p.Gains (x.callTransitions callSite returnSite statement) q) ∨
    ∃ x cause q n, Build.call callSite returnSite callee statement p = .error cause q ∧
      p.Together callSite returnSite ∧ p.procedure callee = .ok x ∧ 0 < n ∧ n < 3 ∧
      p.Gains ((x.callTransitions callSite returnSite statement).take n) q ∧
      ¬∃ q', p.Gains (x.callTransitions callSite returnSite statement) q' := by
  by_cases hchecked : p.Together callSite returnSite ∧ ∃ x, p.procedure callee = .ok x
  · obtain ⟨htogether, x, hx⟩ := hchecked
    rw [Build.call_eq_insertAll htogether hx]
    obtain ⟨q, hok, hgains⟩ | ⟨n, cause, q, hn, herror, hgains, hmost⟩ :=
      Build.insertAll_cases (x.callTransitions callSite returnSite statement) p
    · exact .inr (.inl ⟨x, q, hok, hx, hgains⟩)
    · cases n with
      | zero =>
        -- Not even the first transition was gained, so it was not admitted.
        rw [hgains.program_eq] at herror
        refine .inl ⟨cause, herror, fun y _ hy hinto => ?_⟩
        cases hx.symm.trans hy
        exact hmost _ (.cons hinto (.nil _))
      | succ n =>
        refine .inr (.inr ⟨x, cause, q, n + 1, herror, htogether, hx, n.succ_pos, hn, hgains, ?_⟩)
        rintro ⟨q', hq'⟩
        obtain ⟨q'', hq''⟩ := hq'.take (n + 2)
        exact hmost q'' hq''
  · obtain ⟨cause, hrefused⟩ := Build.call_eq_error statement hchecked
    exact .inl ⟨cause, hrefused, fun x htogether hx => absurd ⟨htogether, x, hx⟩ hchecked⟩

/-- A call is all or nothing just if it is refused at once, by a check or as its first transition is
not admitted, or if all three transitions are admitted, no two of which may connect the same nodes.
Otherwise it fails, and the first one or two of the transitions are left behind. -/
theorem allOrNothing_iff (p : Program T) (callSite returnSite : Nat) (callee : String)
    (statement : T) :
    (p.AllOrNothing callSite returnSite callee statement ↔
      ∀ x, p.Together callSite returnSite → p.procedure callee = .ok x →
        p.Admits callSite x.entry → p.Admits x.exit returnSite ∧ p.Admits callSite returnSite ∧
          callSite ≠ x.exit ∧ returnSite ≠ x.entry) ∧
    (¬p.AllOrNothing callSite returnSite callee statement →
      ∃ x cause q n, Build.call callSite returnSite callee statement p = .error cause q ∧
        p.procedure callee = .ok x ∧ 0 < n ∧ n < 3 ∧
        p.Gains ((x.callTransitions callSite returnSite statement).take n) q) := by
  obtain ⟨cause, hcall, hrefused⟩ | ⟨x, q, hcall, hx, hgains⟩ |
    ⟨x, cause, q, n, hcall, htogether, hx, hpos, hn, hgains, hnot⟩ :=
    call_cases p callSite returnSite callee statement
  · have hnothing : p.AllOrNothing callSite returnSite callee statement := by
      unfold AllOrNothing
      rw [hcall]
    refine ⟨iff_of_true hnothing fun x htogether hx hinto => ?_, fun h => absurd hnothing h⟩
    exact absurd hinto (hrefused x htogether hx)
  · have hall : p.AllOrNothing callSite returnSite callee statement := by
      unfold AllOrNothing
      rw [hcall]
      exact ⟨x, hx, hgains⟩
    refine ⟨iff_of_true hall fun y _ hy _ => ?_, fun h => absurd hall h⟩
    cases hx.symm.trans hy
    exact (exists_gains_iff.mp ⟨q, hgains⟩).2
  · have hpart : ¬p.AllOrNothing callSite returnSite callee statement := by
      unfold AllOrNothing
      rw [hcall]
      -- A program that stayed as it is has gained nothing, but at least one transition is left.
      rintro rfl
      have hnone := hgains.eq_nil
      rw [List.take_eq_nil_iff] at hnone
      obtain hn | hnil := hnone
      · omega
      · cases hnil
    refine ⟨iff_of_false hpart fun hall => hnot ?_,
      fun _ => ⟨x, cause, q, n, hcall, hx, hpos, hn, hgains⟩⟩
    -- The first transition was gained, so the condition lets all three of them be gained.
    have hinto : p.Admits callSite x.entry := by
      refine hgains.admits ⟨callSite, x.entry, .call, statement⟩ ?_
      obtain ⟨m, rfl⟩ := Nat.exists_eq_succ_of_ne_zero hpos.ne'
      exact List.mem_cons_self
    exact exists_gains_iff.mpr ⟨hinto, hall x htogether hx hinto⟩

/-- Two procedures are called from one node, and both are to return to one node. -/
def sharedSites : Program Nat := .ofAdditions
  [.procedure "main", .procedure "f", .procedure "g", .node "main", .node "main", .call 6 7 "f" 0]

set_option maxRecDepth 100000 in
/-- The second call is refused, as the first one is stepped over between the same nodes.  It stays
possible to enter the second procedure, and to return from it. -/
theorem not_allOrNothing_sharedSites : ¬sharedSites.AllOrNothing 6 7 "g" 1 ∧
    ∃ q, Build.call 6 7 "g" 1 sharedSites = .error .duplicateEdge q ∧
      q.transition 6 4 = .ok ⟨6, 4, .call, 1⟩ ∧ q.transition 5 7 = .ok ⟨5, 7, .ret 6, 1⟩ ∧
      sharedSites.transition 6 4 = .error (.edgeNotFound 6 4) := by
  have hfails : (match Build.call 6 7 "g" 1 sharedSites with
      | .ok _ _ => false
      | .error cause q => decide (cause = .duplicateEdge) &&
          decide (q.transition 6 4 = .ok ⟨6, 4, .call, 1⟩) &&
          decide (q.transition 5 7 = .ok ⟨5, 7, .ret 6, 1⟩)) = true := by
    decide +kernel
  have hbefore : sharedSites.transition 6 4 = .error (.edgeNotFound 6 4) := by decide +kernel
  cases hcall : Build.call 6 7 "g" 1 sharedSites with
  | ok u q =>
    rw [hcall] at hfails
    cases hfails
  | error cause q =>
    rw [hcall] at hfails
    simp only [Bool.and_eq_true, decide_eq_true_eq] at hfails
    obtain ⟨⟨rfl, hinto⟩, hback⟩ := hfails
    refine ⟨?_, q, rfl, hinto, hback, hbefore⟩
    unfold AllOrNothing
    rw [hcall]
    rintro rfl
    cases hbefore.symm.trans hinto

end Program

end Interproc
