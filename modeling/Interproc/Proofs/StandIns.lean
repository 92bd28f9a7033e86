/-
  Interproc.Proofs.StandIns
  ─────────────────────────
  Which transition is found for a call, to step over it.  If no addition failed, each
  call has its return and its own transition over it, and the two end at one node.
  But the transition for a call is looked for by its call site alone: it is the first
  of the transitions that stand for calls from there, by where they end.  If several
  procedures are called from one node, all these calls are stepped over to the lowest
  of their return sites.

    * `Complete` — every call is connected, kept by additions that succeed;
    * `Complete.summaryOf_eq` — the transition found is the one that ends lowest.

  Main result: `Program.findsOwn_iff`.
-/
import Mathlib
import Interproc.Proofs.Insertions

namespace Interproc

variable {T α β : Type}

/-! ## §1. Additions that succeed. -/

/-- Whether a step succeeds. -/
def Build.succeeds (step : Build T α) (p : Program T) : Bool :=
  match step p with
  | .ok _ _ => true
  | .error _ _ => false

/-- Whether an addition succeeds. -/
def Addition.succeeds : Addition T → Program T → Bool
  | .procedure name => (Build.addProcedure name).succeeds
  | .node name => (Build.addNode name).succeeds
  | .errorNode name => (Build.addErrorNode name).succeeds
  | .error index isError => (Build.setError index isError).succeeds
  | .comment index text => (Build.setComment index text).succeeds
  | .internal head tail statement => (Build.internal head tail statement).succeeds
  | .call callSite returnSite callee statement =>
    (Build.call callSite returnSite callee statement).succeeds
  | .externalCall callSite returnSite statement =>
    (Build.externalCall callSite returnSite statement).succeeds

/-- Whether all additions of a sequence succeed, one after the other. -/
def Addition.allSucceed : List (Addition T) → Program T → Bool
  | [], _ => true
  | a :: additions, p => a.succeeds p && allSucceed additions (a.onto p)

namespace Program

variable {p q : Program T} {t u : Transition T} {ts : List (Transition T)} {x : Procedure}
  {callSite returnSite m n : Nat} {name : String}

/-- Programs put together by additions none of which failed. -/
def Completed (p : Program T) : Prop :=
  ∃ additions, Addition.allSucceed additions .empty = true ∧ p = ofAdditions additions

/-! ## §2. Calls stay connected. -/

/-- A call from a node returns to it from a procedure, and is stepped over to where it returns. -/
def Connects (p : Program T) (x : Procedure) (callSite : Nat) : Prop :=
  ∃ returnSite u v, p.transition x.exit returnSite = .ok u ∧ u.kind = .ret callSite ∧
    p.transition callSite returnSite = .ok v ∧ v.kind = .summary true

/-- The structure of a program all of whose calls are connected. -/
structure Complete (p : Program T) : Prop where
  structured : p.Structured
  consistent : p.graph.Consistent
  connects : ∀ name x callSite t, p.procedure name = .ok x →
    p.transition callSite x.entry = .ok t → t.kind = .call → p.Connects x callSite

/-- No transition was added, and the graph was not spoilt. -/
structure Keeps (p q : Program T) : Prop where
  grows : p.Grows q
  edges_eq : q.graph.edges = p.graph.edges
  consistent : p.graph.Consistent → q.graph.Consistent

theorem Keeps.refl (p : Program T) : p.Keeps p := ⟨.refl p, rfl, id⟩

theorem Keeps.trans {r : Program T} (h : p.Keeps q) (h' : q.Keeps r) : p.Keeps r where
  grows := h.grows.trans h'.grows
  edges_eq := h'.edges_eq.trans h.edges_eq
  consistent := fun hp => h'.consistent (h.consistent hp)

theorem keeps_withNode (hp : p.Structured) (name : String) : p.Keeps (p.withNode name) where
  grows := (extends_withNode hp name).grows
  edges_eq := rfl
  consistent := by
    intro hconsistent
    refine hconsistent.withVertex ?_ _
    rw [Bool.eq_false_iff, Ne, Build.hasVertex_iff, ← hp.lt_nextIndex]
    exact lt_irrefl _

theorem keeps_setNode {old node : Node} (hold : p.node n = .ok old)
    (hprocedure : node.procedure = old.procedure) : p.Keeps (p.setNode n node) where
  grows := grows_of_insert (n := n) rfl rfl fun old' hold' => by
    cases hold.symm.trans hold'
    exact hprocedure
  edges_eq := rfl
  consistent := by
    intro hconsistent
    have hset : p.graph.setVertex n node = .ok (p.setNode n node).graph :=
      Digraph.setVertex_eq_ok.mpr ⟨Build.hasVertex_iff.mpr ⟨old, hold⟩, rfl⟩
    have hafter : ((p.graph.setVertex n node).toOption.getD p.graph).Consistent :=
      hconsistent.after (.replacement n node)
    rw [hset] at hafter
    exact hafter

theorem keeps_withProcedure (hnew : p.procedures.find? x.name = none) :
    p.Keeps (p.withProcedure x) where
  grows := by
    refine ⟨fun _ _ hn => hn, fun name y hy => ?_⟩
    rw [procedure_eq_ok] at hy ⊢
    show (p.procedures.insert x.name x).find? name = _
    rw [SortedMap.find?_insert, if_neg]
    · exact hy
    · rintro rfl
      cases hnew.symm.trans hy
  edges_eq := rfl
  consistent := id

/-- Gaining transitions changes neither nodes nor procedures. -/
theorem Gains.grows (h : p.Gains ts q) : p.Grows q := by
  induction ts generalizing p with
  | nil =>
    rw [h.program_eq]
    exact .refl p
  | cons t ts ih =>
    have hstep : p.Grows (p.withTransition t) := grows_of_vertices rfl rfl
    exact hstep.trans (ih h.of_cons)

theorem Gains.toExtends (h : p.Gains ts q) : p.Extends q where
  grows := h.grows
  transition := fun _ _ _ ht => h.transition_iff.mpr (.inl ht)

theorem Gains.consistent (h : p.Gains ts q) (hp : p.graph.Consistent) : q.graph.Consistent := by
  induction ts generalizing p with
  | nil =>
    rw [h.program_eq]
    exact hp
  | cons t ts ih =>
    have ht := h.admits t List.mem_cons_self
    exact ih h.of_cons
      (hp.withEdge (Build.hasVertex_iff.mpr ht.head) (Build.hasVertex_iff.mpr ht.tail) t)

/-- An old call stays connected in a larger program. -/
theorem Complete.connects_of_extends (h : p.Complete) (hq : q.Structured) (hpq : p.Extends q)
    (hx : q.procedure name = .ok x) (ht : p.transition callSite x.entry = .ok t)
    (hcall : t.kind = .call) : q.Connects x callSite := by
  obtain ⟨-, htail, hfits⟩ := h.structured.fits callSite x.entry t ht
  unfold Fits at hfits
  rw [hcall] at hfits
  obtain ⟨name', x', hx', hentry⟩ := hfits
  -- The procedure was there before, as an entry belongs to one procedure only.
  have hgrown := hpq.grows.procedure name' x' hx'
  obtain rfl := hq.procedure_unique hx hgrown (.inl (hentry.trans htail).symm)
  cases hx.symm.trans hgrown
  obtain ⟨returnSite, u, v, hu, hret, hv, hover⟩ := h.connects name x callSite t hx' ht hcall
  exact ⟨returnSite, u, v, hpq.transition _ _ u hu, hret, hpq.transition _ _ v hv, hover⟩

theorem Complete.keeps (h : p.Complete) (hq : q.Structured) (hpq : p.Keeps q) : q.Complete where
  structured := hq
  consistent := hpq.consistent h.consistent
  connects := by
    have htransition : ∀ head tail, q.transition head tail = p.transition head tail := by
      intro head tail
      unfold transition Digraph.edge
      rw [hpq.edges_eq]
    intro name x callSite t hx ht hcall
    rw [htransition] at ht
    refine h.connects_of_extends hq ⟨hpq.grows, fun head tail u hu => ?_⟩ hx ht hcall
    rw [htransition]
    exact hu

/-- A transition that is no call may be gained. -/
theorem Complete.gains_single (h : p.Complete) (hq : q.Structured) (hpq : p.Gains [u] q)
    (hkind : u.kind ≠ .call) : q.Complete where
  structured := hq
  consistent := hpq.consistent h.consistent
  connects := by
    intro name x callSite t hx ht hcall
    obtain ht | ⟨hmem, -⟩ := hpq.transition_iff.mp ht
    · exact h.connects_of_extends hq hpq.toExtends hx ht hcall
    · rw [List.mem_singleton.mp hmem] at hcall
      exact absurd hcall hkind

/-- The three transitions of a call may be gained together. -/
theorem Complete.gains_call {statement : T} (h : p.Complete) (hq : q.Structured)
    (hx : p.procedure name = .ok x)
    (hpq : p.Gains (x.callTransitions callSite returnSite statement) q) : q.Complete where
  structured := hq
  consistent := hpq.consistent h.consistent
  connects := by
    intro name' y site t hy ht hcall
    obtain ht | ⟨hmem, hhead, htail⟩ := hpq.transition_iff.mp ht
    · exact h.connects_of_extends hq hpq.toExtends hy ht hcall
    · have hxq := hpq.toExtends.grows.procedure name x hx
      simp only [Procedure.callTransitions, List.mem_cons, List.not_mem_nil, or_false] at hmem
      obtain rfl | rfl | rfl := hmem
      · -- The new call is connected by the two transitions that came with it.
        obtain rfl := hq.procedure_unique hxq hy (.inl htail)
        cases hxq.symm.trans hy
        cases hhead
        refine ⟨returnSite, ⟨x.exit, returnSite, .ret callSite, statement⟩,
          ⟨callSite, returnSite, .summary true, statement⟩, ?_, rfl, ?_, rfl⟩
        · exact hpq.transition_iff.mpr (.inr ⟨.tail _ (.head _), rfl, rfl⟩)
        · exact hpq.transition_iff.mpr (.inr ⟨.tail _ (.tail _ (.head _)), rfl, rfl⟩)
      · cases hcall
      · cases hcall

end Program

namespace Build

open Program

variable {p q : Program T} {t : Transition T} {step : Build T α} {name : String}

theorem keeps_addNode (hp : p.Structured) (name : String) : p.Keeps ((addNode name).after p) := by
  unfold after
  cases hx : p.procedure name with
  | error cause =>
    rw [addNode_eq_error hx]
    exact .refl p
  | ok x =>
    rw [addNode_eq hp hx]
    exact keeps_withNode hp name

theorem keeps_addErrorNode (hp : p.Structured) (name : String) :
    p.Keeps ((addErrorNode name).after p) := by
  unfold after
  cases hx : p.procedure name with
  | error cause =>
    rw [addErrorNode_eq_error hx]
    exact .refl p
  | ok x =>
    rw [addErrorNode_eq hp hx]
    exact (keeps_withNode hp name).trans (keeps_setNode (node_withNode p name) rfl)

theorem keeps_changeNode (n : Nat) {change : Node → Node}
    (hchange : ∀ node, (change node).procedure = node.procedure) :
    p.Keeps ((changeNode n change).after p) := by
  unfold after
  cases hnode : p.node n with
  | error cause =>
    rw [changeNode_eq_error hnode]
    exact .refl p
  | ok node =>
    rw [changeNode_eq hnode]
    exact keeps_setNode hnode (hchange node)

theorem keeps_addProcedure (hp : p.Structured) (name : String) :
    p.Keeps ((addProcedure name).after p) := by
  unfold after
  cases hnew : p.procedures.find? name with
  | some x =>
    rw [addProcedure_eq_error (by simp [SortedMap.contains, hnew])]
    exact .refl p
  | none =>
    rw [addProcedure_eq hp hnew]
    have hnodes := (keeps_withNode hp name).trans (keeps_withNode (hp.withNode name) name)
    exact hnodes.trans (keeps_withProcedure hnew)

theorem succeeds_bind (step : Build T α) (next : α → Build T β) (p : Program T) :
    (step >>= next).succeeds p = match step p with
      | .ok a q => (next a).succeeds q
      | .error _ _ => false := by
  unfold succeeds
  show (match EStateM.bind step next p with
    | .ok _ _ => true
    | .error _ _ => false) = _
  unfold EStateM.bind
  cases step p <;> rfl

theorem gains_insertTransition (h : (insertTransition t).succeeds p = true) :
    p.Gains [t] ((insertTransition t).after p) := by
  unfold succeeds at h
  unfold after
  by_cases ht : p.Admits t.head t.tail
  · rw [insertTransition_eq_ok ht]
    exact .cons ht (.nil _)
  · obtain ⟨cause, hrefused⟩ := insertTransition_eq_error ht
    rw [hrefused] at h
    cases h

/-- A transition between nodes that were checked is gained, if it is not refused. -/
theorem gains_checked (h : (do ask fun p => p.sameProcedure t.head t.tail
                               insertTransition t : Build T Unit).succeeds p = true) :
    p.Gains [t] ((do ask fun p => p.sameProcedure t.head t.tail
                     insertTransition t : Build T Unit).after p) := by
  rw [succeeds_bind] at h
  rw [after_bind]
  cases hsame : p.sameProcedure t.head t.tail with
  | error cause =>
    rw [ask_eq_error hsame] at h
    cases h
  | ok u =>
    rw [ask_eq_ok hsame] at h ⊢
    exact gains_insertTransition h

end Build

namespace Program

variable {p : Program T} {t u : Transition T} {x : Procedure} {callSite returnSite m n : Nat}
  {name : String}

/-- Additions that succeed leave no call unconnected. -/
theorem Complete.onto (h : p.Complete) (a : Addition T) (ha : a.succeeds p = true) :
    (a.onto p).Complete := by
  have hstructured := h.structured.onto a
  cases a with
  | procedure name => exact h.keeps hstructured (Build.keeps_addProcedure h.structured name)
  | node name => exact h.keeps hstructured (Build.keeps_addNode h.structured name)
  | errorNode name => exact h.keeps hstructured (Build.keeps_addErrorNode h.structured name)
  | error index isError => exact h.keeps hstructured (Build.keeps_changeNode index fun _ => rfl)
  | comment index text => exact h.keeps hstructured (Build.keeps_changeNode index fun _ => rfl)
  | internal head tail statement =>
    refine h.gains_single (u := ⟨head, tail, .internal, statement⟩) hstructured ?_ nofun
    exact Build.gains_checked ha
  | externalCall callSite returnSite statement =>
    refine h.gains_single (u := ⟨callSite, returnSite, .summary false, statement⟩) hstructured ?_
      nofun
    exact Build.gains_checked ha
  | call callSite returnSite callee statement =>
    change (Build.call callSite returnSite callee statement).succeeds p = true at ha
    change ((Build.call callSite returnSite callee statement).after p).Structured at hstructured
    show ((Build.call callSite returnSite callee statement).after p).Complete
    unfold Build.succeeds at ha
    unfold Build.after at hstructured ⊢
    obtain ⟨cause, hcall, -⟩ | ⟨x, q, hcall, hx, hgains⟩ | ⟨x, cause, q, n, hcall, -⟩ :=
      call_cases p callSite returnSite callee statement
    · rw [hcall] at ha
      cases ha
    · rw [hcall] at hstructured ⊢
      exact h.gains_call hstructured hx hgains
    · rw [hcall] at ha
      cases ha

theorem Complete.foldl (h : p.Complete) (additions : List (Addition T))
    (hall : Addition.allSucceed additions p = true) :
    (additions.foldl (fun p a => a.onto p) p).Complete := by
  induction additions generalizing p with
  | nil => exact h
  | cons a additions ih =>
    unfold Addition.allSucceed at hall
    rw [Bool.and_eq_true] at hall
    exact ih (h.onto a hall.1) hall.2

theorem Completed.complete (h : p.Completed) : p.Complete := by
  obtain ⟨additions, hall, rfl⟩ := h
  refine Complete.foldl ⟨structured_ofAdditions [], Digraph.consistent_empty, ?_⟩ additions hall
  intro name x callSite t hx
  cases hx

/-! ## §3. What is found for a call. -/

/-- The transitions out of a node are those that start there. -/
theorem Complete.mem_outOf (h : p.Complete) : t ∈ p.outOf n ↔ p.transition n t.tail = .ok t := by
  constructor
  · intro ht
    obtain ⟨tail, hfind⟩ := find?_of_outOf ht
    have htransition := transition_eq_ok.mpr hfind
    rw [(h.structured.fits n tail t htransition).2.1]
    exact htransition
  · intro ht
    have hmem : t.tail ∈ p.graph.successorsOf n :=
      h.consistent.mem_successorsOf.mpr (Build.adj_iff.mpr ⟨t, ht⟩)
    unfold Digraph.successorsOf at hmem
    unfold outOf Digraph.edgesOut
    cases hsuccessors : p.graph.successors.find? n with
    | none => simp [hsuccessors] at hmem
    | some tails =>
      rw [hsuccessors] at hmem
      exact List.mem_filterMap.mpr ⟨t.tail, hmem, transition_eq_ok.mp ht⟩

/-- They are listed by where they end. -/
theorem Complete.outOf_increasing (h : p.Complete) (n : Nat) :
    (p.outOf n).Pairwise fun t u => t.tail < u.tail := by
  have htail : ∀ m t, p.graph.edges.find? ⟨n, m⟩ = some t → t.tail = m := fun m t ht =>
    (h.structured.fits n m t (transition_eq_ok.mpr ht)).2.1
  unfold outOf Digraph.edgesOut
  cases p.graph.successors.find? n with
  | none => exact .nil
  | some tails =>
    refine tails.increasing.filterMap _ fun m m' hlt t ht t' ht' => ?_
    rw [htail m t ht, htail m' t' ht']
    exact Nat.compare_eq_lt.mp hlt

/-- The transition found for a call from a node is the one that ends lowest, of all that stand for
calls from there. -/
theorem Complete.summaryOf_eq (h : p.Complete) (ht : t.head = callSite) (hcall : t.kind = .call)
    (hu : p.transition callSite n = .ok u) (hover : u.kind = .summary true) :
    ∃ standIn, p.summaryOf t = some standIn ∧ standIn.kind = .summary true ∧
      p.transition callSite standIn.tail = .ok standIn ∧
      ∀ m v, p.transition callSite m = .ok v → v.kind = .summary true → standIn.tail ≤ m := by
  have hlisted : ∀ m v, p.transition callSite m = .ok v → v ∈ p.outOf callSite ∧ v.tail = m := by
    intro m v hv
    have htail := (h.structured.fits callSite m v hv).2.1
    exact ⟨h.mem_outOf.mpr (htail.symm ▸ hv), htail⟩
  have hfinds : p.summaryOf t = (p.outOf callSite).find? Transition.standsForCall := by
    unfold summaryOf
    rw [if_pos (by simp [Transition.isCall, hcall]), ht]
  have hsome : ((p.outOf callSite).find? Transition.standsForCall).isSome = true :=
    List.find?_isSome.mpr ⟨u, (hlisted n u hu).1, by simp [Transition.standsForCall, hover]⟩
  obtain ⟨standIn, hstandIn⟩ := Option.isSome_iff_exists.mp hsome
  obtain ⟨hkind, before, after, hsplit, hbefore⟩ := List.find?_eq_some_iff_append.mp hstandIn
  have hmem : standIn ∈ p.outOf callSite := List.mem_of_find?_eq_some hstandIn
  refine ⟨standIn, hfinds.trans hstandIn, by simpa [Transition.standsForCall] using hkind,
    h.mem_outOf.mp hmem, fun m v hv hstands => ?_⟩
  -- None of those before the one found stands for a call, and those after it end higher.
  obtain ⟨hmem', rfl⟩ := hlisted m v hv
  have hsorted := h.outOf_increasing callSite
  rw [hsplit] at hmem' hsorted
  obtain hmem' | hmem' := List.mem_append.mp hmem'
  · have hnot := hbefore v hmem'
    simp [Transition.standsForCall, hstands] at hnot
  · obtain rfl | hmem' := List.mem_cons.mp hmem'
    · exact le_rfl
    · have hlater := (List.pairwise_cons.mp (List.pairwise_append.mp hsorted).2.1).1
      exact (hlater v hmem').le

/-- Calls from a node return to just those nodes to which they are stepped over. -/
theorem Complete.returns_iff (h : p.Complete) :
    (∃ exit u, p.transition exit m = .ok u ∧ u.kind = .ret callSite) ↔
      ∃ v, p.transition callSite m = .ok v ∧ v.kind = .summary true := by
  constructor
  · rintro ⟨exit, u, hu, hret⟩
    obtain ⟨hhead, -, hfits⟩ := h.structured.fits exit m u hu
    unfold Fits at hfits
    rw [hret] at hfits
    obtain ⟨-, name, x, call, hx, hexit, htransition, hcall⟩ := hfits
    obtain ⟨returnSite, u', v, hu', hret', hv, hover⟩ :=
      h.connects name x callSite call hx htransition hcall
    rw [hexit, hhead] at hu'
    -- An exit has one return to a call site, so this is the one the call is connected by.
    obtain rfl := h.structured.returnsOnce exit callSite m returnSite u u' hu hu' hret hret'
    exact ⟨v, hv, hover⟩
  · rintro ⟨v, hv, hover⟩
    obtain ⟨rfl, rfl, hfits⟩ := h.structured.fits callSite m v hv
    unfold Fits at hfits
    rw [hover] at hfits
    obtain ⟨-, name, x, call, u, -, -, -, hu, hret⟩ := hfits
    exact ⟨x.exit, u, hu, hret⟩

/-- What is found for a call of a procedure is its own: it stands for a call from the same node, and
ends where the call returns to. -/
def FindsOwn (p : Program T) (x : Procedure) (t : Transition T) : Prop :=
  ∃ standIn u, p.summaryOf t = some standIn ∧ standIn.kind = .summary true ∧
    standIn.head = t.head ∧ p.transition x.exit standIn.tail = .ok u ∧ u.kind = .ret t.head

/-- In a program none of whose additions failed, a call from a node to the entry of a procedure has
one return, from the exit of the procedure, and some transition is found for it, which stands for a
call from that node.  It is the call's own just if no call from that node, to whatever procedure,
returns to a lower node. -/
theorem findsOwn_iff (hp : p.Completed) (hx : p.procedure name = .ok x)
    (ht : p.transition callSite x.entry = .ok t) (hcall : t.kind = .call) :
    ∃ returnSite u standIn, p.transition x.exit returnSite = .ok u ∧ u.kind = .ret callSite ∧
      (∀ m v, p.transition x.exit m = .ok v → v.kind = .ret callSite → m = returnSite) ∧
      p.summaryOf t = some standIn ∧ standIn.kind = .summary true ∧ standIn.head = callSite ∧
      (p.FindsOwn x t ↔ ∀ exit m v, p.transition exit m = .ok v → v.kind = .ret callSite →
        returnSite ≤ m) := by
  have h := hp.complete
  obtain ⟨hhead, -, -⟩ := h.structured.fits callSite x.entry t ht
  obtain ⟨returnSite, u, v, hu, hret, hv, hover⟩ := h.connects name x callSite t hx ht hcall
  obtain ⟨standIn, hfound, hstands, hstandIn, hleast⟩ := h.summaryOf_eq hhead hcall hv hover
  have hsite := (h.structured.fits callSite standIn.tail standIn hstandIn).1
  have honce : ∀ m v, p.transition x.exit m = .ok v → v.kind = .ret callSite → m = returnSite :=
    fun m w hw hwret => h.structured.returnsOnce x.exit callSite m returnSite w u hw hu hwret hret
  refine ⟨returnSite, u, standIn, hu, hret, honce, hfound, hstands, hsite, ?_⟩
  constructor
  · -- What is found ends lowest, and where it ends the call returns to.
    rintro ⟨standIn', w, hfound', -, -, hw, hwret⟩ exit m w' hw' hwret'
    cases hfound.symm.trans hfound'
    rw [← honce _ w hw (hhead ▸ hwret)]
    obtain ⟨v', hv', hover'⟩ := h.returns_iff.mp ⟨exit, w', hw', hwret'⟩
    exact hleast m v' hv' hover'
  · -- Where what is found ends, some call from the node returns to, so it cannot end lower.
    intro hlowest
    obtain ⟨exit, w, hw, hwret⟩ := h.returns_iff.mpr ⟨standIn, hstandIn, hstands⟩
    have hends : standIn.tail = returnSite :=
      le_antisymm (hleast returnSite v hv hover) (hlowest exit _ w hw hwret)
    refine ⟨standIn, u, hfound, hstands, hsite.trans hhead.symm, ?_, ?_⟩
    · rw [hends]
      exact hu
    · rw [hhead]
      exact hret

/-- Two procedures are called from one node, and return to two nodes. -/
def forking : Program Nat := .ofAdditions
  [.procedure "main", .procedure "f", .procedure "g", .node "main", .node "main", .node "main",
    .call 6 7 "f" 0, .call 6 8 "g" 1]

set_option maxRecDepth 100000 in
theorem forking_completed : forking.Completed := ⟨_, by decide +kernel, rfl⟩

set_option maxRecDepth 100000 in
/-- The call that returns to the lower node is stepped over as it should be. -/
theorem findsOwn_iff_forking : forking.Completed ∧ forking.procedure "f" = .ok ⟨"f", 2, 3⟩ ∧
    forking.transition 6 2 = .ok ⟨6, 2, .call, 0⟩ ∧
    forking.FindsOwn ⟨"f", 2, 3⟩ ⟨6, 2, .call, 0⟩ := by
  have hf : forking.procedure "f" = .ok ⟨"f", 2, 3⟩ := by decide +kernel
  have hcall : forking.transition 6 2 = .ok ⟨6, 2, .call, 0⟩ := by decide +kernel
  have hreturn : forking.transition 3 7 = .ok ⟨3, 7, .ret 6, 0⟩ := by decide +kernel
  have hlowest : ∀ v ∈ forking.allTransitions, v.kind = .ret 6 → 7 ≤ v.tail := by decide +kernel
  obtain ⟨returnSite, -, -, -, -, honce, -, -, -, hown⟩ :=
    findsOwn_iff forking_completed hf hcall rfl
  obtain rfl := honce 7 _ hreturn rfl
  refine ⟨forking_completed, hf, hcall, hown.mpr fun exit m v hv hret => ?_⟩
  obtain ⟨-, rfl, -⟩ := forking_completed.complete.structured.fits exit m v hv
  exact hlowest v (SortedMap.mem_values.mpr ⟨_, transition_eq_ok.mp hv⟩) hret

set_option maxRecDepth 100000 in
/-- The other one returns to node 8, but is stepped over to node 7. -/
theorem not_findsOwn_forking : forking.Completed ∧ forking.procedure "g" = .ok ⟨"g", 4, 5⟩ ∧
    forking.transition 6 4 = .ok ⟨6, 4, .call, 1⟩ ∧ forking.transition 5 8 = .ok ⟨5, 8, .ret 6, 1⟩ ∧
    forking.summaryOf ⟨6, 4, .call, 1⟩ = some ⟨6, 7, .summary true, 0⟩ ∧
    ¬forking.FindsOwn ⟨"g", 4, 5⟩ ⟨6, 4, .call, 1⟩ := by
  have hfound : forking.summaryOf ⟨6, 4, .call, 1⟩ = some ⟨6, 7, .summary true, 0⟩ := by
    decide +kernel
  refine ⟨forking_completed, by decide +kernel, by decide +kernel, by decide +kernel, hfound, ?_⟩
  rintro ⟨standIn, u, hstandIn, -, -, hu, -⟩
  cases hfound.symm.trans hstandIn
  have hnone : forking.transition 5 7 = .error (.edgeNotFound 5 7) := by decide +kernel
  cases hnone.symm.trans hu

end Program

end Interproc
