/-
  Interproc.Proofs.Structure
  ──────────────────────────
  The structure of programs that are put together by additions, some of which may
  fail.  Two nodes are connected by at most one transition, whatever its kind.  So
  the three transitions of a call may be refused one by one, if a procedure calls
  itself, or if a call site is an entry or an exit.  The first two of them stay when
  the third one is refused; still, a return is never there without its call, nor the
  transition over a call without both.

    * `Fits` — what a transition of each kind relies on;
    * `Structured` — the structure of a program, kept by every addition.

  Main result: `Program.structured_ofAdditions`.
-/
import Mathlib
import Interproc.Proofs.Wiring

namespace Interproc

variable {T α β : Type}

namespace Program

/-! ## §1. Structure. -/

/-- What a transition relies on, depending on its kind. -/
def Fits (p : Program T) (t : Transition T) : Prop :=
  match t.kind with
  | .internal => p.Together t.head t.tail
  | .call => ∃ name x, p.procedure name = .ok x ∧ x.entry = t.tail
  | .ret callSite => p.Together callSite t.tail ∧ ∃ name x u, p.procedure name = .ok x ∧
      x.exit = t.head ∧ p.transition callSite x.entry = .ok u ∧ u.kind = .call
  | .summary false => p.Together t.head t.tail
  | .summary true => p.Together t.head t.tail ∧ ∃ name x u v, p.procedure name = .ok x ∧
      p.transition t.head x.entry = .ok u ∧ u.kind = .call ∧
      p.transition x.exit t.tail = .ok v ∧ v.kind = .ret t.head

/-- The structure of a program. -/
structure Structured (p : Program T) : Prop where
  /-- The nodes are numbered without gaps. -/
  lt_nextIndex : ∀ n, n < p.nextIndex ↔ ∃ node, p.node n = .ok node
  index_eq : ∀ n node, p.node n = .ok node → node.index = n
  /-- Entries and exits are nodes of their procedures. -/
  ends : ∀ name x, p.procedure name = .ok x →
    x.name = name ∧ x.entry ≠ x.exit ∧ p.Belongs x.entry name ∧ p.Belongs x.exit name
  /-- Transitions are where they say, and what they rely on is there. -/
  fits : ∀ head tail t, p.transition head tail = .ok t →
    t.head = head ∧ t.tail = tail ∧ p.Fits t
  /-- A call site is returned to at most once from each exit. -/
  returnsOnce : ∀ exit callSite m n t u, p.transition exit m = .ok t → p.transition exit n = .ok u →
    t.kind = .ret callSite → u.kind = .ret callSite → m = n

variable {p q : Program T} {t : Transition T} {n head tail : Nat} {name : String}

theorem transition_eq_ok :
    p.transition head tail = .ok t ↔ p.graph.edges.find? ⟨head, tail⟩ = some t := by
  unfold transition Digraph.edge
  cases p.graph.edges.find? ⟨head, tail⟩ <;> simp

/-- Nodes keep their procedures, and procedures and transitions stay. -/
structure Extends (p q : Program T) : Prop where
  grows : p.Grows q
  transition : ∀ head tail t, p.transition head tail = .ok t → q.transition head tail = .ok t

theorem Fits.mono (h : p.Fits t) (hpq : p.Extends q) : q.Fits t := by
  unfold Fits at h ⊢
  generalize t.kind = kind at h ⊢
  cases kind with
  | internal => exact Together.mono h hpq.grows
  | call =>
    obtain ⟨name, x, hx, htail⟩ := h
    exact ⟨name, x, hpq.grows.procedure name x hx, htail⟩
  | ret callSite =>
    obtain ⟨htogether, name, x, u, hx, hexit, hu, hcall⟩ := h
    exact ⟨htogether.mono hpq.grows, name, x, u, hpq.grows.procedure name x hx, hexit,
      hpq.transition _ _ u hu, hcall⟩
  | summary hasImplementation =>
    cases hasImplementation with
    | false => exact Together.mono h hpq.grows
    | true =>
      obtain ⟨htogether, name, x, u, v, hx, hu, hcall, hv, hreturns⟩ := h
      exact ⟨htogether.mono hpq.grows, name, x, u, v, hpq.grows.procedure name x hx,
        hpq.transition _ _ u hu, hcall, hpq.transition _ _ v hv, hreturns⟩

/-- Two procedures with a common entry or exit are one procedure. -/
theorem Structured.procedure_unique (h : p.Structured) {name' : String} {x x' : Procedure}
    (hx : p.procedure name = .ok x) (hx' : p.procedure name' = .ok x')
    (hshared : x.entry = x'.entry ∨ x.entry = x'.exit ∨ x.exit = x'.exit) : name = name' := by
  obtain ⟨-, -, hentry, hexit⟩ := h.ends name x hx
  obtain ⟨-, -, hentry', hexit'⟩ := h.ends name' x' hx'
  obtain heq | heq | heq := hshared
  · exact (heq ▸ hentry).unique hentry'
  · exact (heq ▸ hentry).unique hexit'
  · exact (heq ▸ hexit).unique hexit'

theorem Structured.ends_of_extends (h : p.Structured) (hpq : p.Extends q)
    (hprocedures : q.procedures = p.procedures) : ∀ name x, q.procedure name = .ok x →
      x.name = name ∧ x.entry ≠ x.exit ∧ q.Belongs x.entry name ∧ q.Belongs x.exit name := by
  intro name x hx
  rw [procedure_eq_ok, hprocedures, ← procedure_eq_ok] at hx
  obtain ⟨hname, hne, hentry, hexit⟩ := h.ends name x hx
  exact ⟨hname, hne, hpq.grows.belongs _ _ hentry, hpq.grows.belongs _ _ hexit⟩

/-- An old transition finds what it relies on in a larger program, too. -/
theorem Structured.fits_of_extends (h : p.Structured) (hpq : p.Extends q)
    (ht : p.transition head tail = .ok t) : t.head = head ∧ t.tail = tail ∧ q.Fits t := by
  obtain ⟨hhead, htail, hfits⟩ := h.fits head tail t ht
  exact ⟨hhead, htail, hfits.mono hpq⟩

/-! ## §2. Nodes and procedures. -/

/-- The program with one more node. -/
def withNode (p : Program T) (name : String) : Program T :=
  { p with
    nextIndex := p.nextIndex + 1
    graph :=
      { p.graph with
        vertices := p.graph.vertices.insert p.nextIndex ⟨p.nextIndex, name, false, none⟩
        successors := p.graph.successors.insert p.nextIndex .empty
        predecessors := p.graph.predecessors.insert p.nextIndex .empty } }

/-- The program with another node at an index. -/
def setNode (p : Program T) (n : Nat) (node : Node) : Program T :=
  { p with graph := { p.graph with vertices := p.graph.vertices.insert n node } }

/-- The program with one more procedure. -/
def withProcedure (p : Program T) (x : Procedure) : Program T :=
  { p with procedures := p.procedures.insert x.name x }

theorem node_insert {node : Node} (hvertices : q.graph.vertices = p.graph.vertices.insert n node)
    (m : Nat) : q.node m = if m = n then .ok node else p.node m := by
  unfold Program.node Digraph.vertex
  rw [hvertices, SortedMap.find?_insert]
  by_cases hm : m = n
  · simp [hm]
  · simp [hm]

theorem extends_withNode (h : p.Structured) (name : String) : p.Extends (p.withNode name) where
  grows := grows_of_insert (n := p.nextIndex) rfl rfl fun old hold =>
    absurd ((h.lt_nextIndex _).mpr ⟨old, hold⟩) (lt_irrefl _)
  transition := fun _ _ _ ht => ht

theorem Structured.withNode (h : p.Structured) (name : String) :
    (p.withNode name).Structured := by
  have hnode : ∀ m, (p.withNode name).node m =
      if m = p.nextIndex then .ok ⟨p.nextIndex, name, false, none⟩ else p.node m :=
    node_insert rfl
  have hextends := extends_withNode h name
  constructor
  case lt_nextIndex =>
    intro m
    show m < p.nextIndex + 1 ↔ _
    rw [hnode]
    split
    · rename_i hm
      simp [hm]
    · rename_i hm
      rw [← h.lt_nextIndex]
      omega
  case index_eq =>
    intro m node hm
    rw [hnode] at hm
    split at hm
    · rename_i heq
      cases hm
      exact heq.symm
    · exact h.index_eq m node hm
  case ends => exact h.ends_of_extends hextends rfl
  case fits => exact fun head tail t ht => h.fits_of_extends hextends ht
  case returnsOnce => exact h.returnsOnce

theorem Structured.setNode (h : p.Structured) {old node : Node} (hold : p.node n = .ok old)
    (hindex : node.index = old.index) (hprocedure : node.procedure = old.procedure) :
    (p.setNode n node).Structured := by
  have hnode : ∀ m, (p.setNode n node).node m = if m = n then .ok node else p.node m :=
    node_insert rfl
  have hextends : p.Extends (p.setNode n node) := by
    refine ⟨grows_of_insert (n := n) rfl rfl fun old' hold' => ?_, fun _ _ _ ht => ht⟩
    rw [hold] at hold'
    cases hold'
    exact hprocedure
  constructor
  case lt_nextIndex =>
    intro m
    show m < p.nextIndex ↔ _
    rw [h.lt_nextIndex, hnode]
    split
    · rename_i hm
      simp [hm, hold]
    · rfl
  case index_eq =>
    intro m node' hm
    rw [hnode] at hm
    split at hm
    · rename_i heq
      cases hm
      rw [heq, hindex]
      exact h.index_eq n old hold
    · exact h.index_eq m node' hm
  case ends => exact h.ends_of_extends hextends rfl
  case fits => exact fun head tail t ht => h.fits_of_extends hextends ht
  case returnsOnce => exact h.returnsOnce

/-- A procedure is added with an entry and an exit of its own. -/
theorem Structured.withProcedure (h : p.Structured) {x : Procedure}
    (hnew : p.procedures.find? x.name = none) (hne : x.entry ≠ x.exit)
    (hentry : p.Belongs x.entry x.name) (hexit : p.Belongs x.exit x.name) :
    (p.withProcedure x).Structured := by
  have hprocedure : ∀ name y, (p.withProcedure x).procedure name = .ok y ↔
      if name = x.name then y = x else p.procedure name = .ok y := by
    intro name y
    rw [procedure_eq_ok, procedure_eq_ok]
    show (p.procedures.insert x.name x).find? name = some y ↔ _
    rw [SortedMap.find?_insert]
    split
    · simp [eq_comm]
    · rfl
  have hextends : p.Extends (p.withProcedure x) := by
    refine ⟨⟨fun _ _ hn => hn, fun name y hy => ?_⟩, fun _ _ _ ht => ht⟩
    rw [hprocedure, if_neg]
    · exact hy
    · rintro rfl
      rw [procedure_eq_ok, hnew] at hy
      cases hy
  refine ⟨h.lt_nextIndex, h.index_eq, ?_, ?_, h.returnsOnce⟩
  · intro name y hy
    rw [hprocedure] at hy
    split at hy
    · rename_i hname
      rw [hy, hname]
      exact ⟨rfl, hne, hentry, hexit⟩
    · exact h.ends name y hy
  · exact fun head tail t ht => h.fits_of_extends hextends ht

/-! ## §3. Transitions. -/

/-- A transition was added where there was none. -/
structure Adds (p : Program T) (t : Transition T) (q : Program T) : Prop where
  new : ∀ u, p.transition t.head t.tail ≠ .ok u
  transition_iff : ∀ head tail u, q.transition head tail = .ok u ↔
    if head = t.head ∧ tail = t.tail then u = t else p.transition head tail = .ok u
  nextIndex_eq : q.nextIndex = p.nextIndex
  vertices_eq : q.graph.vertices = p.graph.vertices
  procedures_eq : q.procedures = p.procedures

theorem Adds.toExtends (h : p.Adds t q) : p.Extends q where
  grows := grows_of_vertices h.vertices_eq h.procedures_eq
  transition := by
    intro head tail u hu
    rw [h.transition_iff, if_neg]
    · exact hu
    · rintro ⟨rfl, rfl⟩
      exact h.new u hu

/-- The new transition is there. -/
theorem Adds.self (h : p.Adds t q) : q.transition t.head t.tail = .ok t :=
  (h.transition_iff _ _ t).mpr (by simp)

/-- A transition may be added if what it relies on is there, and if it is not a second return to its
call site. -/
theorem Structured.adds (h : p.Structured) (hadds : p.Adds t q) (hfits : p.Fits t)
    (honce : ∀ callSite m u, t.kind = .ret callSite → p.transition t.head m = .ok u →
      u.kind ≠ .ret callSite) : q.Structured := by
  have hextends := hadds.toExtends
  have hnode : ∀ m, q.node m = p.node m := by
    intro m
    unfold Program.node Digraph.vertex
    rw [hadds.vertices_eq]
  constructor
  case lt_nextIndex =>
    intro m
    rw [hadds.nextIndex_eq, hnode]
    exact h.lt_nextIndex m
  case index_eq =>
    intro m node hm
    rw [hnode] at hm
    exact h.index_eq m node hm
  case ends => exact h.ends_of_extends hextends hadds.procedures_eq
  case fits =>
    intro head tail u hu
    rw [hadds.transition_iff] at hu
    split at hu
    · rename_i harc
      rw [hu]
      exact ⟨harc.1.symm, harc.2.symm, hfits.mono hextends⟩
    · exact h.fits_of_extends hextends hu
  case returnsOnce =>
    intro exit callSite m n u v hu hv hkind hkind'
    rw [hadds.transition_iff] at hu hv
    -- Two returns to one call site: both are new, one of them is, or none.
    split at hu <;> split at hv
    · rename_i harc harc'
      exact harc.2.trans harc'.2.symm
    · rename_i harc _
      rw [hu] at hkind
      exact absurd hkind' (honce callSite n v hkind (harc.1 ▸ hv))
    · rename_i _ harc
      rw [hv] at hkind'
      exact absurd hkind (honce callSite m u hkind' (harc.1 ▸ hu))
    · exact h.returnsOnce exit callSite m n u v hu hv hkind hkind'

/-- There is no return to a call site before its call is there. -/
theorem Structured.not_ret_of_not_call (h : p.Structured) {x : Procedure} {callSite m : Nat}
    {u : Transition T} (hx : p.procedure name = .ok x)
    (hcall : ∀ u, p.transition callSite x.entry ≠ .ok u) (hu : p.transition x.exit m = .ok u) :
    u.kind ≠ .ret callSite := by
  intro hkind
  obtain ⟨hhead, -, hfits⟩ := h.fits x.exit m u hu
  unfold Fits at hfits
  rw [hkind] at hfits
  obtain ⟨-, name', x', v, hx', hexit, hv, -⟩ := hfits
  -- The return starts at the exit of one procedure only, so the call that it needs is this one.
  have hname := h.procedure_unique hx hx' (.inr (.inr (hexit.trans hhead).symm))
  subst hname
  rw [hx] at hx'
  cases hx'
  exact hcall v hv

end Program

/-! ## §4. Additions. -/

namespace Build

open Program

variable {p q : Program T} {t : Transition T} {name : String}

theorem after_bind (step : Build T α) (next : α → Build T β) (p : Program T) :
    (step >>= next).after p = match step p with
      | .ok a q => (next a).after q
      | .error _ q => q := by
  unfold Build.after
  show (match EStateM.bind step next p with
    | .ok _ p' => p'
    | .error _ p' => p') = _
  unfold EStateM.bind
  cases step p <;> rfl

theorem bind_eq_of_ok {step : Build T α} {next : α → Build T β} {a : α} (h : step p = .ok a q) :
    (step >>= next) p = next a q := by
  show EStateM.bind step next p = _
  unfold EStateM.bind
  rw [h]

theorem bind_eq_of_error {step : Build T α} {next : α → Build T β} {cause : Error}
    (h : step p = .error cause q) : (step >>= next) p = .error cause q := by
  show EStateM.bind step next p = _
  unfold EStateM.bind
  rw [h]

theorem ask_eq_ok {question : Program T → Except Error α} {a : α} (h : question p = .ok a) :
    ask question p = .ok a p := by
  unfold ask
  rw [h]

theorem ask_eq_error {question : Program T → Except Error α} {cause : Error}
    (h : question p = .error cause) : ask question p = .error cause p := by
  unfold ask
  rw [h]

/-- A transition is inserted or refused. -/
theorem insertTransition_cases (t : Transition T) (p : Program T) :
    (∃ cause, insertTransition t p = .error cause p) ∨
      ∃ q, insertTransition t p = .ok () q ∧ p.Adds t q := by
  unfold insertTransition changeGraph
  dsimp only
  cases hinsert : p.graph.insertEdge t.arc t with
  | error cause => exact .inl ⟨cause, rfl⟩
  | ok graph =>
    obtain ⟨hvertices, hedges⟩ := Digraph.insertEdge_ok hinsert
    have hnew : p.graph.edges.find? t.arc = none := by
      simpa [Digraph.Adj, SortedMap.contains] using (Digraph.insertEdge_eq_ok.mp hinsert).1
    refine .inr ⟨_, rfl, ?_, ?_, rfl, hvertices, rfl⟩
    · intro u hu
      rw [transition_eq_ok] at hu
      rw [show p.graph.edges.find? t.arc = some u from hu] at hnew
      cases hnew
    · intro head tail u
      rw [transition_eq_ok, transition_eq_ok]
      show graph.edges.find? ⟨head, tail⟩ = some u ↔ _
      rw [hedges, SortedMap.find?_insert]
      simp only [Transition.arc, Arc.mk.injEq]
      split
      · simp [eq_comm]
      · rfl

/-- A node is created under the next index. -/
theorem insertNode_eq (h : p.Structured) (name : String) :
    insertNode name p = .ok p.nextIndex (p.withNode name) := by
  have hnew : p.graph.hasVertex p.nextIndex = false := by
    unfold Digraph.hasVertex SortedMap.contains
    cases hfind : p.graph.vertices.find? p.nextIndex with
    | none => rfl
    | some node =>
      have hlt := (h.lt_nextIndex p.nextIndex).mpr ⟨node, node_eq_ok.mpr hfind⟩
      omega
  have hinsert : p.graph.insertVertex p.nextIndex { index := p.nextIndex, procedure := name } =
      .ok (p.withNode name).graph := by
    unfold Digraph.insertVertex
    rw [if_neg (by simp [hnew])]
    rfl
  show EStateM.bind (changeGraph fun g => g.insertVertex p.nextIndex ⟨p.nextIndex, name, false, none⟩)
    _ { p with nextIndex := p.nextIndex + 1 } = _
  unfold EStateM.bind changeGraph
  simp only [hinsert]
  rfl

/-- The data of a node is changed if the node is there. -/
theorem changeNode_eq {n : Nat} {node : Node} (h : p.node n = .ok node) (change : Node → Node) :
    changeNode n change p = .ok () (p.setNode n (change node)) := by
  have hset : p.graph.setVertex n (change node) = .ok (p.setNode n (change node)).graph := by
    unfold Digraph.setVertex Digraph.hasVertex SortedMap.contains
    rw [node_eq_ok.mp h]
    rfl
  refine (bind_eq_of_ok (ask_eq_ok h)).trans ?_
  unfold changeGraph
  simp only [hset]
  rfl

theorem changeNode_eq_error {n : Nat} {cause : Error} (h : p.node n = .error cause)
    (change : Node → Node) : changeNode n change p = .error cause p :=
  bind_eq_of_error (ask_eq_error h)

theorem after_insertTransition (hp : p.Structured) (hfits : p.Fits t)
    (honce : ∀ callSite m u, t.kind = .ret callSite → p.transition t.head m = .ok u →
      u.kind ≠ .ret callSite) : ((insertTransition t).after p).Structured := by
  unfold Build.after
  obtain ⟨cause, hrefused⟩ | ⟨q, hinserted, hadds⟩ := insertTransition_cases t p
  · rw [hrefused]
    exact hp
  · rw [hinserted]
    exact hp.adds hadds hfits honce

/-- A transition may be inserted between nodes that were checked. -/
theorem after_checked (hp : p.Structured) (hfits : p.Together t.head t.tail → p.Fits t)
    (hkind : ∀ callSite, t.kind ≠ .ret callSite) :
    ((do ask fun p => p.sameProcedure t.head t.tail
         insertTransition t : Build T Unit).after p).Structured := by
  rw [after_bind]
  cases hsame : p.sameProcedure t.head t.tail with
  | error cause =>
    rw [ask_eq_error hsame]
    exact hp
  | ok u =>
    rw [ask_eq_ok hsame]
    exact after_insertTransition hp (hfits (together_of_sameProcedure hsame))
      fun callSite _ _ hret => absurd hret (hkind callSite)

/-- However many of the three transitions of a call are inserted, the structure is kept. -/
theorem after_call (hp : p.Structured) (callSite returnSite : Nat) (callee : String)
    (statement : T) : ((call callSite returnSite callee statement).after p).Structured := by
  unfold call
  rw [after_bind]
  cases hsame : p.sameProcedure callSite returnSite with
  | error cause =>
    rw [ask_eq_error hsame]
    exact hp
  | ok u =>
  rw [ask_eq_ok hsame]
  have htogether := together_of_sameProcedure hsame
  show ((ask _ >>= _).after p).Structured
  rw [after_bind]
  cases hx : p.procedure callee with
  | error cause =>
    rw [ask_eq_error hx]
    exact hp
  | ok x =>
  rw [ask_eq_ok hx]
  show ((insertTransition _ >>= _).after p).Structured
  rw [after_bind]
  obtain ⟨cause, hrefused⟩ | ⟨q, hinserted, hcall⟩ :=
    insertTransition_cases ⟨callSite, x.entry, .call, statement⟩ p
  · rw [hrefused]
    exact hp
  rw [hinserted]
  -- From here on the call is there, even if the return or the summary is refused.
  have hq : q.Structured := hp.adds hcall ⟨callee, x, hx, rfl⟩ nofun
  have hxq := hcall.toExtends.grows.procedure callee x hx
  show ((insertTransition _ >>= _).after q).Structured
  rw [after_bind]
  obtain ⟨cause, hrefused⟩ | ⟨r, hinserted, hret⟩ :=
    insertTransition_cases ⟨x.exit, returnSite, .ret callSite, statement⟩ q
  · rw [hrefused]
    exact hq
  rw [hinserted]
  -- The call was not there before, so neither was a return that belongs to it.
  have hr : r.Structured := by
    refine hq.adds hret ⟨htogether.mono hcall.toExtends.grows, callee, x, _, hxq, rfl, hcall.self, rfl⟩
      fun site m u hsite hu => ?_
    cases hsite
    rw [hcall.transition_iff] at hu
    split at hu
    · rw [hu]
      nofun
    · exact hp.not_ret_of_not_call hx hcall.new hu
  have hextends := hret.toExtends
  refine after_insertTransition hr ⟨?_, callee, x, _, _, hextends.grows.procedure callee x hxq,
    hextends.transition _ _ _ hcall.self, rfl, hret.self, rfl⟩ nofun
  exact (htogether.mono hcall.toExtends.grows).mono hextends.grows

theorem after_changeNode (hp : p.Structured) (n : Nat) {change : Node → Node}
    (hchange : ∀ node, (change node).index = node.index ∧
      (change node).procedure = node.procedure) :
    ((changeNode n change).after p).Structured := by
  unfold Build.after
  cases hnode : p.node n with
  | ok node =>
    rw [changeNode_eq hnode]
    exact hp.setNode hnode (hchange node).1 (hchange node).2
  | error cause =>
    rw [changeNode_eq_error hnode]
    exact hp

theorem addNode_eq_error {cause : Error} (hx : p.procedure name = .error cause) :
    addNode name p = .error cause p :=
  bind_eq_of_error (ask_eq_error hx)

/-- A node of a procedure is created under the next index. -/
theorem addNode_eq (hp : p.Structured) {x : Procedure} (hx : p.procedure name = .ok x) :
    addNode name p = .ok p.nextIndex (p.withNode name) :=
  (bind_eq_of_ok (ask_eq_ok hx)).trans (insertNode_eq hp name)

theorem node_withNode (p : Program T) (name : String) :
    (p.withNode name).node p.nextIndex = .ok ⟨p.nextIndex, name, false, none⟩ := by
  rw [node_insert rfl, if_pos rfl]

theorem addErrorNode_eq (hp : p.Structured) {x : Procedure} (hx : p.procedure name = .ok x) :
    addErrorNode name p = .ok p.nextIndex
      ((p.withNode name).setNode p.nextIndex ⟨p.nextIndex, name, true, none⟩) := by
  refine (bind_eq_of_ok (addNode_eq hp hx)).trans ?_
  exact bind_eq_of_ok (changeNode_eq (node_withNode p name) _)

theorem addErrorNode_eq_error {cause : Error} (hx : p.procedure name = .error cause) :
    addErrorNode name p = .error cause p :=
  bind_eq_of_error (addNode_eq_error hx)

/-- A procedure is created with the next two nodes as its entry and its exit. -/
theorem addProcedure_eq (hp : p.Structured) (hnew : p.procedures.find? name = none) :
    addProcedure name p = .ok ⟨name, p.nextIndex, p.nextIndex + 1⟩
      (((p.withNode name).withNode name).withProcedure
        ⟨name, p.nextIndex, p.nextIndex + 1⟩) := by
  have hcontains : p.procedures.contains name = false := by
    unfold SortedMap.contains
    rw [hnew]
    rfl
  show (if p.procedures.contains name then throw (.duplicateProcedure name) else
    insertNode name >>= fun entry => insertNode name >>= fun exit =>
      modify (fun p => p.withProcedure ⟨name, entry, exit⟩) >>= fun _ =>
        pure ⟨name, entry, exit⟩ : Build T Procedure) p = _
  rw [if_neg (by simp [hcontains])]
  refine (bind_eq_of_ok (insertNode_eq hp name)).trans ?_
  exact bind_eq_of_ok (insertNode_eq (hp.withNode name) name)

theorem addProcedure_eq_error (h : p.procedures.contains name = true) :
    addProcedure name p = .error (.duplicateProcedure name) p := by
  show (if p.procedures.contains name then throw (.duplicateProcedure name) else _ :
    Build T Procedure) p = _
  rw [if_pos h]
  rfl

theorem after_addNode (hp : p.Structured) (name : String) :
    ((addNode name).after p).Structured := by
  unfold Build.after
  cases hx : p.procedure name with
  | error cause =>
    rw [addNode_eq_error hx]
    exact hp
  | ok x =>
    rw [addNode_eq hp hx]
    exact hp.withNode name

theorem after_addErrorNode (hp : p.Structured) (name : String) :
    ((addErrorNode name).after p).Structured := by
  unfold Build.after
  cases hx : p.procedure name with
  | error cause =>
    rw [addErrorNode_eq_error hx]
    exact hp
  | ok x =>
    rw [addErrorNode_eq hp hx]
    exact (hp.withNode name).setNode (node_withNode p name) rfl rfl

theorem after_addProcedure (hp : p.Structured) (name : String) :
    ((addProcedure name).after p).Structured := by
  unfold Build.after
  cases hnew : p.procedures.find? name with
  | some x =>
    rw [addProcedure_eq_error (by simp [SortedMap.contains, hnew])]
    exact hp
  | none =>
    rw [addProcedure_eq hp hnew]
    have hentry := hp.withNode name
    refine (hentry.withNode name).withProcedure hnew (Nat.succ_ne_self _).symm ?_ ?_
    · exact (extends_withNode hentry name).grows.belongs _ _ ⟨_, node_withNode p name, rfl⟩
    · exact ⟨_, node_withNode (p.withNode name) name, rfl⟩

end Build

/-! ## §5. Programs. -/

namespace Program

variable {p : Program T}

theorem Structured.onto (a : Addition T) (h : p.Structured) : (a.onto p).Structured := by
  cases a with
  | procedure name => exact Build.after_addProcedure h name
  | node name => exact Build.after_addNode h name
  | errorNode name => exact Build.after_addErrorNode h name
  | error index isError => exact Build.after_changeNode h index fun _ => ⟨rfl, rfl⟩
  | comment index text => exact Build.after_changeNode h index fun _ => ⟨rfl, rfl⟩
  | internal head tail statement =>
    exact Build.after_checked (t := ⟨head, tail, .internal, statement⟩) h id nofun
  | call callSite returnSite callee statement =>
    exact Build.after_call h callSite returnSite callee statement
  | externalCall callSite returnSite statement =>
    exact Build.after_checked (t := ⟨callSite, returnSite, .summary false, statement⟩) h id nofun

theorem structured_ofAdditions (additions : List (Addition T)) :
    (ofAdditions additions).Structured := by
  unfold ofAdditions
  induction additions using List.reverseRecOn with
  | nil =>
    refine ⟨fun n => ⟨nofun, ?_⟩, nofun, nofun, nofun, nofun⟩
    rintro ⟨node, hnode⟩
    cases hnode
  | append_singleton additions a ih =>
    rw [List.foldl_append]
    exact ih.onto a

/-- After any sequence of additions, some of which may have failed, in whole or in part:

* the nodes are numbered without gaps, so creating a node or a procedure never fails because of a
  node that is there already;
* the entry and the exit of a procedure are two nodes of it, and no other procedure has them as its
  own;
* each transition finds what its kind relies on: two nodes of one procedure, the entry of a
  procedure, the call that is returned from, or the call and the return that it stands for;
* from the exit of a procedure at most one return leads back to each call site. -/
theorem structure_of_additions (additions : List (Addition T)) (p : Program T)
    (hp : p = ofAdditions additions) :
    p.Structured ∧
    (∀ name name' x x', p.procedure name = .ok x → p.procedure name' = .ok x' →
      x.entry = x'.entry ∨ x.entry = x'.exit ∨ x.exit = x'.exit → name = name') ∧
    (∀ name x, p.procedure name = .ok x →
      (∃ q, Build.addNode name p = .ok p.nextIndex q) ∧
        ∃ q, Build.addErrorNode name p = .ok p.nextIndex q) ∧
    ∀ name, (∀ x, p.procedure name ≠ .ok x) →
      ∃ q, Build.addProcedure name p = .ok ⟨name, p.nextIndex, p.nextIndex + 1⟩ q := by
  have h : p.Structured := hp ▸ structured_ofAdditions additions
  refine ⟨h, fun name name' x x' => h.procedure_unique, fun name x hx => ?_, fun name hnew => ?_⟩
  · exact ⟨⟨_, Build.addNode_eq h hx⟩, _, Build.addErrorNode_eq h hx⟩
  · refine ⟨_, Build.addProcedure_eq h ?_⟩
    cases hfind : p.procedures.find? name with
    | none => rfl
    | some x => exact absurd (procedure_eq_ok.mpr hfind) (hnew x)

/-- Two procedures, the second of which calls itself.  Of the calls, the second one is refused its
last transition, as it goes back to the entry, the fourth one its first, and the fifth one its
second. -/
def refusals : List (Addition Nat) :=
  [.procedure "main", .procedure "f", .node "main", .node "f", .call 0 4 "f" 0, .call 5 2 "f" 1,
    .call 2 5 "f" 2, .call 3 2 "f" 3, .call 1 4 "f" 4, .internal 0 5 5, .procedure "f", .node "g"]

set_option maxRecDepth 100000 in
/-- The refused calls left two transitions and one; the return among them has its call. -/
theorem structure_of_additions_refusals :
    (ofAdditions refusals).transition 5 2 = .ok ⟨5, 2, .call, 1⟩ ∧
    (ofAdditions refusals).transition 3 2 = .ok ⟨3, 2, .ret 5, 1⟩ ∧
    (ofAdditions refusals).transition 1 2 = .ok ⟨1, 2, .call, 4⟩ ∧
    (ofAdditions refusals).transition 1 4 = .error (.edgeNotFound 1 4) ∧
    (ofAdditions refusals).Fits ⟨3, 2, .ret 5, 1⟩ ∧
    (∃ q, Build.addNode "f" (ofAdditions refusals) = .ok 6 q) ∧
    ∃ q, Build.addProcedure "g" (ofAdditions refusals) = .ok ⟨"g", 6, 7⟩ q := by
  obtain ⟨hstructured, -, hnodes, hprocedures⟩ := structure_of_additions refusals _ rfl
  have hreturn : (ofAdditions refusals).transition 3 2 = .ok ⟨3, 2, .ret 5, 1⟩ := by decide +kernel
  have hnext : (ofAdditions refusals).nextIndex = 6 := by decide +kernel
  have hf : (ofAdditions refusals).procedure "f" = .ok ⟨"f", 2, 3⟩ := by decide +kernel
  have hg : (ofAdditions refusals).procedure "g" = .error (.unknownProcedure "g") := by
    decide +kernel
  rw [hnext] at hnodes hprocedures
  exact ⟨by decide +kernel, hreturn, by decide +kernel, by decide +kernel,
    (hstructured.fits 3 2 _ hreturn).2.2, (hnodes "f" _ hf).1, hprocedures "g" (by simp [hg])⟩

end Program

end Interproc
