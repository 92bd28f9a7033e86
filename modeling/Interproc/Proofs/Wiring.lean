/-
  Interproc.Proofs.Wiring
  ───────────────────────
  Which transitions of a program lead from one procedure to another.  Transitions
  inside a procedure and those over a call connect two nodes of one procedure, calls
  lead to the entry of a procedure, and returns lead to the procedure of the call site
  that they belong to.  Nodes never change their procedure, and procedures are never
  replaced, so every addition, successful or not, keeps a program wired like that.

  Main result: `Program.Built.wired`.
-/
import Mathlib
import Interproc.Proofs.Digraphs
import Interproc.Proofs.Flow
import Interproc.Proofs.Steps

namespace Interproc

variable {T α β : Type}

namespace Program

/-! ## §1. Procedures and their nodes. -/

/-- A node belongs to a procedure. -/
def Belongs (p : Program T) (index : Nat) (name : String) : Prop :=
  ∃ node, p.node index = .ok node ∧ node.procedure = name

/-- Two nodes belong to one procedure. -/
def Together (p : Program T) (m n : Nat) : Prop := ∃ name, p.Belongs m name ∧ p.Belongs n name

/-- A transition is a call of a procedure: it leads to the procedure's entry. -/
def Calls (p : Program T) (t : Transition T) (name : String) : Prop :=
  t.isCall = true ∧ ∃ procedure, p.procedure name = .ok procedure ∧ procedure.entry = t.tail

/-- A transition leads to another procedure only as its kind allows. -/
def Routes (p : Program T) (t : Transition T) : Prop :=
  match t.kind with
  | .internal => p.Together t.head t.tail
  | .summary _ => p.Together t.head t.tail
  | .call => ∃ name, p.Calls t name
  | .ret callSite => p.Together callSite t.tail

/-- Entries belong to their procedures, and all transitions lead where they may. -/
structure Wired (p : Program T) : Prop where
  entries : ∀ name procedure, p.procedure name = .ok procedure → p.Belongs procedure.entry name
  routes : ∀ arc t, p.graph.edges.find? arc = some t → p.Routes t

variable {p q r : Program T} {m n : Nat} {name name' : String} {t : Transition T}

theorem Belongs.unique (h : p.Belongs n name) (h' : p.Belongs n name') : name = name' := by
  obtain ⟨node, hnode, rfl⟩ := h
  obtain ⟨node', hnode', rfl⟩ := h'
  rw [hnode] at hnode'
  cases hnode'
  rfl

/-- Nodes of one procedure belong to every procedure that one of them belongs to. -/
theorem Together.belongs (h : p.Together m n) (hm : p.Belongs m name) : p.Belongs n name := by
  obtain ⟨name', hm', hn⟩ := h
  rw [hm.unique hm']
  exact hn

/-- What is called is entered. -/
theorem Wired.belongs_tail (h : p.Wired) (ht : p.Calls t name) : p.Belongs t.tail name := by
  obtain ⟨-, procedure, hprocedure, htail⟩ := ht
  rw [← htail]
  exact h.entries name procedure hprocedure

/-- Nodes keep their procedures, and procedures their entries. -/
structure Grows (p q : Program T) : Prop where
  belongs : ∀ n name, p.Belongs n name → q.Belongs n name
  procedure : ∀ name procedure, p.procedure name = .ok procedure → q.procedure name = .ok procedure

theorem Grows.refl (p : Program T) : p.Grows p := ⟨fun _ _ h => h, fun _ _ h => h⟩

theorem Grows.trans (h : p.Grows q) (h' : q.Grows r) : p.Grows r where
  belongs := fun n name hn => h'.belongs n name (h.belongs n name hn)
  procedure := fun name x hx => h'.procedure name x (h.procedure name x hx)

theorem Together.mono (h : p.Together m n) (hgrows : p.Grows q) : q.Together m n := by
  obtain ⟨name, hm, hn⟩ := h
  exact ⟨name, hgrows.belongs m name hm, hgrows.belongs n name hn⟩

theorem Routes.mono (h : p.Routes t) (hgrows : p.Grows q) : q.Routes t := by
  unfold Routes at h ⊢
  generalize t.kind = kind at h ⊢
  cases kind with
  | internal => exact Together.mono h hgrows
  | summary _ => exact Together.mono h hgrows
  | call =>
    obtain ⟨name, hcall, procedure, hprocedure, htail⟩ := h
    exact ⟨name, hcall, procedure, hgrows.procedure name procedure hprocedure, htail⟩
  | ret callSite => exact Together.mono h hgrows

theorem procedure_eq_ok {procedure : Procedure} :
    p.procedure name = .ok procedure ↔ p.procedures.find? name = some procedure := by
  unfold Program.procedure
  cases p.procedures.find? name <;> simp

theorem node_eq_ok {node : Node} : p.node n = .ok node ↔ p.graph.vertices.find? n = some node := by
  unfold Program.node Digraph.vertex
  cases p.graph.vertices.find? n <;> simp

theorem grows_of_vertices (hvertices : q.graph.vertices = p.graph.vertices)
    (hprocedures : q.procedures = p.procedures) : p.Grows q := by
  constructor
  · rintro n name ⟨node, hnode, hname⟩
    refine ⟨node, ?_, hname⟩
    rw [node_eq_ok] at hnode ⊢
    rw [hvertices]
    exact hnode
  · intro name procedure hprocedure
    rw [procedure_eq_ok] at hprocedure ⊢
    rw [hprocedures]
    exact hprocedure

/-- A program that grows by nodes alone stays wired. -/
theorem Wired.of_grows (h : p.Wired) (hgrows : p.Grows q)
    (hprocedures : q.procedures = p.procedures) (hedges : q.graph.edges = p.graph.edges) :
    q.Wired := by
  constructor
  · intro name procedure hprocedure
    rw [procedure_eq_ok, hprocedures, ← procedure_eq_ok] at hprocedure
    exact hgrows.belongs _ name (h.entries name procedure hprocedure)
  · intro arc t ht
    rw [hedges] at ht
    exact (h.routes arc t ht).mono hgrows

/-- The node at an index may be replaced by one of the same procedure, and a new one is no harm. -/
theorem grows_of_insert {node : Node}
    (hvertices : q.graph.vertices = p.graph.vertices.insert n node)
    (hprocedures : q.procedures = p.procedures)
    (hsame : ∀ old, p.node n = .ok old → node.procedure = old.procedure) : p.Grows q := by
  constructor
  · rintro k name ⟨old, hold, hname⟩
    by_cases hk : k = n
    · subst hk
      refine ⟨node, ?_, (hsame old hold).trans hname⟩
      rw [node_eq_ok, hvertices, SortedMap.find?_insert, if_pos rfl]
    · refine ⟨old, ?_, hname⟩
      rw [node_eq_ok] at hold ⊢
      rw [hvertices, SortedMap.find?_insert, if_neg hk]
      exact hold
  · intro name procedure hprocedure
    rw [procedure_eq_ok] at hprocedure ⊢
    rw [hprocedures]
    exact hprocedure

end Program

/-! ## §2. Additions keep programs wired. -/

namespace Digraph

variable {V E : Type} {g g' : Digraph V E} {index : Nat}

theorem insertEdge_ok {arc : Arc} {e : E} (h : g.insertEdge arc e = .ok g') :
    g'.vertices = g.vertices ∧ g'.edges = g.edges.insert arc e := by
  obtain ⟨-, -, -, rfl⟩ := insertEdge_eq_ok.mp h
  exact ⟨rfl, rfl⟩

theorem insertVertex_ok {v : V} (h : g.insertVertex index v = .ok g') :
    g.vertices.find? index = none ∧ g'.vertices = g.vertices.insert index v ∧
      g'.edges = g.edges := by
  obtain ⟨hnew, rfl⟩ := insertVertex_eq_ok.mp h
  exact ⟨by simpa [hasVertex, SortedMap.contains] using hnew, rfl, rfl⟩

theorem setVertex_ok {v : V} (h : g.setVertex index v = .ok g') :
    g'.vertices = g.vertices.insert index v ∧ g'.edges = g.edges := by
  obtain ⟨-, rfl⟩ := setVertex_eq_ok.mp h
  exact ⟨rfl, rfl⟩

end Digraph

namespace Build

open Program

variable {p q : Program T} {step : Build T α} {Q : α → Program T → Prop}

/-- A step from a program lets it grow, keeps it wired, and does what `Q` says if it succeeds. -/
def Leads (step : Build T α) (p : Program T) (Q : α → Program T → Prop) : Prop :=
  match step p with
  | .ok a q => p.Grows q ∧ q.Wired ∧ Q a q
  | .error _ q => q.Wired

theorem Leads.after (h : step.Leads p Q) : (step.after p).Wired := by
  unfold Leads at h
  unfold Build.after
  cases hstep : step p with
  | ok a q =>
    rw [hstep] at h
    exact h.2.1
  | error cause q =>
    rw [hstep] at h
    exact h

theorem Leads.bind {next : α → Build T β} {R : β → Program T → Prop} (h : step.Leads p Q)
    (hnext : ∀ a q, p.Grows q → q.Wired → Q a q → (next a).Leads q R) :
    (step >>= next).Leads p R := by
  unfold Leads at h ⊢
  show match EStateM.bind step next p with
    | .ok a q => p.Grows q ∧ q.Wired ∧ R a q
    | .error _ q => q.Wired
  unfold EStateM.bind
  cases hstep : step p with
  | error cause q =>
    rw [hstep] at h
    exact h
  | ok a q =>
    rw [hstep] at h
    obtain ⟨hgrows, hwired, hq⟩ := h
    have hthen := hnext a q hgrows hwired hq
    unfold Leads at hthen
    show match next a q with
      | .ok a q => p.Grows q ∧ q.Wired ∧ R a q
      | .error _ q => q.Wired
    cases hlast : next a q with
    | ok b r =>
      rw [hlast] at hthen
      exact ⟨hgrows.trans hthen.1, hthen.2⟩
    | error cause r =>
      rw [hlast] at hthen
      exact hthen

theorem Leads.mono {R : α → Program T → Prop} (h : step.Leads p Q) (hQ : ∀ a q, Q a q → R a q) :
    step.Leads p R := by
  unfold Leads at h ⊢
  cases hstep : step p with
  | ok a q =>
    rw [hstep] at h
    exact ⟨h.1, h.2.1, hQ a q h.2.2⟩
  | error cause q =>
    rw [hstep] at h
    exact h

theorem leads_get (hp : p.Wired) : (get : Build T (Program T)).Leads p fun a q => p = a ∧ p = q :=
  ⟨.refl p, hp, rfl, rfl⟩

theorem leads_modify {change : Program T → Program T} (hgrows : p.Grows (change p))
    (hwired : (change p).Wired) :
    (modify change : Build T Unit).Leads p fun _ q => change p = q :=
  ⟨hgrows, hwired, rfl⟩

theorem leads_pure {a : α} (hp : p.Wired) (ha : Q a p) : (pure a : Build T α).Leads p Q :=
  ⟨.refl p, hp, ha⟩

theorem leads_ask {question : Program T → Except Error α} (hp : p.Wired) :
    (ask question).Leads p fun a q => p = q ∧ question p = .ok a := by
  unfold Leads ask
  cases question p with
  | ok a => exact ⟨.refl p, hp, rfl, rfl⟩
  | error cause => exact hp

theorem leads_changeGraph
    {change : Digraph Node (Transition T) → Except Error (Digraph Node (Transition T))}
    {Q : Program T → Prop} (hp : p.Wired)
    (h : ∀ graph, change p.graph = .ok graph → p.Grows { p with graph := graph } ∧
      Program.Wired { p with graph := graph } ∧ Q { p with graph := graph }) :
    (changeGraph change).Leads p fun _ q => Q q := by
  unfold Leads changeGraph
  cases hchange : change p.graph with
  | ok graph => exact h graph hchange
  | error cause => exact hp

/-- A transition may be inserted that leads where it may. -/
theorem leads_insertTransition {t : Transition T} (hp : p.Wired) (ht : p.Routes t) :
    (insertTransition t).Leads p fun _ _ => True := by
  refine leads_changeGraph hp fun graph hgraph => ?_
  obtain ⟨hvertices, hedges⟩ := Digraph.insertEdge_ok hgraph
  have hgrows : p.Grows { p with graph := graph } := grows_of_vertices hvertices rfl
  refine ⟨hgrows, ⟨fun name x hx => ?_, fun arc u hu => ?_⟩, trivial⟩
  · exact hgrows.belongs _ name (hp.entries name x hx)
  · rw [hedges, SortedMap.find?_insert] at hu
    split at hu
    · cases hu
      exact ht.mono hgrows
    · exact (hp.routes arc u hu).mono hgrows

theorem leads_insertNode (name : String) (hp : p.Wired) :
    (insertNode name).Leads p fun index q =>
      q.Belongs index name ∧ q.procedures = p.procedures := by
  -- The next index is counted up first; that changes no node.
  have hcounted : p.Grows { p with nextIndex := p.nextIndex + 1 } := grows_of_vertices rfl rfl
  have hwired : Program.Wired { p with nextIndex := p.nextIndex + 1 } :=
    hp.of_grows hcounted rfl rfl
  refine (leads_get hp).bind ?_
  rintro _ _ - - ⟨rfl, rfl⟩
  refine (leads_modify hcounted hwired).bind ?_
  rintro - _ - - rfl
  refine Leads.bind (Q := fun _ q => q.Belongs p.nextIndex name ∧ q.procedures = p.procedures)
    (leads_changeGraph hwired fun graph hgraph => ?_) fun _ q _ hq h => leads_pure hq h
  obtain ⟨hnew, hvertices, hedges⟩ := Digraph.insertVertex_ok hgraph
  have hgrows := grows_of_insert (p := { p with nextIndex := p.nextIndex + 1 })
    (q := { p with graph := graph, nextIndex := p.nextIndex + 1 }) hvertices rfl
    fun old hold => by
      rw [node_eq_ok, hnew] at hold
      cases hold
  refine ⟨hgrows, hwired.of_grows hgrows rfl hedges, ⟨⟨p.nextIndex, name, false, none⟩, ?_, rfl⟩,
    rfl⟩
  rw [node_eq_ok]
  show graph.vertices.find? p.nextIndex = _
  rw [hvertices, SortedMap.find?_insert, if_pos rfl]

theorem leads_addNode (name : String) (hp : p.Wired) :
    (addNode name).Leads p fun _ _ => True := by
  refine (leads_ask hp).bind ?_
  rintro _ _ - - ⟨rfl, -⟩
  exact (leads_insertNode name hp).mono fun _ _ _ => trivial

/-- The data of a node may be changed, but not its procedure. -/
theorem leads_changeNode (index : Nat) {change : Node → Node} (hp : p.Wired)
    (hchange : ∀ node, (change node).procedure = node.procedure) :
    (changeNode index change).Leads p fun _ _ => True := by
  refine (leads_ask hp).bind ?_
  rintro node _ - - ⟨rfl, hnode⟩
  refine leads_changeGraph hp fun graph hgraph => ?_
  obtain ⟨hvertices, hedges⟩ := Digraph.setVertex_ok hgraph
  have hgrows := grows_of_insert (p := p) (q := { p with graph := graph }) hvertices rfl
    fun old hold => by
      rw [hnode] at hold
      cases hold
      exact hchange node
  exact ⟨hgrows, hp.of_grows hgrows rfl hedges, trivial⟩

theorem leads_setError (index : Nat) (isError : Bool) (hp : p.Wired) :
    (setError index isError).Leads p fun _ _ => True :=
  leads_changeNode index hp fun _ => rfl

theorem leads_setComment (index : Nat) (comment : Option String) (hp : p.Wired) :
    (setComment index comment).Leads p fun _ _ => True :=
  leads_changeNode index hp fun _ => rfl

/-- A procedure is added under a name that no other one has. -/
theorem leads_addProcedure (name : String) (hp : p.Wired) :
    (addProcedure name).Leads p fun _ _ => True := by
  refine (leads_get hp).bind ?_
  rintro _ _ - - ⟨rfl, rfl⟩
  split
  · exact hp
  · rename_i hnew
    refine (leads_insertNode name hp).bind ?_
    rintro entry q - hq ⟨hentry, hprocedures⟩
    refine (leads_insertNode name hq).bind ?_
    rintro exit r hgrows hr ⟨-, hprocedures'⟩
    have hnone : r.procedures.find? name = none := by
      rw [hprocedures', hprocedures]
      simpa [SortedMap.contains] using hnew
    -- No procedure is replaced, so all calls lead where they did.
    have hadded :
        r.Grows { r with procedures := r.procedures.insert name ⟨name, entry, exit⟩ } := by
      refine ⟨fun _ _ hn => hn, fun name' x hx => ?_⟩
      rw [procedure_eq_ok] at hx ⊢
      show (r.procedures.insert name _).find? name' = _
      rw [SortedMap.find?_insert, if_neg]
      · exact hx
      · rintro rfl
        rw [hnone] at hx
        cases hx
    refine (leads_modify hadded ⟨fun name' x hx => ?_, fun arc t ht => ?_⟩).bind
      fun _ q _ hq _ => leads_pure hq trivial
    · rw [procedure_eq_ok] at hx
      change (r.procedures.insert name _).find? name' = _ at hx
      rw [SortedMap.find?_insert] at hx
      split at hx
      · rename_i hname
        cases hx
        rw [hname]
        exact hgrows.belongs entry name hentry
      · exact hr.entries name' x (procedure_eq_ok.mpr hx)
    · exact (hr.routes arc t ht).mono hadded

/-- Two nodes that were checked belong to one procedure. -/
theorem together_of_sameProcedure {head tail : Nat} {u : Unit}
    (h : p.sameProcedure head tail = .ok u) : p.Together head tail := by
  obtain ⟨headNode, hhead, h⟩ := except_bind_eq_ok.mp h
  obtain ⟨tailNode, htail, h⟩ := except_bind_eq_ok.mp h
  split at h
  · rename_i hsame
    exact ⟨tailNode.procedure, ⟨headNode, hhead, hsame⟩, tailNode, htail, rfl⟩
  · cases h

/-- A transition may be inserted between nodes that were checked, if its kind allows it there. -/
theorem leads_checked {t : Transition T} (hp : p.Wired)
    (ht : p.Together t.head t.tail → p.Routes t) :
    (do ask fun p => p.sameProcedure t.head t.tail
        insertTransition t : Build T Unit).Leads p fun _ _ => True := by
  refine (leads_ask hp).bind ?_
  rintro _ _ - - ⟨rfl, hsame⟩
  exact leads_insertTransition hp (ht (together_of_sameProcedure hsame))

theorem leads_internal (head tail : Nat) (statement : T) (hp : p.Wired) :
    (internal head tail statement).Leads p fun _ _ => True :=
  leads_checked (t := ⟨head, tail, .internal, statement⟩) hp id

theorem leads_externalCall (callSite returnSite : Nat) (statement : T) (hp : p.Wired) :
    (externalCall callSite returnSite statement).Leads p fun _ _ => True :=
  leads_checked (t := ⟨callSite, returnSite, .summary false, statement⟩) hp id

/-- A call is wired up by three transitions.  If one of them is refused, those before it stay. -/
theorem leads_call (callSite returnSite : Nat) (callee : String) (statement : T) (hp : p.Wired) :
    (call callSite returnSite callee statement).Leads p fun _ _ => True := by
  refine (leads_ask hp).bind ?_
  rintro _ _ - - ⟨rfl, hsame⟩
  have htogether := together_of_sameProcedure hsame
  refine (leads_ask hp).bind ?_
  rintro procedure _ - - ⟨rfl, hprocedure⟩
  have hcalls : p.Routes ⟨callSite, procedure.entry, .call, statement⟩ :=
    ⟨callee, rfl, procedure, hprocedure, rfl⟩
  refine (leads_insertTransition hp hcalls).bind fun _ q hgrows hq _ => ?_
  have hreturns : q.Routes ⟨procedure.exit, returnSite, .ret callSite, statement⟩ :=
    htogether.mono hgrows
  refine (leads_insertTransition hq hreturns).bind fun _ r hgrows' hr _ => ?_
  exact leads_insertTransition hr (htogether.mono (hgrows.trans hgrows'))

end Build

namespace Program

variable {p : Program T}

theorem Wired.onto (a : Addition T) (h : p.Wired) : (a.onto p).Wired := by
  cases a with
  | procedure name => exact (Build.leads_addProcedure name h).after
  | node name => exact (Build.leads_addNode name h).after
  | errorNode name =>
    refine Build.Leads.after (Q := fun _ _ => True) ?_
    refine (Build.leads_addNode name h).bind fun index q _ hq _ => ?_
    exact (Build.leads_setError index true hq).bind fun _ r _ hr _ => Build.leads_pure hr trivial
  | error index isError => exact (Build.leads_setError index isError h).after
  | comment index text => exact (Build.leads_setComment index text h).after
  | internal head tail statement => exact (Build.leads_internal head tail statement h).after
  | call callSite returnSite callee statement =>
    exact (Build.leads_call callSite returnSite callee statement h).after
  | externalCall callSite returnSite statement =>
    exact (Build.leads_externalCall callSite returnSite statement h).after

/-- Programs that are put together by additions are wired. -/
theorem Built.wired (h : p.Built) : p.Wired := by
  obtain ⟨additions, rfl⟩ := h
  unfold ofAdditions
  induction additions using List.reverseRecOn with
  | nil =>
    constructor
    · intro name x hx
      cases hx
    · intro arc t ht
      cases ht
  | append_singleton additions a ih =>
    rw [List.foldl_append]
    exact ih.onto a

end Program

end Interproc
