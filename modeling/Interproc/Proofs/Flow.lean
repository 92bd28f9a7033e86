/-
  Interproc.Proofs.Flow
  ─────────────────────
  What computations rely on in a control-flow graph: actions start where the ones
  before them lead, no action both enters and leaves a scope, and the action that
  stands for a call does neither.  Programs put together by any sequence of
  additions have these properties, with the loops that are found in them.

  Main result: `Program.Built.coherent`.
-/
import Mathlib
import Interproc.Program.Flow

namespace Interproc

/-! ## §1. Coherent control flow. -/

/-- No action both enters and leaves a scope. -/
def Transitions.Separate {L A : Type} (t : Transitions L A) : Prop :=
  ∀ a scope, t.entersScope a = true → t.leavesScope a scope = false

/-- What computations rely on in a control-flow graph and its loops. -/
structure Engine.Coherent {L A S : Type} (e : Engine L A S) : Prop where
  source_of_actionsFrom : ∀ {l a}, a ∈ e.transitions.actionsFrom l → e.transitions.source a = l
  source_of_following : ∀ {a b scope}, b ∈ e.transitions.following a scope →
    e.transitions.source b = e.transitions.target a
  leaves_none : ∀ {a}, e.transitions.leavesScope a none = false
  leaves_of_enters : ∀ {a scope}, e.transitions.entersScope a = true →
    e.transitions.leavesScope a scope = false
  enters_of_standIn : ∀ {a u}, e.transitions.summaryOf a = some u →
    e.transitions.entersScope a = true
  standIn_enters : ∀ {a u}, e.transitions.summaryOf a = some u →
    e.transitions.entersScope u = false
  standIn_leaves : ∀ {a u scope}, e.transitions.summaryOf a = some u →
    e.transitions.leavesScope u scope = false
  standIn_source : ∀ {a u}, e.transitions.summaryOf a = some u →
    e.transitions.source u = e.transitions.source a
  loop_enters : ∀ {a}, e.entersLoop a = true → e.transitions.entersScope a = false
  loop_leaves : ∀ {a scope}, e.entersLoop a = true → e.transitions.leavesScope a scope = false

theorem Engine.Coherent.separate {L A S : Type} {e : Engine L A S} (h : e.Coherent) :
    e.transitions.Separate :=
  fun _ _ => h.leaves_of_enters

/-- A return enters no scope. -/
theorem Engine.Coherent.enters_of_leaves {L A S : Type} {e : Engine L A S} (h : e.Coherent) {a : A}
    {scope : Option A} (hleaves : e.transitions.leavesScope a scope = true) :
    e.transitions.entersScope a = false := by
  by_contra henters
  rw [h.leaves_of_enters (Bool.not_eq_false _ ▸ henters)] at hleaves
  cases hleaves

/-- A return enters no loop. -/
theorem Engine.Coherent.loop_of_leaves {L A S : Type} {e : Engine L A S} (h : e.Coherent) {a : A}
    {scope : Option A} (hleaves : e.transitions.leavesScope a scope = true) :
    e.entersLoop a = false := by
  by_contra henters
  rw [h.loop_leaves (Bool.not_eq_false _ ▸ henters)] at hleaves
  cases hleaves

/-! ## §2. Programs put together by additions. -/

variable {T α β : Type}

/-- The program after an addition, which keeps what it did before if it fails. -/
def Build.after (step : Build T α) (p : Program T) : Program T :=
  match step p with
  | .ok _ p' => p'
  | .error _ p' => p'

/-- An addition to a program.  A node that is there gets an error mark or a comment; no other change
of a node in place is covered, such as putting another node where it is. -/
inductive Addition (T : Type) where
  | procedure (name : String)
  | node (procedure : String)
  | errorNode (procedure : String)
  | error (index : Nat) (isError : Bool)
  | comment (index : Nat) (comment : Option String)
  | internal (head tail : Nat) (statement : T)
  | call (callSite returnSite : Nat) (callee : String) (statement : T)
  | externalCall (callSite returnSite : Nat) (statement : T)

/-- The program after an addition, successful or not. -/
def Addition.onto : Addition T → Program T → Program T
  | .procedure name => (Build.addProcedure name).after
  | .node name => (Build.addNode name).after
  | .errorNode name => (Build.addErrorNode name).after
  | .error index isError => (Build.setError index isError).after
  | .comment index text => (Build.setComment index text).after
  | .internal head tail statement => (Build.internal head tail statement).after
  | .call callSite returnSite callee statement =>
    (Build.call callSite returnSite callee statement).after
  | .externalCall callSite returnSite statement =>
    (Build.externalCall callSite returnSite statement).after

namespace Program

/-- The program that a sequence of additions puts together. -/
def ofAdditions (additions : List (Addition T)) : Program T :=
  additions.foldl (fun p a => a.onto p) .empty

/-- Programs put together by additions. -/
def Built (p : Program T) : Prop := ∃ additions, p = ofAdditions additions

/-- Every transition is kept at the place that it names. -/
def Placed (p : Program T) : Prop := ∀ arc t, p.graph.edges.find? arc = some t → t.arc = arc

end Program

namespace Build

/-- An addition that keeps transitions where they belong. -/
def KeepsPlaces (step : Build T α) : Prop := ∀ p : Program T, p.Placed → (step.after p).Placed

theorem keepsPlaces_bind {step : Build T α} {next : α → Build T β} (h : step.KeepsPlaces)
    (hnext : ∀ a, (next a).KeepsPlaces) : (step >>= next).KeepsPlaces := by
  intro p hp
  have hstep := h p hp
  unfold after at hstep ⊢
  show Program.Placed (match EStateM.bind step next p with
    | .ok _ p' => p'
    | .error _ p' => p')
  unfold EStateM.bind
  cases hr : step p with
  | ok a p' =>
    rw [hr] at hstep
    exact hnext a p' hstep
  | error cause p' =>
    rw [hr] at hstep
    exact hstep

theorem keepsPlaces_of_same {step : Build T α} (h : ∀ p, (step.after p).graph = p.graph) :
    step.KeepsPlaces := by
  intro p hp arc t hfind
  rw [h] at hfind
  exact hp arc t hfind

theorem keepsPlaces_ask {question : Program T → Except Error α} : (ask question).KeepsPlaces := by
  refine keepsPlaces_of_same fun p => ?_
  unfold after ask
  cases question p with
  | ok value => rfl
  | error cause => rfl

theorem keepsPlaces_changeGraph
    {change : Digraph Node (Transition T) → Except Error (Digraph Node (Transition T))}
    (h : ∀ g g', change g = .ok g' → ∀ arc t, g'.edges.find? arc = some t →
      g.edges.find? arc = some t ∨ t.arc = arc) : (changeGraph change).KeepsPlaces := by
  intro p hp
  unfold after changeGraph
  cases hchange : change p.graph with
  | ok graph =>
    intro arc t hfind
    obtain hold | hnew := h p.graph graph hchange arc t hfind
    · exact hp arc t hold
    · exact hnew
  | error cause => exact hp

theorem keepsPlaces_insertTransition (t : Transition T) : (insertTransition t).KeepsPlaces := by
  refine keepsPlaces_changeGraph fun g g' hg arc u hfind => ?_
  unfold Digraph.insertEdge at hg
  split at hg
  · cases hg
  · split at hg
    · cases hg
    · split at hg
      · cases hg
      · cases hg
        rw [SortedMap.find?_insert] at hfind
        split at hfind
        · rename_i harc
          cases hfind
          exact .inr harc.symm
        · exact .inl hfind

theorem keepsPlaces_insertNode (procedure : String) :
    (insertNode (T := T) procedure).KeepsPlaces := by
  refine keepsPlaces_bind (keepsPlaces_of_same fun _ => rfl) fun p => ?_
  refine keepsPlaces_bind (keepsPlaces_of_same fun _ => rfl) fun _ => ?_
  refine keepsPlaces_bind (keepsPlaces_changeGraph fun g g' hg arc t hfind => ?_) fun _ =>
    keepsPlaces_of_same fun _ => rfl
  unfold Digraph.insertVertex at hg
  split at hg
  · cases hg
  · cases hg
    exact .inl hfind

theorem keepsPlaces_addNode (procedure : String) : (addNode (T := T) procedure).KeepsPlaces :=
  keepsPlaces_bind keepsPlaces_ask fun _ => keepsPlaces_insertNode procedure

theorem keepsPlaces_changeNode (index : Nat) (change : Node → Node) :
    (changeNode (T := T) index change).KeepsPlaces := by
  refine keepsPlaces_bind keepsPlaces_ask fun node => ?_
  refine keepsPlaces_changeGraph fun g g' hg arc t hfind => ?_
  unfold Digraph.setVertex at hg
  split at hg
  · cases hg
    exact .inl hfind
  · cases hg

theorem keepsPlaces_addProcedure (name : String) :
    (addProcedure (T := T) name).KeepsPlaces := by
  refine keepsPlaces_bind (keepsPlaces_of_same fun _ => rfl) fun p => ?_
  split
  · exact keepsPlaces_of_same fun _ => rfl
  · refine keepsPlaces_bind (keepsPlaces_insertNode name) fun entry => ?_
    refine keepsPlaces_bind (keepsPlaces_insertNode name) fun exit => ?_
    refine keepsPlaces_bind (keepsPlaces_of_same fun _ => rfl) fun _ => ?_
    exact keepsPlaces_of_same fun _ => rfl

theorem keepsPlaces_call (callSite returnSite : Nat) (callee : String) (statement : T) :
    (call callSite returnSite callee statement).KeepsPlaces := by
  refine keepsPlaces_bind keepsPlaces_ask fun _ => ?_
  refine keepsPlaces_bind keepsPlaces_ask fun procedure => ?_
  refine keepsPlaces_bind (keepsPlaces_insertTransition _) fun _ => ?_
  exact keepsPlaces_bind (keepsPlaces_insertTransition _) fun _ => keepsPlaces_insertTransition _

end Build

namespace Program

theorem placed_onto (a : Addition T) {p : Program T} (h : p.Placed) : (a.onto p).Placed := by
  cases a with
  | procedure name => exact Build.keepsPlaces_addProcedure name _ h
  | node procedure => exact Build.keepsPlaces_addNode procedure _ h
  | errorNode procedure =>
    refine Build.keepsPlaces_bind (Build.keepsPlaces_addNode procedure) (fun index => ?_) _ h
    exact Build.keepsPlaces_bind (Build.keepsPlaces_changeNode index _) fun _ =>
      Build.keepsPlaces_of_same fun _ => rfl
  | error index isError => exact Build.keepsPlaces_changeNode index _ _ h
  | comment index comment => exact Build.keepsPlaces_changeNode index _ _ h
  | internal head tail statement =>
    exact Build.keepsPlaces_bind Build.keepsPlaces_ask
      (fun _ => Build.keepsPlaces_insertTransition _) _ h
  | call callSite returnSite callee statement =>
    exact Build.keepsPlaces_call callSite returnSite callee statement _ h
  | externalCall callSite returnSite statement =>
    exact Build.keepsPlaces_bind Build.keepsPlaces_ask
      (fun _ => Build.keepsPlaces_insertTransition _) _ h

theorem Built.placed {p : Program T} (h : p.Built) : p.Placed := by
  obtain ⟨additions, rfl⟩ := h
  have hfold : ∀ p : Program T, p.Placed →
      (additions.foldl (fun p a => a.onto p) p).Placed := by
    induction additions with
    | nil => exact fun _ hp => hp
    | cons a additions ih => exact fun p hp => ih _ (placed_onto a hp)
  exact hfold .empty fun arc t hfind => by cases hfind

/-! ## §3. Scopes and loops of programs. -/

/-- The transitions out of a node are found at arcs from it. -/
theorem find?_of_outOf {p : Program T} {index : Nat} {t : Transition T} (ht : t ∈ p.outOf index) :
    ∃ tail, p.graph.edges.find? ⟨index, tail⟩ = some t := by
  unfold outOf Digraph.edgesOut at ht
  cases hsucc : p.graph.successors.find? index with
  | none => simp [hsucc, Except.toOption] at ht
  | some tails =>
    simp only [hsucc, Except.toOption, Option.getD_some, List.mem_filterMap] at ht
    obtain ⟨tail, -, hfind⟩ := ht
    exact ⟨tail, hfind⟩

theorem mem_allTransitions {p : Program T} {index : Nat} {t : Transition T}
    (ht : t ∈ p.outOf index) : t ∈ p.allTransitions := by
  obtain ⟨tail, hfind⟩ := find?_of_outOf ht
  exact SortedMap.mem_values.mpr ⟨_, hfind⟩

/-- The transitions out of a node start there. -/
theorem Placed.head_of_outOf {p : Program T} (h : p.Placed) {index : Nat} {t : Transition T}
    (ht : t ∈ p.outOf index) : t.head = index := by
  obtain ⟨tail, hfind⟩ := find?_of_outOf ht
  exact congrArg Arc.head (h _ t hfind)

theorem Placed.standIn {p : Program T} (h : p.Placed) {call u : Transition T}
    (hu : p.summaryOf call = some u) : u.kind = .summary true ∧ u.head = call.head := by
  unfold summaryOf at hu
  split at hu
  · have hkind := List.find?_some hu
    exact ⟨by simpa [Transition.standsForCall] using hkind,
      h.head_of_outOf (List.mem_of_find?_eq_some hu)⟩
  · cases hu

/-- Computations over a program put together by additions have a coherent control flow, whatever
the table of its loops. -/
theorem Built.coherent {S : Type} {p : Program T} (hp : p.Built) {table : LoopTable}
    {e : Engine Nat (Transition T) S} (htransitions : e.transitions = p.transitions)
    (hloops : e.entersLoop = table.isEntered) : e.Coherent := by
  have hplaced := hp.placed
  -- Loops are entered, and calls are stood for, by transitions that leave no scope.
  have hintra : ∀ {t : Transition T}, e.entersLoop t = true → t.isIntraprocedural = true := by
    intro t ht
    rw [hloops] at ht
    unfold LoopTable.isEntered at ht
    rw [Bool.and_eq_true] at ht
    exact ht.1
  have hleaves : ∀ {t : Transition T} {scope}, t.isIntraprocedural = true →
      e.transitions.leavesScope t scope = false := by
    intro t scope ht
    rw [htransitions]
    cases scope with
    | none => rfl
    | some call =>
      unfold Transition.isIntraprocedural at ht
      cases hkind : t.kind <;> simp_all [transitions, Transition.returnsFrom]
  have hsummary : ∀ {t : Transition T}, t.kind = .summary true → t.isIntraprocedural = true := by
    intro t ht
    simp [Transition.isIntraprocedural, ht]
  constructor
  case source_of_actionsFrom =>
    intro l t ht
    rw [htransitions] at ht ⊢
    exact hplaced.head_of_outOf ht
  case source_of_following =>
    intro t u scope hu
    rw [htransitions] at hu ⊢
    exact hplaced.head_of_outOf (List.mem_of_mem_filter hu)
  case leaves_none =>
    intro t
    rw [htransitions]
    rfl
  case leaves_of_enters =>
    intro t scope ht
    rw [htransitions] at ht ⊢
    have hkind : t.kind = .call := by simpa [transitions, Transition.isCall] using ht
    cases scope with
    | none => rfl
    | some call => simp [transitions, Transition.returnsFrom, hkind]
  case enters_of_standIn =>
    intro t u hu
    rw [htransitions] at hu ⊢
    have hu : p.summaryOf t = some u := hu
    unfold summaryOf at hu
    split at hu
    · rename_i hcall
      exact hcall
    · cases hu
  case standIn_enters =>
    intro t u hu
    rw [htransitions] at hu ⊢
    simp [transitions, Transition.isCall, (hplaced.standIn hu).1]
  case standIn_leaves =>
    intro t u scope hu
    rw [htransitions] at hu
    exact hleaves (hsummary (hplaced.standIn hu).1)
  case standIn_source =>
    intro t u hu
    rw [htransitions] at hu ⊢
    exact (hplaced.standIn hu).2
  case loop_enters =>
    intro t ht
    rw [htransitions]
    have := hintra ht
    cases hkind : t.kind <;> simp_all [transitions, Transition.isCall, Transition.isIntraprocedural]
  case loop_leaves =>
    intro t scope ht
    exact hleaves (hintra ht)

end Program

end Interproc
