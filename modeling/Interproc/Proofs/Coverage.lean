/-
  Interproc.Proofs.Coverage
  ─────────────────────────
  Executions that a finished computation covers.  A relation between abstract states
  and values says which values a state describes, and another what actions do to
  values.  If every state that describes values was delivered, then the states of the
  computation describe all values that executions lead to: calls lead into the
  activation that answers them, and returns lead back to where the call came from.

  Main results: `Engine.Covering.closed` — finished computations that deliver all states
  are closed under what actions do — and `Engine.Closed.walk` — executions stay within
  what is closed.
-/
import Mathlib
import Interproc.Proofs.Deliveries

namespace Interproc

variable {L A S X : Type} [DecidableEq L] [AbstractState S]

/-! ## §1. Values on their way. -/

/-- The action that entered the scope of a layer. -/
def Contexts.scopeOf (F : Contexts L A S) (layer : LayerId) : Option A :=
  (F layer).scopes.head?.map Scope.action

/-- A value is described by a state that an item carries along an action in a layer. -/
def Carried (R : S → X → Prop) (W : Set (Item L A S)) (layer : LayerId) (action : A) (x : X) :
    Prop :=
  ∃ i ∈ W, ∃ t, i.Carries layer action t ∧ R t x

/-- A value is described by what is stored for a location in a layer. -/
def Layers.Describes (R : S → X → Prop) (m : Layers L A S) (layer : LayerId) (location : L)
    (x : X) : Prop :=
  ∃ t, m.Keeps layer location t ∧ R t x

namespace Engine

variable (e : Engine L A S) (R : S → X → Prop) (next : A → X → X → Prop)
variable (F : Contexts L A S) (W : Set (Item L A S)) (layers : Layers L A S)

/-- States describe values so that the states after an action describe the values after it. -/
structure Sound : Prop where
  mono : ∀ {s t x}, isBelow s t = true → R s x → R t x
  proper : ∀ {s x}, R s x → isBottom s = false
  step : ∀ {item post t x y}, e.evaluate item = .ok post → t ∈ item.pre.states → R t x →
    next item.action x y → (∀ before ∈ item.beforeScope, before.states ≠ []) →
    ∃ t' ∈ post.states, R t' y

/-- A value after an action is stored at its target, and carried on. -/
def Arrives (layer : LayerId) (action : A) (x : X) : Prop :=
  layers.Describes R layer (e.transitions.target action) x ∧
    ∀ b ∈ e.onward action (F.scopeOf layer), Carried R W layer b x

/-- The values with which the activation of a call returns arrive in another layer. -/
def Returns (inner : LayerId) (call : A) (outer : LayerId) : Prop :=
  ∀ r x y, e.transitions.leavesScope r (some call) = true → Carried R W inner r x → next r x y →
    e.Arrives R F W layers outer r y

/-- All values arrive, those after calls in an activation that returns to the call. -/
structure Closed : Prop where
  within : ∀ {layer b x y}, Carried R W layer b x → next b x y →
    e.transitions.entersScope b = false →
    e.transitions.leavesScope b (F.scopeOf layer) = false → e.Arrives R F W layers layer b y
  enters : ∀ {layer b x y}, Carried R W layer b x → next b x y →
    e.transitions.entersScope b = true → ∃ inner, F.scopeOf inner = some b ∧
      e.Returns R next F W layers inner b layer ∧ e.Arrives R F W layers inner b y

/-- A layer stands for a stack of open calls, the innermost first: each call is answered by an
activation that returns to the layer of the call. -/
inductive Stacked : List A → LayerId → Prop where
  | root (hroot : F.scopeOf Layers.root = none) : Stacked [] Layers.root
  | push {calls : List A} {layer inner : LayerId} {call : A} (hcalls : Stacked calls layer)
      (hscope : F.scopeOf inner = some call)
      (hreturns : e.Returns R next F W layers inner call layer) : Stacked (call :: calls) inner

variable {e R next F W layers}

theorem Stacked.scopeOf {calls : List A} {layer : LayerId}
    (h : e.Stacked R next F W layers calls layer) : F.scopeOf layer = calls.head? := by
  cases h with
  | root hroot => exact hroot
  | push _ hscope => exact hscope

variable {s : RunState L A S}

/-- A value described by a state that was delivered arrives. -/
theorem Delivered.arrives (hsound : e.Sound R next) {layer : LayerId} {action : A}
    {d : Disjunction S} (h : e.Delivered W layers layer action (F.scopeOf layer) d) {t : S} {x : X}
    (ht : d.Covers t) (hx : R t x) : e.Arrives R F W layers layer action x := by
  obtain ⟨t', ht', hbelow⟩ := ht
  have hx' := hsound.mono hbelow hx
  obtain ⟨hkeeps, hcarried⟩ := h t' ht' (hsound.proper hx')
  refine ⟨⟨t', hkeeps, hx'⟩, fun b hb => ?_⟩
  obtain ⟨i, hi, hcarries⟩ := hcarried b hb
  exact ⟨i, hi, t', hcarries, hx'⟩

/-! ## §2. Finished computations. -/

variable (e F) in
/-- An item leaves the scope of a call by an action, and lands where the call came from. -/
structure LeadsBack (call : Item L A S) (action : A) (item : Item L A S) : Prop where
  summary : item.summary = none
  action_eq : item.action = action
  leaves : e.leaves item = true
  scope : ∃ scope, item.scopes.head? = some scope ∧ scope.action = call.action ∧
    scope.before = call.pre
  before : ∀ before ∈ item.beforeScope, before.states ≠ []
  lands : e.landing item = call.currentLayer
  outside : (e.advanced item).currentScope = F.scopeOf call.currentLayer

namespace Covering

variable [DecidableEq A]

/-- An item of a layer has the scopes of the layer. -/
theorem scopes_eq (h : e.Covering F W s) {i : Item L A S} (hi : i ∈ W)
    (hreturned : i.returned = false) : i.scopes = (F i.currentLayer).scopes ∧
      i.currentLayer.index < s.layers.size ∧ i.rootLayer = Layers.root := by
  obtain ⟨layer, hwithin⟩ := h.within i hi hreturned
  have hF : F.WellFormed (fun _ _ => True) s.layers.size :=
    h.backed.framed.wellFormed.mono (fun _ _ _ => trivial) fun _ _ => rfl
  rw [hwithin.currentLayer hF]
  exact ⟨hwithin.scopes, hwithin.lt, hwithin.root⟩

/-- Scopes are entered from some state. -/
theorem before_ne_nil (h : e.Covering F W s) {i : Item L A S} (hi : i ∈ W)
    (hreturned : i.returned = false) : ∀ before ∈ i.beforeScope, before.states ≠ [] := by
  obtain ⟨hscopes, hlt, -⟩ := h.scopes_eq hi hreturned
  intro before hbefore
  unfold Item.beforeScope at hbefore
  rw [hscopes] at hbefore
  obtain ⟨scope, hscope, rfl⟩ := Option.map_eq_some_iff.mp hbefore
  exact (h.entries _ hlt scope hscope).1

/-- Only calls are stepped over. -/
theorem summary_of_stays (hc : e.Coherent) (h : e.Covering F W s) {i : Item L A S} (hi : i ∈ W)
    (hstays : e.transitions.entersScope i.origin = false) :
    i.summary = none ∧ i.action = i.origin := by
  unfold Item.origin at hstays ⊢
  cases hsummary : i.summary with
  | none => exact ⟨rfl, rfl⟩
  | some r =>
    rw [hsummary] at hstays
    have henters := hc.enters_of_standIn (h.standing i hi r hsummary)
    rw [Option.map_some, Option.getD_some, henters] at hstays
    cases hstays

theorem done_of_finished (h : e.Covering F W s) (hfinished : s.pending = []) {i : Item L A S}
    (hi : i ∈ W) (hsummary : i.summary = none) : ∃ post, e.Done F W s i post := by
  obtain ⟨j, hj, -⟩ | hdone := h.done i hi hsummary
  · rw [hfinished] at hj
    cases hj
  · exact hdone

/-- An item that does not leave its scope lands where it is. -/
theorem stays_eq (h : e.Covering F W s) {i : Item L A S} (hi : i ∈ W)
    (hreturned : i.returned = false)
    (hremains : e.transitions.leavesScope i.action (F.scopeOf i.currentLayer) = false) :
    e.landing i = i.currentLayer ∧ (e.advanced i).currentScope = F.scopeOf i.currentLayer := by
  have hscope : i.currentScope = F.scopeOf i.currentLayer := by
    unfold Item.currentScope
    rw [(h.scopes_eq hi hreturned).1]
    rfl
  have hleaves : e.leaves i = false := by
    unfold leaves
    rw [hscope]
    exact hremains
  constructor
  · unfold landing
    rw [hleaves]
    rfl
  · obtain ⟨loops, hadvanced⟩ := e.advanced_eq i
    rw [hadvanced, hleaves]
    exact hscope

variable [LawfulState S] in
/-- The values after an action within a scope arrive. -/
theorem within_arrives (hc : e.Coherent) (hsound : e.Sound R next) (h : e.Covering F W s)
    (hfinished : s.pending = []) {layer : LayerId} {b : A} {x y : X}
    (hcarried : Carried R W layer b x) (hnext : next b x y)
    (hstays : e.transitions.entersScope b = false)
    (hremains : e.transitions.leavesScope b (F.scopeOf layer) = false) :
    e.Arrives R F W s.layers layer b y := by
  obtain ⟨i, hi, t, ⟨hreturned, rfl, rfl, t₁, ht₁, hbelow⟩, hx⟩ := hcarried
  obtain ⟨hsummary, haction⟩ := h.summary_of_stays hc hi hstays
  rw [← haction] at hnext hstays hremains ⊢
  obtain ⟨post, hdone⟩ := h.done_of_finished hfinished hi hsummary
  obtain ⟨hlanding, hadvanced⟩ := h.stays_eq hi hreturned hremains
  obtain ⟨t', ht', hy⟩ := hsound.step hdone.evaluates ht₁ (hsound.mono hbelow hx) hnext
    (h.before_ne_nil hi hreturned)
  have hdelivered := hdone.delivered hstays
  rw [hlanding, hadvanced] at hdelivered
  exact hdelivered.arrives hsound (Disjunction.covers_of_mem ht') hy

/-- An item that leaves a scope lands where the scope was entered from. -/
theorem leaves_eq (h : e.Covering F W s) {i : Item L A S} (hi : i ∈ W)
    (hreturned : i.returned = false) {scope : Scope A S} {outer : LayerId}
    (hbelow : F.Below (fun _ _ => True) outer i.currentLayer scope)
    (hleaves : e.leaves i = true) :
    e.landing i = outer ∧ (e.advanced i).currentScope = F.scopeOf outer := by
  have hF : F.WellFormed (fun _ _ => True) s.layers.size :=
    h.backed.framed.wellFormed.mono (fun _ _ _ => trivial) fun _ _ => rfl
  obtain ⟨hscopes, hlt, hroot⟩ := h.scopes_eq hi hreturned
  obtain ⟨loops, hadvanced⟩ := e.advanced_eq i
  have houtside : (e.advanced i).scopes = (F outer).scopes := by
    rw [hadvanced, hleaves, hscopes, hbelow.scopes]
    rfl
  constructor
  · rw [← advanced_currentLayer]
    unfold Item.currentLayer
    rw [houtside, show (e.advanced i).rootLayer = Layers.root by rw [hadvanced]; exact hroot]
    exact hF.layer_of_head (hbelow.lt.trans hlt)
  · unfold Item.currentScope
    rw [houtside]
    rfl

/-- A value that is carried along a return of an activation is carried back to every call that
entered the activation, or waits for it. -/
theorem leadsBack (hc : e.Coherent) (hsound : e.Sound R next) (h : e.Covering F W s)
    (hfinished : s.pending = []) {call : Item L A S} (hcall : call ∈ W)
    (hreturned : call.returned = false) {d : Disjunction S} {inner : LayerId} {scope : Scope A S}
    (hanswered : Answered F s call d inner scope) {r : A} {x : X}
    (hleaves : e.transitions.leavesScope r (some call.action) = true)
    (hcarried : Carried R W inner r x) :
    ∃ j ∈ W, e.LeadsBack F call r j ∧ ∃ t ∈ j.pre.states, R t x := by
  obtain ⟨i, hi, t, ⟨hi_returned, rfl, rfl, t₁, ht₁, hbelow⟩, hx⟩ := hcarried
  have hstays : e.transitions.entersScope i.origin = false := hc.enters_of_leaves hleaves
  obtain ⟨hsummary, haction⟩ := h.summary_of_stays hc hi hstays
  rw [← haction] at hleaves ⊢
  have hx₁ := hsound.mono hbelow hx
  obtain ⟨hscopes, -⟩ := h.scopes_eq hi hi_returned
  have hileaves : e.leaves i = true := by
    unfold leaves Item.currentScope
    rw [hscopes, hanswered.head, Option.map_some, hanswered.action]
    exact hleaves
  cases hanswered.answers with
  | entered hbelow hbefore =>
    obtain ⟨hlanding, hscope⟩ := h.leaves_eq hi hi_returned hbelow hileaves
    refine ⟨i, hi, ⟨hsummary, rfl, hileaves, ⟨scope, ?_, hanswered.action, hbefore⟩,
      h.before_ne_nil hi hi_returned, hlanding, hscope⟩, t₁, ht₁, hx₁⟩
    rw [hscopes]
    exact hanswered.head
  | @waits k c hwaits hget hcaction hpre hcscopes hroot =>
    -- The exit was recorded, and handed to the call as an item of its own.
    obtain ⟨post, hdone⟩ := h.done_of_finished hfinished hi hsummary
    obtain ⟨exit, hexit, hexitAction, t₂, ht₂, hbelow₂⟩ :=
      hdone.exits hileaves hi_returned t₁ ht₁ (hsound.proper hx₁)
    have hne := h.calls _ k hwaits c hget
    have hp := h.informed _ k hwaits c hget exit hexit
    rw [hexitAction] at hp
    generalize exit.predecessor = p at hp
    have hjleaves : e.leaves (.returning exit.state i.action p c i.currentLayer) = true := by
      show e.transitions.leavesScope i.action (some c.action) = true
      rw [hcaction]
      exact hleaves
    obtain ⟨loops, hadvanced⟩ := e.advanced_eq (.returning exit.state i.action p c i.currentLayer)
    refine ⟨_, hp, ⟨rfl, rfl, hjleaves, ⟨_, rfl, hcaction, hpre⟩, ?_, ?_, ?_⟩, t₂, ht₂,
      hsound.mono hbelow₂ hx₁⟩
    · intro before hbefore
      cases hbefore
      exact hne
    · rw [← advanced_currentLayer, hadvanced, hjleaves]
      unfold Item.currentLayer
      rw [← hcscopes, ← hroot]
      rfl
    · rw [hadvanced, hjleaves]
      unfold Item.currentScope Contexts.scopeOf
      rw [← (h.scopes_eq hcall hreturned).1, ← hcscopes]
      rfl

variable [LawfulState S]

/-- An activation returns to a call that entered it, or waits for it. -/
theorem returns (hc : e.Coherent) (hsound : e.Sound R next) (h : e.Covering F W s)
    (hfinished : s.pending = []) {call : Item L A S} (hcall : call ∈ W)
    (hreturned : call.returned = false) {d : Disjunction S} {inner : LayerId} {scope : Scope A S}
    (hanswered : Answered F s call d inner scope) :
    e.Returns R next F W s.layers inner call.action call.currentLayer := by
  intro r x y hleaves hcarried hnext
  obtain ⟨j, hj, hback, t, ht, hx⟩ :=
    h.leadsBack hc hsound hfinished hcall hreturned hanswered hleaves hcarried
  obtain ⟨post, hdone⟩ := h.done_of_finished hfinished hj hback.summary
  have hstays : e.transitions.entersScope j.action = false := hc.enters_of_leaves hback.leaves
  rw [← hback.action_eq] at hnext ⊢
  obtain ⟨t', ht', hy⟩ := hsound.step hdone.evaluates ht hx hnext hback.before
  have hdelivered := hdone.delivered hstays
  rw [hback.lands, hback.outside] at hdelivered
  exact hdelivered.arrives hsound (Disjunction.covers_of_mem ht') hy

/-- The values after a call arrive in an activation that returns to the call. -/
theorem enters_arrives (hsound : e.Sound R next) (h : e.Covering F W s) {i : Item L A S}
    {d : Disjunction S} {inner : LayerId} {scope : Scope A S}
    (hanswered : Answered F s i d inner scope) {t : S} {y : X} (ht : d.Covers t) (hy : R t y) :
    F.scopeOf inner = some i.action ∧ e.Arrives R F W s.layers inner i.action y := by
  have hscope : F.scopeOf inner = some i.action := by
    unfold Contexts.scopeOf
    rw [hanswered.head, Option.map_some, hanswered.action]
  obtain ⟨-, hdelivered⟩ := h.entries inner hanswered.lt scope hanswered.head
  rw [hanswered.action, ← hscope] at hdelivered
  exact ⟨hscope, hdelivered.arrives hsound (ht.of_isSubset hanswered.covers) hy⟩

/-- A finished computation is closed, if the values after calls that were stepped over arrive. -/
theorem closed (hc : e.Coherent) (hsound : e.Sound R next) (h : e.Covering F W s)
    (hfinished : s.pending = [])
    (hover : ∀ i ∈ W, ∀ r, i.summary = some r → ∀ t x y, i.Carries i.currentLayer r.call t →
      R t x → next r.call x y → ∃ inner, F.scopeOf inner = some r.call ∧
        e.Returns R next F W s.layers inner r.call i.currentLayer ∧
        e.Arrives R F W s.layers inner r.call y) :
    e.Closed R next F W s.layers where
  within := h.within_arrives hc hsound hfinished
  enters := by
    intro layer b x y hcarried hnext henters
    obtain ⟨i, hi, t, ⟨hreturned, rfl, rfl, hcovers⟩, hx⟩ := hcarried
    cases hsummary : i.summary with
    | some r =>
      have horigin : i.origin = r.call := by
        unfold Item.origin
        rw [hsummary]
        rfl
      rw [horigin] at hnext ⊢
      exact hover i hi r hsummary t x y ⟨hreturned, rfl, horigin, hcovers⟩ hx hnext
    | none =>
      have horigin : i.origin = i.action := by
        unfold Item.origin
        rw [hsummary]
        rfl
      rw [horigin] at hnext henters ⊢
      obtain ⟨post, hdone⟩ := h.done_of_finished hfinished hi hsummary
      -- The call was interpreted, and an activation answers it, as its states are not bottom.
      obtain ⟨t₁, ht₁, hbelow⟩ := hcovers
      obtain ⟨t', ht', hy⟩ := hsound.step hdone.evaluates ht₁ (hsound.mono hbelow hx) hnext
        (h.before_ne_nil hi hreturned)
      obtain hbottom | ⟨inner, scope, hanswered⟩ := hdone.answered henters
      · have hproper := hsound.proper hy
        rw [Disjunction.isBottom_iff.mp hbottom t' ht'] at hproper
        cases hproper
      · obtain ⟨hscope, harrives⟩ := h.enters_arrives hsound hanswered
          (Disjunction.covers_of_mem ht') hy
        exact ⟨inner, hscope, h.returns hc hsound hfinished hi hreturned hanswered, harrives⟩

end Covering

/-! ## §3. Executions. -/

variable (e) in
/-- The calls that are open after an action, the innermost first. -/
def opened (calls : List A) (b : A) : List A :=
  if e.transitions.entersScope b then b :: calls
  else if e.transitions.leavesScope b calls.head? then calls.tail
  else calls

variable (e next) in
/-- Executions that begin at a start with one of the given values: the calls that are open after
the last action, and the value there. -/
inductive Walk (initial : X → Prop) (starts : List L) : List A → A → X → Prop where
  | first {l : L} {a : A} {x y : X} (hl : l ∈ starts) (ha : a ∈ e.transitions.actionsFrom l)
      (hx : initial x) (hnext : next a x y) : Walk initial starts (e.opened [] a) a y
  | step {calls : List A} {a b : A} {x y : X} (h : Walk initial starts calls a x)
      (hb : b ∈ e.onward a calls.head?) (hnext : next b x y) :
      Walk initial starts (e.opened calls b) b y

/-- A value that is carried along an action arrives, with the calls that are open then. -/
theorem Closed.arrives (hc : e.Coherent) (h : e.Closed R next F W layers) {calls : List A}
    {layer : LayerId} (hcalls : e.Stacked R next F W layers calls layer) {b : A} {x y : X}
    (hcarried : Carried R W layer b x) (hnext : next b x y) :
    ∃ layer', e.Stacked R next F W layers (e.opened calls b) layer' ∧
      e.Arrives R F W layers layer' b y := by
  unfold opened
  cases henters : e.transitions.entersScope b with
  | true =>
    obtain ⟨inner, hscope, hreturns, harrives⟩ := h.enters hcarried hnext henters
    exact ⟨inner, .push hcalls hscope hreturns, harrives⟩
  | false =>
    cases hleaves : e.transitions.leavesScope b calls.head? with
    | true =>
      -- The layer answers the innermost call, so it returns to the layer of that call.
      cases hcalls with
      | root =>
        rw [List.head?_nil, hc.leaves_none] at hleaves
        cases hleaves
      | push houter _ hreturns => exact ⟨_, houter, hreturns b x y hleaves hcarried hnext⟩
    | false =>
      rw [← hcalls.scopeOf] at hleaves
      exact ⟨layer, hcalls, h.within hcarried hnext henters hleaves⟩

/-- All executions arrive, if they do so from the start. -/
theorem Closed.walk (hc : e.Coherent) (h : e.Closed R next F W layers) {initial : X → Prop}
    {starts : List L} (hroot : F.scopeOf Layers.root = none)
    (hstart : ∀ l ∈ starts, ∀ a ∈ e.transitions.actionsFrom l, ∀ x, initial x →
      Carried R W Layers.root a x) {calls : List A} {a : A} {y : X}
    (hwalk : e.Walk next initial starts calls a y) :
    ∃ layer, e.Stacked R next F W layers calls layer ∧ e.Arrives R F W layers layer a y := by
  induction hwalk with
  | first hl ha hx hnext => exact h.arrives hc (.root hroot) (hstart _ hl _ ha _ hx) hnext
  | step _ hb hnext ih =>
    obtain ⟨layer, hcalls, harrives⟩ := ih
    rw [← hcalls.scopeOf] at hb
    exact h.arrives hc hcalls (harrives.2 _ hb) hnext

end Engine

end Interproc
