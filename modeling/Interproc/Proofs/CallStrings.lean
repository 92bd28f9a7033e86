/-
  Interproc.Proofs.CallStrings
  ────────────────────────────
  The scopes of an item are a call string: each of them was entered by a call, from a
  node of the procedure that the scope around it called.  A pending item starts in the
  procedure that its innermost scope called, and once it has successors, its action has
  led to a node of the procedure that its innermost scope called by then.

  Calls and returns are the only transitions that lead to another procedure.  A call
  enters a scope for the procedure that it leads to.  A return is followed only if it
  belongs to the call of the innermost scope, and leads to the procedure of the call.

  Main result: `Engine.callString_of_reachable`.
-/
import Mathlib
import Interproc.Proofs.Progress
import Interproc.Proofs.Wiring

namespace Interproc

/-- The actions that entered the scopes of an item, the innermost one first. -/
def Item.callStack {L A S : Type} (item : Item L A S) : List A := item.scopes.map Scope.action

namespace Program

/-! ## §1. Call strings. -/

variable {T S : Type} {p : Program T} {t : Transition T} {stack : List (Transition T)} {m n : Nat}

/-- A node belongs to the procedure that the innermost scope called; outside of all scopes, there
is no such procedure. -/
def Inside (p : Program T) (stack : List (Transition T)) (n : Nat) : Prop :=
  ∀ t ∈ stack.head?, ∃ name, p.Calls t name ∧ p.Belongs n name

/-- Every scope was entered by a call of a procedure, from inside the scope around it. -/
inductive CallString (p : Program T) : List (Transition T) → Prop where
  | nil : CallString p []
  | cons {t : Transition T} {stack : List (Transition T)} (hcalls : ∃ name, p.Calls t name)
      (hinside : p.Inside stack t.head) (hstack : CallString p stack) : CallString p (t :: stack)

theorem Inside.together (h : p.Inside stack m) (hmn : p.Together m n) : p.Inside stack n := by
  intro t ht
  obtain ⟨name, hcalls, hm⟩ := h t ht
  exact ⟨name, hcalls, hmn.belongs hm⟩

theorem CallString.tail (h : p.CallString stack) : p.CallString stack.tail := by
  cases h with
  | nil => exact .nil
  | cons _ _ hstack => exact hstack

theorem Routes.calls (h : p.Routes t) (ht : t.isCall = true) : ∃ name, p.Calls t name := by
  unfold Routes at h
  rw [of_decide_eq_true ht] at h
  exact h

/-- A transition that a computation may take up in the scopes of a call string: it starts in the
innermost one, and if it is a return, it belongs to the call that entered it. -/
structure Ready (p : Program T) (stack : List (Transition T)) (t : Transition T) : Prop where
  routes : p.Routes t
  string : p.CallString stack
  inside : p.Inside stack t.head
  returns : ∀ callSite, t.kind = .ret callSite → ∀ call ∈ stack.head?, t.returnsFrom call = true

/-- A call leads into the scope that it enters. -/
theorem Ready.enter (hp : p.Wired) (h : p.Ready stack t) (ht : t.isCall = true) :
    p.CallString (t :: stack) ∧ p.Inside (t :: stack) t.tail := by
  refine ⟨.cons (h.routes.calls ht) h.inside h.string, fun u hu => ?_⟩
  cases hu
  obtain ⟨name, hcalls⟩ := h.routes.calls ht
  exact ⟨name, hcalls, hp.belongs_tail hcalls⟩

/-- What is no call leads into the scope that is the innermost one then: a return leaves a scope,
and all else stays. -/
theorem Ready.leave (h : p.Ready stack t) (ht : t.isCall = false) :
    p.Inside (if stack.head?.any t.returnsFrom then stack.tail else stack) t.tail := by
  have hstays : (∀ call, t.returnsFrom call = false) → p.Together t.head t.tail →
      p.Inside (if stack.head?.any t.returnsFrom then stack.tail else stack) t.tail := by
    intro hno htogether
    have hany : stack.head?.any t.returnsFrom = false := by
      cases stack <;> simp [hno]
    rw [hany]
    exact h.inside.together htogether
  have hroutes := h.routes
  unfold Routes at hroutes
  unfold Transition.isCall at ht
  cases hkind : t.kind with
  | internal =>
    rw [hkind] at hroutes
    exact hstays (fun call => by simp [Transition.returnsFrom, hkind]) hroutes
  | summary hasImplementation =>
    rw [hkind] at hroutes
    exact hstays (fun call => by simp [Transition.returnsFrom, hkind]) hroutes
  | call =>
    rw [hkind] at ht
    cases ht
  | ret callSite =>
    rw [hkind] at hroutes
    cases hstack : stack with
    | nil => exact fun _ hu => by cases hu
    | cons call rest =>
      have hreturns := h.returns callSite hkind call (by rw [hstack]; rfl)
      rw [List.head?_cons, Option.any_some, if_pos hreturns, List.tail_cons]
      -- The call was made from the call site, inside of the scope around.
      have hsite : call.head = callSite := by
        unfold Transition.returnsFrom at hreturns
        rw [hkind, Bool.and_eq_true] at hreturns
        exact of_decide_eq_true hreturns.2
      have hstring := h.string
      rw [hstack] at hstring
      cases hstring with
      | cons _ hinside _ =>
        rw [hsite] at hinside
        exact hinside.together hroutes

/-- Calls enter scopes, and returns leave them. -/
theorem separate (p : Program T) : p.transitions.Separate := by
  intro t scope ht
  have hkind : t.kind = .call := of_decide_eq_true ht
  cases scope with
  | none => rfl
  | some call => simp [transitions, Transition.returnsFrom, hkind]

theorem Wired.routes_of_outOf (hp : p.Wired) (ht : t ∈ p.outOf n) : p.Routes t := by
  obtain ⟨tail, hfind⟩ := find?_of_outOf ht
  exact hp.routes _ t hfind

end Program

namespace Engine

variable {T S : Type} {p : Program T}
variable {e : Engine Nat (Transition T) S} {s s' : RunState Nat (Transition T) S}
variable {id j : ItemId} {item final i : Item Nat (Transition T) S}
variable {post widened : Disjunction S} {layer : LayerId} {starts : List Nat}
variable {F : Contexts Nat (Transition T) S} {x : ScopeExit (Transition T) S}
variable {exits : Exits (Transition T) S} {summaries : Summaries (Transition T) S}
variable {new : List (Item Nat (Transition T) S)}

/-! ## §2. Items that move. -/

theorem callStack_advanced (htransitions : e.transitions = p.transitions) (item) :
    (e.advanced item).callStack = if item.callStack.head?.any item.action.returnsFrom then
      item.callStack.tail else item.callStack := by
  have hleaves : e.leaves item = item.callStack.head?.any item.action.returnsFrom := by
    unfold leaves Item.currentScope Item.callStack
    rw [htransitions, List.head?_map]
    rfl
  obtain ⟨loops, hadvanced⟩ := e.advanced_eq item
  rw [hadvanced, hleaves]
  unfold Item.callStack
  split
  · show item.scopes.tail.map Scope.action = _
    rw [List.map_tail]
  · rfl

theorem callString_advanced (htransitions : e.transitions = p.transitions)
    (h : p.CallString item.callStack) : p.CallString (e.advanced item).callStack := by
  rw [callStack_advanced htransitions]
  split
  · exact h.tail
  · exact h

variable [DecidableEq T] [AbstractState S]

/-- An item that stores states has moved into the scope that its action leads into. -/
theorem Stores.inside (hp : p.Wired) (htransitions : e.transitions = p.transitions)
    (h : e.Stores item post final widened s s') (hready : p.Ready item.callStack item.action) :
    p.CallString final.callStack ∧ p.Inside final.callStack final.action.tail := by
  have hsep : e.transitions.Separate := htransitions ▸ p.separate
  rw [h.action_eq]
  cases hcall : item.action.isCall with
  | true =>
    have henters : e.transitions.entersScope item.action = true := by
      rw [htransitions]
      exact hcall
    have hstack : final.callStack = item.action :: item.callStack := by
      rw [(h.entered henters).1]
      show item.action :: (e.advanced item).scopes.map Scope.action = _
      rw [advanced_scopes_of_enters hsep henters]
      rfl
    rw [hstack]
    exact hready.enter hp hcall
  | false =>
    have hstays : e.transitions.entersScope item.action = false := by
      rw [htransitions]
      exact hcall
    rw [(h.stayed hstays).1]
    refine ⟨callString_advanced htransitions hready.string, ?_⟩
    rw [callStack_advanced htransitions]
    exact hready.leave hcall

/-- The scopes of the item that was processed are a call string, however the pass ended. -/
theorem EndPart.callString (hp : p.Wired) (htransitions : e.transitions = p.transitions)
    (h : e.EndPart id item post s exits summaries final new s')
    (hready : p.Ready item.callStack item.action) : p.CallString final.callStack := by
  cases h with
  | infeasible _ hfinal => exact hfinal ▸ hready.string
  | covered _ _ _ hfinal => exact hfinal ▸ hready.string
  | coveredCall _ _ _ _ hfinal => exact hfinal ▸ hready.string
  | loopFixpoint _ _ _ _ _ _ _ _ hfinal =>
    exact hfinal ▸ callString_advanced htransitions hready.string
  | entryFixpoint _ _ _ _ _ _ _ _ _ hfinal =>
    exact hfinal ▸ callString_advanced htransitions hready.string
  | stored hpost _ _ hwiden henter _ hadd =>
    have hstores : e.Stores item post final _ s s' := ⟨hpost, hwiden, _, _, henter, hadd⟩
    exact (hstores.inside hp htransitions hready).1

/-- A call that starts to wait does not enter its scope. -/
theorem EndPart.callString_of_waiting (htransitions : e.transitions = p.transitions)
    (h : e.EndPart id item post s exits summaries final new s')
    (hready : p.Ready item.callStack item.action)
    (hold : id ∉ (exits.activation layer).calls)
    (hcall : id ∈ (s'.exits.activation layer).calls) :
    p.CallString (final.action :: final.callStack) := by
  have hsep : e.transitions.Separate := htransitions ▸ p.separate
  have hnot : s'.exits = exits → p.CallString (final.action :: final.callStack) := by
    intro hexits
    rw [hexits] at hcall
    exact absurd hcall hold
  have hwaits : e.transitions.entersScope item.action = true → final.action = item.action →
      final.scopes = item.scopes → p.CallString (final.action :: final.callStack) := by
    intro henters haction hscopes
    rw [htransitions] at henters
    unfold Item.callStack
    rw [haction, hscopes]
    exact .cons (hready.routes.calls henters) hready.inside hready.string
  cases h with
  | infeasible _ _ _ _ hexits => exact hnot hexits
  | covered _ _ _ _ _ _ hexits => exact hnot hexits
  | coveredCall _ _ henters _ hfinal => exact hwaits henters (by rw [hfinal]) (by rw [hfinal])
  | loopFixpoint _ _ _ _ _ _ _ _ _ _ _ hexits => exact hnot hexits
  | entryFixpoint _ _ _ henters _ _ _ _ _ hfinal =>
    refine hwaits henters ?_ ?_
    · rw [hfinal, advanced_action]
    · rw [hfinal, advanced_scopes_of_enters hsep henters]
  | stored _ _ _ _ _ _ _ _ _ _ hexits => exact hnot hexits

omit [DecidableEq T] [AbstractState S] in
/-- An action along which an item goes on may be taken up. -/
theorem ready_of_goesOn (hp : p.Built) (htransitions : e.transitions = p.transitions)
    {action : Transition T} (hmem : action ∈ e.goesOn final)
    (hfinal : p.CallString final.callStack ∧ p.Inside final.callStack final.action.tail) :
    p.Ready final.callStack action := by
  have hfollows : action ∈ p.following final.action final.currentScope := by
    have hfollows := List.mem_of_mem_filter hmem
    rw [htransitions] at hfollows
    exact hfollows
  obtain ⟨hout, hreturn⟩ := List.mem_filter.mp hfollows
  refine ⟨hp.wired.routes_of_outOf hout, hfinal.1, ?_, fun callSite hkind call hcall => ?_⟩
  · rw [hp.placed.head_of_outOf hout]
    exact hfinal.2
  · rw [hkind] at hreturn
    obtain ⟨call', hcall', hreturns⟩ := (Option.any_eq_true _ _).mp hreturn
    unfold Item.callStack at hcall
    rw [List.head?_map] at hcall
    rw [Item.currentScope, hcall] at hcall'
    cases hcall'
    exact hreturns

omit [DecidableEq T] in
/-- So may the transition that stands for a call. -/
theorem ready_of_standIn (hp : p.Built) {call standIn : Transition T}
    {stack : List (Transition T)} (hstandIn : p.summaryOf call = some standIn)
    (hstack : p.CallString stack) (hinside : p.Inside stack call.head) :
    p.Ready stack standIn := by
  obtain ⟨hkind, hhead⟩ := hp.placed.standIn hstandIn
  have hout : standIn ∈ p.outOf call.head := by
    unfold Program.summaryOf at hstandIn
    split at hstandIn
    · exact List.mem_of_find?_eq_some hstandIn
    · cases hstandIn
  refine ⟨hp.wired.routes_of_outOf hout, hstack, by rw [hhead]; exact hinside, fun _ hret => ?_⟩
  rw [hkind] at hret
  cases hret

variable (e) in
/-- Successors go on in the scopes of their predecessor. -/
theorem callStack_successorOf (summaries : Summaries (Transition T) S) (id : ItemId)
    (final : Item Nat (Transition T) S) (widened : Disjunction S) (action : Transition T) :
    (e.successorOf summaries id final widened action).callStack = final.callStack := by
  obtain ⟨_, _, hshape⟩ := e.successorOf_eq summaries id final widened action
  rw [hshape]
  rfl

theorem ready_successorOf (hp : p.Built) (htransitions : e.transitions = p.transitions)
    {action : Transition T} (hmem : action ∈ e.goesOn final)
    (hfinal : p.CallString final.callStack ∧ p.Inside final.callStack final.action.tail) :
    p.Ready final.callStack (e.successorOf summaries id final widened action).action := by
  have hready := ready_of_goesOn hp htransitions hmem hfinal
  unfold successorOf
  dsimp only
  split
  · rename_i hstandIn
    rw [htransitions] at hstandIn
    exact ready_of_standIn hp hstandIn hready.string hready.inside
  · exact hready

/-! ## §3. Computations keep call strings. -/

variable (p e) in
/-- The scopes of items are call strings, pending items may be taken up, calls wait inside of the
scope that they were to be entered from, and exits start inside of the scope of their activation. -/
structure Strung (F : Contexts Nat (Transition T) S) (s : RunState Nat (Transition T) S) :
    Prop where
  framed : e.Framed F (fun _ _ => True) s
  live : ∀ j i, s.items.get j = .ok i → p.CallString i.callStack ∧ p.Routes i.action
  pending : ∀ j ∈ s.pending, ∀ i, s.items.get j = .ok i → p.Ready i.callStack i.action
  users : ∀ j i r q, s.items.get j = .ok i → i.summary.isSome → i.predecessor = some r →
    s.items.get r = .ok q → p.Inside q.callStack i.action.head
  calls : ∀ layer, ∀ c ∈ (s.exits.activation layer).calls, ∀ i, s.items.get c = .ok i →
    p.CallString (i.action :: i.callStack)
  exits : ∀ layer, ∀ x ∈ (s.exits.activation layer).exits,
    p.Routes x.action ∧ p.Inside ((F layer).scopes.map Scope.action) x.action.head

omit [DecidableEq T] [AbstractState S] in
/-- An exit that is handed to a call may be taken up in the scope of the call. -/
theorem ready_returning {K : LayerId → ActiveLoop Nat S → Prop} {n : Nat}
    {items : Arena Nat (Transition T) S} {call : Item Nat (Transition T) S}
    (htransitions : e.transitions = p.transitions) (hF : F.WellFormed K n)
    (hwaits : WaitsFor F K n layer call) (hexit : e.ExitOf F K n items layer x)
    (hx : p.Routes x.action ∧ p.Inside ((F layer).scopes.map Scope.action) x.action.head)
    (hcall : p.CallString (call.action :: call.callStack)) :
    p.Ready (Item.returning x.state x.action x.predecessor call layer).callStack x.action := by
  -- The call waits for an activation of the same call.
  obtain ⟨⟨here, hwithin⟩, own, hown, hlayer, haction⟩ := hwaits
  rw [hwithin.scopes] at hown
  obtain ⟨-, -, hhead, -, -⟩ := hF.scopes_of_mem hwithin.lt hown
  rw [hlayer] at hhead
  have hleaves := hexit.leaves own hhead
  rw [htransitions, haction] at hleaves
  have hsame : ((F layer).scopes.map Scope.action).head? = some call.action := by
    rw [List.head?_map, hhead, Option.map_some, haction]
  refine ⟨hx.1, hcall, fun t ht => hx.2 t (hsame.trans ht), fun _ _ t ht => ?_⟩
  cases ht
  exact hleaves

/-- The calls that wait after a pass wait inside of the scope that they were to be entered from. -/
theorem Strung.calls_pass (htransitions : e.transitions = p.transitions) (hs : e.Orderly s)
    (hs' : e.Orderly s') (h : e.Strung p F s) (hpass : e.Pass id item post final s s') :
    ∀ layer, ∀ c ∈ (s'.exits.activation layer).calls, ∀ i, s'.items.get c = .ok i →
      p.CallString (i.action :: i.callStack) := by
  intro layer c hc i hi
  obtain ⟨hold, hget⟩ | ⟨rfl, rfl, -⟩ := hpass.call_cases hs hs' hc hi
  · exact h.calls layer c hold i hget
  · cases hpass with
    | intro hpop hget hexit _ hend =>
      have hid : c ∈ s.pending := Worklist.mem_of_pop hpop
      refine hend.callString_of_waiting htransitions (h.pending c hid item hget) (fun hold => ?_) hc
      -- Calls that wait are not pending.
      rw [hexit.exits_mem.1] at hold
      have hheld := Exits.held_pos_of_call hold
      exact hs.tidy.not_pending (by omega) hid

/-- The exits after a pass start inside of the scope of their activation. -/
theorem Strung.exits_pass (h : e.Strung p F s) (hpass : e.Pass id item post final s s')
    {F' : Contexts Nat (Transition T) S}
    (hF : ∀ layer : LayerId, layer.index < s.layers.size → F' layer = F layer) :
    ∀ layer, ∀ x ∈ (s'.exits.activation layer).exits,
      p.Routes x.action ∧ p.Inside ((F' layer).scopes.map Scope.action) x.action.head := by
  intro layer x hx
  have hkept : ∀ y ∈ (s.exits.activation layer).exits,
      p.Routes y.action ∧ p.Inside ((F' layer).scopes.map Scope.action) y.action.head := by
    intro y hy
    rw [hF layer (h.framed.exits layer y hy).lt]
    exact h.exits layer y hy
  cases hpass.exit_origin hx with
  | kept hold => exact hkept x hold
  | grown _ _ hold _ _ hgrow =>
    rw [(Exits.grow_ok hgrow).2.1]
    exact hkept _ hold
  | first _ hreturned hlayer =>
    have hid : id ∈ s.pending := by
      cases hpass with
      | intro hpop => exact Worklist.mem_of_pop hpop
    have hready := h.pending id hid item hpass.get
    obtain ⟨here, hwithin⟩ := h.framed.live id item hpass.get hreturned
    rw [hlayer, hwithin.currentLayer h.framed.wellFormed, hF here hwithin.lt, ← hwithin.scopes]
    exact ⟨hready.routes, hready.inside⟩

/-- Every pass keeps call strings. -/
theorem Strung.pass (hp : p.Built) (htransitions : e.transitions = p.transitions)
    (hs : e.Orderly s) (hs' : e.Orderly s') (h : e.Strung p F s)
    (hpass : e.Pass id item post final s s') :
    e.Strung p (F.extend s.layers.size ⟨final.scopes, final.loops⟩) s' := by
  have hsep : e.transitions.Separate := htransitions ▸ p.separate
  have hframed := h.framed.pass hsep hs hs' hpass (fun _ _ hl => hl) fun _ _ _ _ => trivial
  have hcalls := h.calls_pass htransitions hs hs' hpass
  have hexits := h.exits_pass hpass fun layer hlayer =>
    show F.extend s.layers.size ⟨final.scopes, final.loops⟩ layer = F layer from
      Contexts.extend_of_lt hlayer
  obtain ⟨hready, hfinal⟩ : p.Ready item.callStack item.action ∧
      p.CallString final.callStack ∧ p.Routes final.action := by
    cases hpass with
    | intro hpop hget _ _ hend =>
      have hready := h.pending id (Worklist.mem_of_pop hpop) item hget
      obtain ⟨scopes, loops, hshape⟩ := hend.final_eq
      refine ⟨hready, hend.callString hp.wired htransitions hready, ?_⟩
      rw [hshape]
      exact hready.routes
  have hstores : ∀ {widened}, e.Stores item post final widened s s' →
      p.CallString final.callStack ∧ p.Inside final.callStack final.action.tail :=
    fun hstores => hstores.inside hp.wired htransitions hready
  -- A new item is ready for its action; any other one is left behind by the pass, or was there.
  have horigin : ∀ j i, s'.items.get j = .ok i → p.Ready i.callStack i.action ∨
      i = final ∧ j ∉ s'.pending ∨ s.items.get j = .ok i ∧ (j ∈ s'.pending → j ∈ s.pending) := by
    intro j i hi
    cases hpass.origin hs hs' hi with
    | returned hexit hcall hget =>
      exact .inl (ready_returning htransitions hframed.wellFormed
        (hframed.calls _ _ hcall _ hget) (hframed.exits _ _ hexit) (hexits _ _ hexit)
        (hcalls _ _ hcall _ hget))
    | @redone k r stale q hstale hr hq hsummary =>
      -- What stands for a call starts at the call site, where the predecessor led.
      obtain ⟨summary, hsummary'⟩ := Option.isSome_iff_exists.mp hsummary
      have hstands := hs.standing k stale summary hstale hsummary'
      have hinside := h.users k stale r q hstale hsummary hr hq
      rw [htransitions] at hstands
      rw [(hp.placed.standIn hstands).2] at hinside
      exact .inl (ready_of_standIn hp hstands (h.live r q hq).1 hinside)
    | @successor widened action hstored hmem =>
      rw [callStack_successorOf]
      exact .inl (ready_successorOf hp htransitions hmem (hstores hstored))
    | final _ hsettled => exact .inr (.inl ⟨rfl, hsettled⟩)
    | old _ hold hpending => exact .inr (.inr ⟨hold, hpending⟩)
  refine ⟨hframed, fun j i hi => ?_, fun j hj i hi => ?_, fun j i r q hi hsummary hr hq => ?_,
    hcalls, hexits⟩
  · obtain hready | ⟨rfl, -⟩ | ⟨hold, -⟩ := horigin j i hi
    · exact ⟨hready.string, hready.routes⟩
    · exact hfinal
    · exact h.live j i hold
  · obtain hready | ⟨-, hsettled⟩ | ⟨hold, hpending⟩ := horigin j i hi
    · exact hready
    · exact absurd hj hsettled
    · exact h.pending j (hpending hj) i hold
  · obtain ⟨k, user, huser, hknown, hr', hq', haction, -⟩ |
      ⟨rfl, widened, action, hstored, hmem, rfl⟩ := hpass.user_cases hs hs' hi hsummary hr hq
    · rw [← haction]
      exact h.users k user r q huser hknown hr' hq'
    · exact (ready_successorOf hp htransitions hmem (hstores hstored)).inside

omit [DecidableEq T] [AbstractState S] in
theorem Strung.start : e.Strung p (fun _ => ⟨[], []⟩) (.start e.options) where
  framed := .start
  live := fun j i hi => by cases hi
  pending := fun j hj => by cases hj
  users := fun j i r q hi => by cases hi
  calls := fun layer c hc => by cases hc
  exits := fun layer x hx => by cases hx

/-- What is seeded is outside of all scopes. -/
theorem Strung.seed (hp : p.Built) (htransitions : e.transitions = p.transitions)
    (h : e.Strung p F s) {location : Nat} {action : Transition T}
    (haction : action ∈ e.transitions.actionsFrom location)
    (hseed : e.SeedPart location action s s') : e.Strung p F s' := by
  have hframed := h.framed.seed hseed fun _ _ hl => hl
  have hroutes : p.Routes action := by
    rw [htransitions] at haction
    exact hp.wired.routes_of_outOf haction
  obtain ⟨state, stored, layers, id, -, -, hgrows⟩ := hseed
  have hexits := hgrows.unmoved.exits
  refine ⟨hframed, fun j i hi => ?_, fun j hj i hi => ?_, fun j i r q hi hsummary hr hq => ?_,
    fun layer c hc i hi => ?_, ?_⟩
  · obtain ⟨rfl, rfl⟩ | ⟨hi, -⟩ := hgrows.old_singleton hi
    · exact ⟨.nil, hroutes⟩
    · exact h.live j i hi
  · obtain ⟨rfl, rfl⟩ | ⟨hi, hjold⟩ := hgrows.old_singleton hi
    · exact ⟨hroutes, .nil, fun _ ht => (nomatch ht), fun _ _ _ ht => (nomatch ht)⟩
    · exact h.pending j (hjold hj) i hi
  · have hq' := hgrows.get_predecessor hi hr hq
    obtain ⟨rfl, rfl⟩ | ⟨hi, -⟩ := hgrows.old_singleton hi
    · cases hsummary
    · exact h.users j i r q hi hsummary hr hq'
  · have hheld := Exits.held_pos_of_call hc
    rw [hexits] at hc
    exact h.calls layer c hc i (hgrows.get_before (hgrows.tidy.not_pending (by omega)) hi)
  · rw [hexits]
    exact h.exits

/-- In every reachable state, the scopes of items are call strings. -/
theorem Reachable.strung (hp : p.Built) (htransitions : e.transitions = p.transitions)
    (h : e.Reachable starts s) : e.Orderly s ∧ ∃ F, e.Strung p F s :=
  h.induct (P := fun s => ∃ F, e.Strung p F s) ⟨_, .start⟩
    (fun _ _ _ haction _ _ _ hseed ⟨F, hF⟩ => ⟨F, hF.seed hp htransitions haction hseed⟩)
    (fun _ _ _ _ _ _ hs hs' hpass ⟨_, hF⟩ => ⟨_, hF.pass hp htransitions hs hs' hpass⟩)

/-! ## §4. Items with successors. -/

variable (e) in
/-- The item at a position was processed on the way to a state and had successors then.  An item is
pending from when it is put there until it is processed, so the position holds the same item as
long as it is not pending again. -/
inductive SentOn (starts : List Nat) (id : ItemId) : RunState Nat (Transition T) S → Prop where
  | sent {s s' : RunState Nat (Transition T) S} {worklist : Worklist} {j : ItemId}
      {i : Item Nat (Transition T) S} (hs : e.Reachable starts s)
      (hiterate : e.iterate s = .ok true s') (hpop : s.worklist.pop = some (id, worklist))
      (hi : s'.items.get j = .ok i) (hpredecessor : i.predecessor = some id) :
      SentOn starts id s'
  | kept {s s' : RunState Nat (Transition T) S} (hsent : SentOn starts id s)
      (hiterate : e.iterate s = .ok true s') (hsettled : id ∉ s'.pending) : SentOn starts id s'

theorem SentOn.reachable (h : e.SentOn starts id s) : e.Reachable starts s := by
  induction h with
  | sent hs hiterate => exact hs.iterated hiterate
  | kept _ hiterate _ ih => exact ih.iterated hiterate

theorem SentOn.settled (h : e.SentOn starts id s) : id ∉ s.pending := by
  cases h with
  | sent hs hiterate _ hi hpredecessor =>
    exact ((hs.iterated hiterate).orderly.tidy.predecessor hi hpredecessor).1
  | kept _ _ hsettled => exact hsettled

/-- The action of an item with successors has led into the scope that is the item's innermost one
by then. -/
theorem SentOn.inside (hp : p.Built) (htransitions : e.transitions = p.transitions)
    (h : e.SentOn starts id s) (hi : s.items.get id = .ok i) :
    p.Inside i.callStack i.action.tail := by
  induction h with
  | @sent s s' worklist j next hs hiterate hpop hnext hpredecessor =>
    obtain ⟨hordered, F, hF⟩ := hs.strung hp htransitions
    obtain ⟨hordered', id', item, post, final, hpass⟩ := hordered.pass hiterate
    have hpass' := hpass
    cases hpass with
    | intro hpop' hget _ _ _ _ hframe =>
      rw [hpop] at hpop'
      cases hpop'
      have hready := hF.pending id (Worklist.mem_of_pop hpop) item hget
      obtain ⟨-, -, hpost, -, widened, stored, layers, previous, hwiden, henter, -, hadd⟩ :=
        hpass'.stored_of_successor hordered hnext hpredecessor
      have hstores : e.Stores item post final widened s s' :=
        ⟨hpost, hwiden, layers, stored, henter, hadd⟩
      rw [hframe.get_final (hordered'.tidy.predecessor hnext hpredecessor).1 hi]
      exact (hstores.inside hp.wired htransitions hready).2
  | @kept s s' hsent hiterate hsettled ih =>
    obtain ⟨hordered', id', item, post, final, hpass⟩ := hsent.reachable.orderly.pass hiterate
    cases hpass with
    | intro hpop _ _ _ _ _ hframe =>
      have hne : id ≠ id' := by
        rintro rfl
        exact hsent.settled (Worklist.mem_of_pop hpop)
      exact ih (hframe.get_settled hsettled hne hi)

/-- Call stacks are valid call strings, for every program put together by additions, and whatever
the domain, the declarations, the loops and the options of a computation are.  Every scope of an
item was entered by a call, from a node of the procedure that the scope around it called.  If there
is a scope, the source of the item's action belongs to the procedure that the innermost one called
while the item is pending, and the target does once it was processed and had successors. -/
theorem callString_of_reachable (hp : p.Built) (htransitions : e.transitions = p.transitions)
    (hs : e.Reachable starts s) (hi : s.items.get j = .ok i) :
    p.CallString i.callStack ∧
      (j ∈ s.pending → p.Inside i.callStack (e.transitions.source i.action)) ∧
      (e.SentOn starts j s → p.Inside i.callStack (e.transitions.target i.action)) := by
  obtain ⟨-, F, hF⟩ := hs.strung hp htransitions
  rw [htransitions]
  refine ⟨(hF.live j i hi).1, fun hj => (hF.pending j hj i hi).inside, fun hsent => ?_⟩
  exact hsent.inside hp htransitions hi

set_option maxRecDepth 100000 in
/-- The eighth item of the analysis of `ascent` is inside a call that `f` makes of itself, and so is
its successor, another such call. -/
theorem callString_of_reachable_ascent : ∃ s s' worklist item next,
    ascentIntervals.stateAfter [0] 7 = some s ∧ ascentIntervals.iterate s = .ok true s' ∧
    s.worklist.pop = some (⟨5⟩, worklist) ∧ s'.items.get ⟨5⟩ = .ok item ∧
    s'.items.get ⟨7⟩ = .ok next ∧ ⟨7⟩ ∈ s'.pending ∧ item.callStack.length = 2 ∧
    next.callStack.length = 2 ∧ ascent.CallString item.callStack ∧
    ascent.Inside item.callStack (ascentIntervals.transitions.target item.action) ∧
    ascent.CallString next.callStack ∧
    ascent.Inside next.callStack (ascentIntervals.transitions.source next.action) := by
  have hbefore : (ascentIntervals.stateAfter [0] 7).any (fun s =>
      s.worklist.pop.any fun pair => pair.1 = ⟨5⟩) = true := by
    decide +kernel
  have hcheck : (ascentIntervals.stateAfter [0] 8).any (fun s' =>
      ((s'.items.get ⟨5⟩).toOption.any fun item => item.callStack.length = 2) &&
        decide (⟨7⟩ ∈ s'.pending) && (s'.items.get ⟨7⟩).toOption.any fun next =>
          next.callStack.length = 2 && next.predecessor = some ⟨5⟩) = true := by
    decide +kernel
  obtain ⟨s', hs', hreachable, hcheck⟩ := exists_of_stateAfter hcheck
  obtain ⟨s, hs, hiterate⟩ := iterate_of_stateAfter hs'
  rw [hs, Option.any_some] at hbefore
  obtain ⟨⟨id, worklist⟩, hpop, hid⟩ := (Option.any_eq_true _ _).mp hbefore
  cases of_decide_eq_true hid
  rw [Bool.and_eq_true, Bool.and_eq_true, decide_eq_true_eq] at hcheck
  obtain ⟨⟨hitem, hpending⟩, hnext⟩ := hcheck
  obtain ⟨item, hitem, hlength⟩ := exists_of_checkItem hitem
  obtain ⟨next, hnext, hchecked⟩ := exists_of_checkItem hnext
  rw [Bool.and_eq_true, decide_eq_true_eq, decide_eq_true_eq] at hchecked
  have hsent : ascentIntervals.SentOn [0] ⟨5⟩ s' :=
    .sent (reachable_of_stateAfter hs) hiterate hpop hnext hchecked.2
  have hbuilt : ascent.Built := ⟨_, rfl⟩
  obtain ⟨hstring, -, htarget⟩ := callString_of_reachable hbuilt rfl hreachable hitem
  obtain ⟨hstring', hsource, -⟩ := callString_of_reachable hbuilt rfl hreachable hnext
  exact ⟨s, s', worklist, item, next, hs, hiterate, hpop, hitem, hnext, hpending,
    of_decide_eq_true hlength, hchecked.1, hstring, htarget hsent, hstring', hsource hpending⟩

end Engine

end Interproc
