/-
  Interproc.Proofs.Layering
  ─────────────────────────
  A layer determines its activation.  Scope stacks are copied from item to item,
  pushed and popped, and rebuilt by items that hand the exit of one activation to
  a call of another.  All the same, items of one layer have one stack, and the
  layers on it lead from parent to parent up to the root, as long as no action
  enters a scope while it leaves another.

  Main results:
    * `Engine.stack_of_layer` — the stacks of live items;
    * `Engine.not_stack_of_layer_switching` — actions that leave and enter a scope.
-/
import Mathlib
import Interproc.Proofs.Safety
import Interproc.Residue.ActionTable

namespace Interproc

variable {L A S : Type} [DecidableEq L] [DecidableEq A] [AbstractState S]

namespace Engine

variable {e : Engine L A S} {s s' : RunState L A S} {id : ItemId} {item final : Item L A S}
variable {post : Disjunction S} {exits : Exits A S} {summaries : Summaries A S}
variable {new : List (Item L A S)} {starts : List L} {F : Contexts L A S}
variable {K : LayerId → ActiveLoop L S → Prop}

/-! ## §1. Parents. -/

/-- The parent of a layer is the layer of the scope around its own. -/
def Parented (F : Contexts L A S) (m : Layers L A S) : Prop :=
  ∀ id : LayerId, id.index < m.size → id ≠ Layers.root →
    m.parent? id = some (((F id).scopes.tail.head?.map Scope.layer).getD Layers.root)

/-- Parents stay what they are, and a new layer is a child of the layer that its scope was entered
from. -/
theorem EndPart.parents (h : e.EndPart id item post s exits summaries final new s') :
    (∀ j : LayerId, j.index < s.layers.size → s'.layers.parent? j = s.layers.parent? j) ∧
      ∀ j : LayerId, ¬ j.index < s.layers.size → j.index < s'.layers.size →
        s'.layers.parent? j = some (e.advanced item).currentLayer := by
  refine ⟨fun j hj => ?_, fun j hnew hj => ?_⟩
  · obtain hlayers | ⟨_, _, -, -, hlayers, -⟩ | ⟨_, -, -, layers, _, henter, hadd⟩ := h.layers_cases
    · rw [hlayers]
    · exact (Layers.addScopeFixpoint_ok hlayers).parent_eq j
    · rw [(Layers.addState_ok hadd).parent_eq j]
      generalize s.layers = before at henter hj
      cases henter with
      | stayed => rfl
      | entered _ hcreate => exact (Layers.create_ok hcreate).parent_eq j hj
  · obtain ⟨-, henters, widened, ⟨-, -, layers, stored, henter, hadd⟩, hfinal⟩ :=
      h.new_layer hnew hj
    have hlayer : final.currentLayer = j := by rw [hfinal]; rfl
    rw [(Layers.addState_ok hadd).parent_eq, ← hlayer]
    exact (henter.enters (by rw [advanced_action]; exact henters)).2

theorem Parented.pass (h : Parented F s.layers) (hF : e.Framed F K s) (hid : id ∈ s.pending)
    (hget : s.items.get id = .ok item) (hsnaps : e.Snaps F K K s.layers.size item)
    (hend : e.EndPart id item post s exits summaries final new s') :
    Parented (F.extend s.layers.size ⟨final.scopes, final.loops⟩) s'.layers := by
  obtain ⟨hold, hnew⟩ := hend.parents
  intro j hj hroot
  by_cases hjs : j.index < s.layers.size
  · rw [Contexts.extend_of_lt hjs, hold j hjs]
    exact h j hjs hroot
  · obtain ⟨hjn, -, widened, -, hfinal⟩ := hend.new_layer hjs hj
    obtain ⟨layer, hwithin⟩ := hF.advanced hid hget (fun _ _ hl => hl) hsnaps
    rw [hnew j hjs hj, hjn, Contexts.extend_self, hfinal]
    show some ((e.advanced item).currentLayer) = some ((_ : Option LayerId).getD Layers.root)
    rw [Item.currentLayer, hwithin.root]
    rfl

omit [DecidableEq L] [DecidableEq A] [AbstractState S] in
/-- The layers on the scopes of a layer lead from parent to parent up to the root. -/
theorem Parented.isChain (h : Parented F s.layers) (hF : F.WellFormed K s.layers.size)
    {layer : LayerId} (hlayer : layer.index < s.layers.size) :
    List.IsChain (fun inner outer => s.layers.parent? inner = some outer)
      ((F layer).scopes.map Scope.layer ++ [Layers.root]) := by
  induction hindex : layer.index using Nat.strong_induction_on generalizing layer with
  | _ k ih =>
    subst hindex
    by_cases hroot : layer = Layers.root
    · rw [hroot, hF.root_scopes]
      exact List.isChain_singleton _
    · obtain ⟨caller, own, hbelow⟩ := hF.below layer hlayer hroot
      have hparent := h layer hlayer hroot
      have hcaller := hF.layer_of_head (hbelow.lt.trans hlayer)
      have hchain := ih caller.index hbelow.lt (hbelow.lt.trans hlayer) rfl
      rw [hbelow.scopes, List.tail_cons, hcaller] at hparent
      rw [hbelow.scopes, List.map_cons, List.cons_append, hbelow.layer]
      refine List.isChain_cons.mpr ⟨fun outer houter => ?_, hchain⟩
      rw [hparent, ← hcaller]
      cases hscopes : (F caller).scopes with
      | nil =>
        rw [hscopes] at houter
        exact houter
      | cons scope rest =>
        rw [hscopes] at houter
        exact houter

/-! ## §2. Calls that are returned to. -/

/-- What is pending and hands over an exit returns to a call that waits for it. -/
def Homing (s : RunState L A S) : Prop :=
  ∀ j ∈ s.pending, ∀ i, s.items.get j = .ok i → i.returned = true →
    ∃ layer, ∃ c ∈ (s.exits.activation layer).calls, ∃ call, s.items.get c = .ok call ∧
      i = .returning i.pre i.action i.predecessor call layer

theorem Homing.pass (hs : e.Orderly s) (hs' : e.Orderly s') (h : Homing s)
    (hpass : e.Pass id item post final s s') : Homing s' := by
  have hpass' := hpass
  cases hpass with
  | @intro worklist exits summaries handed new added hpop hget hexit hpost hend hadded hframe =>
    intro j hj i hi hreturned
    obtain hmem | hmem | ⟨hjold, hiold⟩ := hframe.pending_cases hadded hj hi
    · obtain ⟨c, hc, x, -, call, hcall, rfl⟩ := hexit.handed_eq hmem
      rw [hexit.exits_mem.1] at hc
      exact ⟨_, c, hpass'.calls_mono hc, call, hpass'.get_call hs hs' hc hcall, rfl⟩
    · obtain ⟨k, staleItem, p, q, -, -, -, -, rfl⟩ | ⟨layer, x, entry, -, -, -, hc, rfl⟩ |
        ⟨widened, -, action, -, rfl⟩ := hend.mem_new hmem
      · cases hreturned
      · exact ⟨layer, id, hc, final, hpass'.get_waiting hs' hc, rfl⟩
      · obtain ⟨action', summary, hshape⟩ := e.successorOf_eq s'.summaries id final widened action
        rw [hshape] at hreturned
        cases hreturned
    · obtain ⟨layer, c, hc, call, hcall, hi⟩ := h j hjold i hiold hreturned
      exact ⟨layer, c, hpass'.calls_mono hc, call, hpass'.get_call hs hs' hc hcall, hi⟩

/-! ## §3. Stacks of live items. -/

variable (e) in
/-- Items belong to the activations of their layers, whose parents are the layers around them. -/
def Layered (s : RunState L A S) : Prop :=
  ∃ F, e.Framed F (fun _ _ => True) s ∧ Parented F s.layers

theorem Layered.seed (h : e.Layered s) {location : L} {action : A}
    (hseed : e.SeedPart location action s s') : e.Layered s' := by
  obtain ⟨F, hF, hparented⟩ := h
  refine ⟨F, hF.seed hseed fun _ _ hl => hl, fun id hid hroot => ?_⟩
  obtain ⟨state, stored, layers, _, -, hadd, hgrows⟩ := hseed
  have hmerged := Layers.addState_ok hadd
  have hlayers : s'.layers = layers := hgrows.unmoved.layers
  rw [hlayers, hmerged.size_eq] at hid
  rw [hlayers, hmerged.parent_eq]
  exact hparented id hid hroot

theorem Layered.pass (hsep : e.transitions.Separate) (hs : e.Orderly s) (hs' : e.Orderly s')
    (h : e.Layered s) (hpass : e.Pass id item post final s s') : e.Layered s' := by
  obtain ⟨F, hF, hparented⟩ := h
  refine ⟨_, hF.pass hsep hs hs' hpass (fun _ _ hl => hl) fun _ _ _ _ => trivial, ?_⟩
  cases hpass with
  | intro hpop hget hexit hpost hend =>
    have hid : id ∈ s.pending := Worklist.mem_of_pop hpop
    exact hparented.pass hF hid hget (fun _ _ _ _ => trivial) hend

theorem Reachable.layered (hsep : e.transitions.Separate) (h : e.Reachable starts s) :
    e.Layered s := by
  have hstart : e.Layered (.start e.options) := by
    refine ⟨_, Framed.start, fun id hid hroot => absurd ?_ hroot⟩
    cases id
    exact congrArg LayerId.mk (Nat.lt_one_iff.mp hid)
  exact (h.induct hstart (fun _ _ _ _ _ _ _ hseed hs => hs.seed hseed)
    fun _ _ _ _ _ _ hs hs' hpass hlayered => hlayered.pass hsep hs hs' hpass).2

omit [DecidableEq A] in
theorem Homing.seed (h : Homing s) {location : L} {action : A}
    (hseed : e.SeedPart location action s s') : Homing s' := by
  have hseed' := hseed
  obtain ⟨state, stored, layers, id, -, -, hgrows⟩ := hseed
  intro j hj i hi hreturned
  obtain ⟨rfl, rfl⟩ | ⟨hold, hjold⟩ := hgrows.old_singleton hi
  · cases hreturned
  · obtain ⟨layer, c, hc, call, hcall, hi⟩ := h j (hjold hj) i hold hreturned
    obtain ⟨hc', hcall'⟩ := hseed'.get_call hc hcall
    exact ⟨layer, c, hc', call, hcall', hi⟩

theorem Reachable.homing (h : e.Reachable starts s) : Homing s :=
  (h.induct (fun j hj => by cases hj) (fun _ _ _ _ _ _ _ hseed hs => hs.seed hseed)
    fun _ _ _ _ _ _ hs hs' hpass hhoming => hhoming.pass hs hs' hpass).2

/-- The stacks of live items.  An item with an empty stack is in the root layer, and what is
pending and hands over an exit has the stack of the call that it returns to, and one scope more.
If no action enters a scope while it leaves another, then items that are not handed over and are
in the same layer have the same stack, and the same loops below it, and the layers of the stack
lead from parent to parent up to the root. -/
theorem stack_of_layer (h : e.Reachable starts s) :
    (∀ j i, s.items.get j = .ok i → i.scopes = [] → i.currentLayer = Layers.root) ∧
    (∀ j ∈ s.pending, ∀ i, s.items.get j = .ok i → i.returned = true →
      ∃ layer, ∃ c ∈ (s.exits.activation layer).calls, ∃ call, s.items.get c = .ok call ∧
        i = .returning i.pre i.action i.predecessor call layer ∧
        ∃ scope, i.scopes = scope :: call.scopes) ∧
    (e.transitions.Separate →
      (∀ j j' i i', s.items.get j = .ok i → s.items.get j' = .ok i' → i.returned = false →
        i'.returned = false → i.currentLayer = i'.currentLayer →
        i.scopes = i'.scopes ∧ i.loops.take i.loopDepth = i'.loops.take i'.loopDepth) ∧
      ∀ j i, s.items.get j = .ok i → i.returned = false →
        List.IsChain (fun inner outer => s.layers.parent? inner = some outer)
          (i.scopes.map Scope.layer ++ [Layers.root])) := by
  refine ⟨fun j i hi hscopes => ?_, fun j hj i hi hreturned => ?_, fun hsep => ?_⟩
  · unfold Item.currentLayer
    rw [hscopes]
    exact (h.intact.2.nested j i hi).root
  · obtain ⟨layer, c, hc, call, hcall, heq⟩ := h.homing j hj i hi hreturned
    exact ⟨layer, c, hc, call, hcall, heq, _, congrArg Item.scopes heq⟩
  · obtain ⟨F, hF, hparented⟩ := h.layered hsep
    refine ⟨fun j j' i i' hi hi' hreturned hreturned' hlayer => ?_, fun j i hi hreturned => ?_⟩
    · obtain ⟨layer, hwithin⟩ := hF.live j i hi hreturned
      obtain ⟨layer', hwithin'⟩ := hF.live j' i' hi' hreturned'
      have hsame : layer = layer' := by
        rw [← hwithin.currentLayer hF.wellFormed, hlayer, hwithin'.currentLayer hF.wellFormed]
      subst hsame
      refine ⟨hwithin.scopes.trans hwithin'.scopes.symm, ?_⟩
      rw [hwithin.loopDepth hF.wellFormed, hwithin'.loopDepth hF.wellFormed,
        ← List.prefix_iff_eq_take.mp hwithin.outer, ← List.prefix_iff_eq_take.mp hwithin'.outer]
    · obtain ⟨layer, hwithin⟩ := hF.live j i hi hreturned
      rw [hwithin.scopes]
      exact hparented.isChain hF.wellFormed hwithin.lt

set_option maxRecDepth 100000 in
/-- After ten items, there are items inside a recursive call, and one that returns to a call that
was not entered. -/
theorem stack_of_layer_ascent : ascentIntervals.transitions.Separate ∧
    ∃ s i i' r, ascentIntervals.stateAfter [0] 10 = some s ∧ s.items.get ⟨4⟩ = .ok i ∧
      s.items.get ⟨7⟩ = .ok i' ∧ i.currentLayer = ⟨2⟩ ∧ i'.currentLayer = ⟨2⟩ ∧
      i.scopes = i'.scopes ∧ i.loops.take i.loopDepth = i'.loops.take i'.loopDepth ∧
      List.IsChain (fun inner outer => s.layers.parent? inner = some outer)
        (i.scopes.map Scope.layer ++ [Layers.root]) ∧
      ⟨6⟩ ∈ s.pending ∧ s.items.get ⟨6⟩ = .ok r ∧ r.returned = true ∧
      ∃ c call layer scope, s.items.get c = .ok call ∧
        r = .returning r.pre r.action r.predecessor call layer ∧
        r.scopes = scope :: call.scopes := by
  have hcoherent : ascentIntervals.Coherent := Program.Built.coherent (p := ascent) ⟨_, rfl⟩ rfl rfl
  have hsep := hcoherent.separate
  have hcheck : (ascentIntervals.stateAfter [0] 10).any (fun s =>
      (s.items.get ⟨4⟩).toOption.any (fun i => i.returned = false ∧ i.currentLayer = ⟨2⟩) &&
      (s.items.get ⟨7⟩).toOption.any (fun i => i.returned = false ∧ i.currentLayer = ⟨2⟩) &&
      (s.items.get ⟨6⟩).toOption.any (fun i => i.returned = true ∧ ⟨6⟩ ∈ s.pending)) = true := by
    decide +kernel
  obtain ⟨s, hs, hreachable, hcheck⟩ := exists_of_stateAfter hcheck
  simp only [Bool.and_eq_true] at hcheck
  obtain ⟨⟨hcheck, hcheck'⟩, hreturn⟩ := hcheck
  obtain ⟨i, hi, hfacts⟩ := exists_of_checkItem hcheck
  obtain ⟨i', hi', hfacts'⟩ := exists_of_checkItem hcheck'
  obtain ⟨r, hr, hreturned⟩ := exists_of_checkItem hreturn
  rw [decide_eq_true_iff] at hfacts hfacts' hreturned
  obtain ⟨-, hhoming, hstacks⟩ := stack_of_layer hreachable
  obtain ⟨hsame, hchain⟩ := hstacks hsep
  obtain ⟨hscopes, hloops⟩ := hsame _ _ i i' hi hi' hfacts.1 hfacts'.1
    (hfacts.2.trans hfacts'.2.symm)
  obtain ⟨layer, c, -, call, hcall, heq, scope, hscope⟩ := hhoming _ hreturned.2 r hr hreturned.1
  exact ⟨hsep, s, i, i', r, hs, hi, hi', hfacts.2, hfacts'.2, hscopes, hloops,
    hchain _ i hi hfacts.1, hreturned.2, hr, hreturned.1, c, call, layer, scope, hcall, heq, hscope⟩

/-- A call that is covered by its own activation, whose body may switch back to the place of its
caller: to `switch` is to leave the scope of a `call`, and to enter a scope of its own. -/
def switching : ActionTable where
  rows := [
    { name := "switch", source := "top", target := "body", transfer := .const 0, enters := true
      leaves := some ["call"] },
    { name := "call", source := "body", target := "inner", enters := true },
    { name := "again", source := "inner", target := "body" },
    { name := "back", source := "inner", target := "top" },
    { name := "reset", source := "inner", target := "top", transfer := .const 5 },
    { name := "finish", source := "body", target := "done", transfer := .restore
      leaves := some ["switch"] },
    { name := "return", source := "done", target := "end", leaves := some ["call"] }]

/-- An engine for `switching` that widens early. -/
def switchingEngine : Engine String String ResidueSet :=
  switching.engine ⟨1, 1, .fifo, false, Nat.one_pos, Nat.one_pos⟩ .unbounded none

set_option maxRecDepth 100000 in
/-- Stacks go wrong if an action enters a scope while it leaves another: a switch that returns from
a covered call, and is covered itself, waits with the scope of the call still on its stack.  So
there are items of one layer with different stacks, one of them with the same layer twice on it. -/
theorem not_stack_of_layer_switching : ∃ s i i', switchingEngine.Reachable ["top"] s ∧
    s.items.get ⟨11⟩ = .ok i ∧ s.items.get ⟨13⟩ = .ok i' ∧ i.returned = false ∧
    i'.returned = false ∧ i.currentLayer = i'.currentLayer ∧ i.scopes ≠ i'.scopes ∧
    i'.scopes.map Scope.layer = [⟨2⟩, ⟨2⟩, ⟨1⟩] ∧ s.layers.parent? ⟨2⟩ = some ⟨1⟩ := by
  have hcheck : (switchingEngine.stateAfter ["top"] 15).any (fun s =>
      (s.items.get ⟨11⟩).toOption.any (fun i => i.returned = false ∧ i.currentLayer = ⟨2⟩ ∧
        i.scopes.length = 2) &&
      (s.items.get ⟨13⟩).toOption.any (fun i => i.returned = false ∧ i.currentLayer = ⟨2⟩ ∧
        i.scopes.map Scope.layer = [⟨2⟩, ⟨2⟩, ⟨1⟩]) &&
      s.layers.parent? ⟨2⟩ = some ⟨1⟩) = true := by
    decide +kernel
  obtain ⟨s, -, hreachable, hcheck⟩ := exists_of_stateAfter hcheck
  simp only [Bool.and_eq_true] at hcheck
  obtain ⟨⟨hcheck, hcheck'⟩, hparent⟩ := hcheck
  obtain ⟨i, hi, hfacts⟩ := exists_of_checkItem hcheck
  obtain ⟨i', hi', hfacts'⟩ := exists_of_checkItem hcheck'
  rw [decide_eq_true_iff] at hfacts hfacts' hparent
  obtain ⟨hreturned, hlayer, hlength⟩ := hfacts
  obtain ⟨hreturned', hlayer', hlayers⟩ := hfacts'
  refine ⟨s, i, i', hreachable, hi, hi', hreturned, hreturned', hlayer.trans hlayer'.symm,
    fun hsame => ?_, hlayers, hparent⟩
  have hlength' := congrArg List.length hlayers
  rw [List.length_map, ← hsame, hlength] at hlength'
  cases hlength'

end Engine

end Interproc
