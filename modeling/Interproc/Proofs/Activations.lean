/-
  Interproc.Proofs.Activations
  ────────────────────────────
  Scopes and layers belong together.  Every layer but the root was created when one
  scope was entered, and all items of a layer share the scopes that were open then,
  and the loops that were active then.  What they do not share are the loops entered
  since, and for these a property can be carried along.

  Main result: `Engine.Framed.pass` — a pass keeps items, waiting calls and exits
  inside the activations they belong to.
-/
import Mathlib
import Interproc.Proofs.Flow
import Interproc.Proofs.Reachability
import Interproc.Proofs.Storage

namespace Interproc

variable {L A S : Type}

/-! ## §1. The context of a layer. -/

/-- The scopes that are open in a layer, its own first, and the loops that were active when it was
created. -/
structure Context (L A S : Type) where
  scopes : List (Scope A S)
  loops : List (ActiveLoop L S)

/-- The contexts of all layers. -/
abbrev Contexts (L A S : Type) := LayerId → Context L A S

namespace Contexts

/-- The context of a layer that is created next. -/
def extend (F : Contexts L A S) (n : Nat) (context : Context L A S) : Contexts L A S :=
  fun id => if id.index < n then F id else context

theorem extend_of_lt {F : Contexts L A S} {n : Nat} {context : Context L A S} {id : LayerId}
    (h : id.index < n) : F.extend n context id = F id := if_pos h

theorem extend_self {F : Contexts L A S} {n : Nat} {context : Context L A S} :
    F.extend n context ⟨n⟩ = context := if_neg (lt_irrefl n)

/-- A layer was created for a scope that was entered from the layer of its caller; `K` holds of the
loops that were active in the caller then. -/
structure Below (F : Contexts L A S) (K : LayerId → ActiveLoop L S → Prop) (caller id : LayerId)
    (scope : Scope A S) : Prop where
  lt : caller.index < id.index
  scopes : (F id).scopes = scope :: (F caller).scopes
  layer : scope.layer = id
  depth : scope.loopDepth = (F id).loops.length
  outer : (F caller).loops <+: (F id).loops
  loops : ∀ l ∈ (F id).loops.drop (F caller).loops.length, K caller l

/-- The first `n` layers form a tree of activations below the root. -/
structure WellFormed (F : Contexts L A S) (K : LayerId → ActiveLoop L S → Prop) (n : Nat) :
    Prop where
  pos : 0 < n
  root_scopes : (F Layers.root).scopes = []
  root_loops : (F Layers.root).loops = []
  below : ∀ id : LayerId, id.index < n → id ≠ Layers.root →
    ∃ caller scope, F.Below K caller id scope

/-- An item belongs to a layer; `K` holds of the loops that it entered there. -/
structure Within (F : Contexts L A S) (K : LayerId → ActiveLoop L S → Prop) (n : Nat)
    (id : LayerId) (item : Item L A S) : Prop where
  lt : id.index < n
  root : item.rootLayer = Layers.root
  scopes : item.scopes = (F id).scopes
  outer : (F id).loops <+: item.loops
  loops : ∀ l ∈ item.loops.drop (F id).loops.length, K id l

variable {F F' : Contexts L A S} {K K' : LayerId → ActiveLoop L S → Prop} {n n' : Nat}
variable {id caller : LayerId} {item : Item L A S} {scope : Scope A S}

theorem Below.mono (h : F.Below K caller id scope) (hK : ∀ j l, K j l → K' j l)
    (hF : ∀ j : LayerId, j.index < n → F' j = F j) (hid : id.index < n) :
    F'.Below K' caller id scope := by
  have hcaller : F' caller = F caller := hF caller (h.lt.trans hid)
  constructor
  · exact h.lt
  · rw [hF id hid, hcaller]
    exact h.scopes
  · exact h.layer
  · rw [hF id hid]
    exact h.depth
  · rw [hF id hid, hcaller]
    exact h.outer
  · rw [hF id hid, hcaller]
    exact fun l hl => hK caller l (h.loops l hl)

theorem Within.mono (h : F.Within K n id item) (hK : ∀ j l, K j l → K' j l)
    (hF : ∀ j : LayerId, j.index < n → F' j = F j) (hn : n ≤ n') : F'.Within K' n' id item := by
  constructor
  · exact h.lt.trans_le hn
  · exact h.root
  · rw [hF id h.lt]
    exact h.scopes
  · rw [hF id h.lt]
    exact h.outer
  · rw [hF id h.lt]
    exact fun l hl => hK id l (h.loops l hl)

theorem Within.congr {item' : Item L A S} (h : F.Within K n id item)
    (hroot : item'.rootLayer = item.rootLayer) (hscopes : item'.scopes = item.scopes)
    (hloops : item'.loops = item.loops) : F.Within K n id item' where
  lt := h.lt
  root := hroot.trans h.root
  scopes := hscopes.trans h.scopes
  outer := by
    rw [hloops]
    exact h.outer
  loops := by
    rw [hloops]
    exact h.loops

namespace WellFormed

/-- The layers on the scopes of a layer: each scope is the one its layer was created for. -/
theorem scopes_of_mem (h : F.WellFormed K n) (hid : id.index < n) (hscope : scope ∈ (F id).scopes) :
    scope.layer.index ≤ id.index ∧ scope.layer ≠ Layers.root ∧
      (F scope.layer).scopes.head? = some scope ∧
      (F scope.layer).scopes <:+ (F id).scopes ∧ (F scope.layer).loops <+: (F id).loops := by
  induction hindex : id.index using Nat.strong_induction_on generalizing id with
  | _ k ih =>
    subst hindex
    by_cases hroot : id = Layers.root
    · rw [hroot, h.root_scopes] at hscope
      cases hscope
    · obtain ⟨caller, own, hbelow⟩ := h.below id hid hroot
      rw [hbelow.scopes] at hscope
      obtain rfl | hscope := List.mem_cons.mp hscope
      · rw [hbelow.layer, hbelow.scopes]
        exact ⟨le_rfl, hroot, rfl, List.suffix_refl _, List.prefix_refl _⟩
      · obtain ⟨hle, hne, hhead, hsuffix, hprefix⟩ :=
          ih caller.index hbelow.lt (hbelow.lt.trans hid) hscope rfl
        refine ⟨hle.trans hbelow.lt.le, hne, hhead, ?_, hprefix.trans hbelow.outer⟩
        rw [hbelow.scopes]
        exact hsuffix.trans (List.suffix_cons own _)

theorem layer_of_head (h : F.WellFormed K n) (hid : id.index < n) :
    (((F id).scopes.head?.map Scope.layer).getD Layers.root) = id := by
  by_cases hroot : id = Layers.root
  · rw [hroot, h.root_scopes]
    rfl
  · obtain ⟨caller, own, hbelow⟩ := h.below id hid hroot
    rw [hbelow.scopes]
    exact hbelow.layer

theorem depth_of_head (h : F.WellFormed K n) (hid : id.index < n) :
    (((F id).scopes.head?.map Scope.loopDepth).getD 0) = (F id).loops.length := by
  by_cases hroot : id = Layers.root
  · rw [hroot, h.root_scopes, h.root_loops]
    rfl
  · obtain ⟨caller, own, hbelow⟩ := h.below id hid hroot
    rw [hbelow.scopes]
    exact hbelow.depth

theorem mono (h : F.WellFormed K n) (hK : ∀ j l, K j l → K' j l)
    (hF : ∀ j : LayerId, j.index < n → F' j = F j) : F'.WellFormed K' n where
  pos := h.pos
  root_scopes := by rw [hF Layers.root h.pos, h.root_scopes]
  root_loops := by rw [hF Layers.root h.pos, h.root_loops]
  below := by
    intro id hid hroot
    obtain ⟨caller, scope, hbelow⟩ := h.below id hid hroot
    exact ⟨caller, scope, hbelow.mono hK hF hid⟩

end WellFormed

theorem Within.currentLayer (hF : F.WellFormed K n) (h : F.Within K n id item) :
    item.currentLayer = id := by
  unfold Item.currentLayer
  rw [h.scopes, h.root]
  exact hF.layer_of_head h.lt

theorem Within.loopDepth (hF : F.WellFormed K n) (h : F.Within K n id item) :
    item.loopDepth = (F id).loops.length := by
  unfold Item.loopDepth
  rw [h.scopes]
  exact hF.depth_of_head h.lt

theorem Within.scopeLoops (hF : F.WellFormed K n) (h : F.Within K n id item) :
    item.scopeLoops = item.loops.drop (F id).loops.length := by
  unfold Item.scopeLoops
  rw [h.loopDepth hF]

end Contexts

/-! ## §2. Items that move between contexts. -/

namespace Item

variable {item : Item L A S} {head : L} {snapshot : Disjunction S}

variable [DecidableEq L] in
/-- Entering a loop again leaves the loops entered after it, and counts on. -/
theorem enterLoop_eq (item : Item L A S) (head : L) (snapshot : Disjunction S) :
    (item.enterLoop head snapshot).2 = { item with
      loops := item.loops.take item.loopDepth ++
        ((item.scopeLoops.takeWhile fun l => l.head ≠ head) ++
          [⟨head, (item.scopeLoops.find? fun l => l.head = head).elim 0 ActiveLoop.counter + 1,
            snapshot⟩]) } := by
  have hsplit := List.takeWhile_append_dropWhile
    (p := fun l : ActiveLoop L S => l.head ≠ head) (l := item.scopeLoops)
  have hfind : (item.scopeLoops.find? fun l => l.head = head) =
      (item.scopeLoops.dropWhile fun l => l.head ≠ head).head? := by
    rw [List.find?_eq_head?_dropWhile_not]
    simp
  unfold enterLoop
  dsimp only
  rw [hfind]
  cases hdrop : item.scopeLoops.dropWhile fun l => l.head ≠ head with
  | nil =>
    rw [hdrop, List.append_nil] at hsplit
    rw [hsplit]
    simp [scopeLoops, ← List.append_assoc]
  | cons l rest => simp

/-- Leaving the innermost loop keeps the loops of outer scopes. -/
theorem leaveLoop_eq (item : Item L A S) : item.leaveLoop.2 = { item with
    loops := item.loops.take item.loopDepth ++ item.scopeLoops.dropLast } := by
  unfold leaveLoop currentLoopHead
  cases hlast : item.scopeLoops.getLast? with
  | none =>
    have hnil : item.scopeLoops = [] := List.getLast?_eq_none_iff.mp hlast
    have hlen : item.loops.length ≤ item.loopDepth := List.drop_eq_nil_iff.mp hnil
    simp [hnil, List.take_of_length_le hlen]
  | some l =>
    have hne : item.scopeLoops ≠ [] := by
      intro hnil
      rw [hnil] at hlast
      cases hlast
    have hloops : item.loops.dropLast =
        (item.loops.take item.loopDepth ++ item.scopeLoops).dropLast := by
      simp [scopeLoops]
    simp only [Option.map_some]
    rw [hloops, List.dropLast_append_of_ne_nil hne]

/-- The innermost activation of an action is on the scope stack. -/
theorem latestEntry_mem [DecidableEq A] {item : Item L A S} {layer : LayerId}
    {entry : Disjunction S} {action : A} (h : item.latestEntry action = some (layer, entry)) :
    ∃ scope ∈ item.scopes, scope.action = action ∧ scope.layer = layer ∧ scope.entry = entry := by
  obtain ⟨scope, hscope, hpair⟩ := Option.map_eq_some_iff.mp h
  cases hpair
  have haction := List.find?_some hscope
  exact ⟨scope, List.mem_of_find?_eq_some hscope, of_decide_eq_true haction, rfl, rfl⟩

end Item

namespace Contexts

variable {F F' : Contexts L A S} {K K' : LayerId → ActiveLoop L S → Prop} {n n' : Nat}
variable {id caller : LayerId} {item : Item L A S} {scope : Scope A S}

/-- The loops of an item's own scope may be replaced. -/
theorem Within.withLoops {loops : List (ActiveLoop L S)} (hF : F.WellFormed K n)
    (h : F.Within K n id item) (hloops : ∀ l ∈ loops, K id l) :
    F.Within K n id { item with loops := item.loops.take item.loopDepth ++ loops } := by
  have htake : item.loops.take item.loopDepth = (F id).loops := by
    rw [h.loopDepth hF]
    exact (List.prefix_iff_eq_take.mp h.outer).symm
  constructor
  · exact h.lt
  · exact h.root
  · exact h.scopes
  · rw [htake]
    exact List.prefix_append _ _
  · rw [htake, List.drop_left]
    exact hloops

/-- Entering and leaving loops does not lead out of a layer. -/
theorem Within.track [DecidableEq L] [DecidableEq A] [AbstractState S] {e : Engine L A S}
    (hF : F.WellFormed K n) (h : F.Within K n id item)
    (hpre : e.entersLoop item.action = true → ∀ counter,
      K id ⟨e.transitions.source item.action, counter, item.pre⟩) :
    F.Within K n id (e.track item) := by
  have hown : ∀ l ∈ item.scopeLoops, K id l := by
    rw [h.scopeLoops hF]
    exact h.loops
  unfold Engine.track
  split
  · rename_i henters
    rw [Item.enterLoop_eq]
    refine h.withLoops hF fun l hl => ?_
    obtain hl | hl := List.mem_append.mp hl
    · exact hown l ((List.takeWhile_sublist _).mem hl)
    · rw [List.mem_singleton.mp hl]
      exact hpre henters _
  · split
    · rw [Item.leaveLoop_eq]
      exact h.withLoops hF fun l hl => hown l (List.mem_of_mem_dropLast hl)
    · exact h

/-- Leaving a scope leads into the layer of its caller. -/
theorem Within.leave (hbelow : F.Below K caller id scope) (h : F.Within K n id item) :
    F.Within K n caller { item with
      scopes := item.scopes.tail, loops := item.loops.take scope.loopDepth } := by
  have htake : item.loops.take scope.loopDepth = (F id).loops := by
    rw [hbelow.depth]
    exact (List.prefix_iff_eq_take.mp h.outer).symm
  constructor
  · exact hbelow.lt.trans h.lt
  · exact h.root
  · show item.scopes.tail = _
    rw [h.scopes, hbelow.scopes]
    rfl
  · rw [htake]
    exact hbelow.outer
  · rw [htake]
    exact hbelow.loops

/-- Entering a scope leads into a new layer. -/
theorem WellFormed.enter {action : A} {before entry : Disjunction S} (hF : F.WellFormed K n)
    (h : F.Within K n id item) {inside : Item L A S}
    (hinside : inside = item.enterScope action ⟨n⟩ before entry) :
    (F.extend n ⟨inside.scopes, inside.loops⟩).WellFormed K (n + 1) ∧
      (F.extend n ⟨inside.scopes, inside.loops⟩).Within K (n + 1) ⟨n⟩ inside ∧
      (F.extend n ⟨inside.scopes, inside.loops⟩).Below K id ⟨n⟩
        ⟨action, ⟨n⟩, before, entry, item.loops.length⟩ := by
  have hold : ∀ j : LayerId, j.index < n →
      F.extend n ⟨inside.scopes, inside.loops⟩ j = F j := fun j hj => extend_of_lt hj
  have hnew : F.extend n ⟨inside.scopes, inside.loops⟩ ⟨n⟩ = ⟨inside.scopes, inside.loops⟩ :=
    extend_self
  -- All that matters of the contexts is the one of the new layer, and that the others are kept.
  generalize F.extend n ⟨inside.scopes, inside.loops⟩ = F' at hold hnew
  subst hinside
  have hbelow : F'.Below K id ⟨n⟩ ⟨action, ⟨n⟩, before, entry, item.loops.length⟩ := by
    constructor
    · exact h.lt
    · rw [hnew, hold id h.lt, ← h.scopes]
      rfl
    · rfl
    · rw [hnew]
      rfl
    · rw [hnew, hold id h.lt]
      exact h.outer
    · rw [hnew, hold id h.lt]
      exact h.loops
  have hmono := hF.mono (fun _ _ hK => hK) hold
  refine ⟨⟨Nat.succ_pos n, hmono.root_scopes, hmono.root_loops, ?_⟩, ?_, hbelow⟩
  · intro j hj hroot
    by_cases hjn : j.index < n
    · exact hmono.below j hjn hroot
    · have hj : j = ⟨n⟩ := by
        cases j
        simp_all
        omega
      rw [hj]
      exact ⟨id, _, hbelow⟩
  · constructor
    · exact Nat.lt_succ_self n
    · exact h.root
    · rw [hnew]
    · rw [hnew]
    · rw [hnew]
      intro l hl
      rw [List.drop_length] at hl
      cases hl

/-- A scope that an item entered belongs to a layer below that of the item. -/
theorem Within.child {action : A} {layer inner : LayerId} {before entry : Disjunction S}
    (hF : F.WellFormed K n) (h : F.Within K n id item)
    (hinside : F.Within K n inner (item.enterScope action layer before entry)) :
    F.Below K id inner ⟨action, layer, before, entry, item.loops.length⟩ ∧
      (F inner).loops = item.loops := by
  have hscopes := hinside.scopes
  have hroot : inner ≠ Layers.root := by
    rintro rfl
    rw [hF.root_scopes] at hscopes
    cases hscopes
  obtain ⟨caller, scope, hbelow⟩ := hF.below inner hinside.lt hroot
  rw [hbelow.scopes] at hscopes
  obtain ⟨rfl, houter⟩ := List.cons.inj hscopes
  have hcaller : caller = id := by
    rw [← hF.layer_of_head (hbelow.lt.trans hinside.lt), ← hF.layer_of_head h.lt, ← houter,
      h.scopes]
  rw [hcaller] at hbelow
  exact ⟨hbelow, hinside.outer.eq_of_length hbelow.depth.symm⟩

end Contexts

/-! ## §3. Calls, exits and returns. -/

namespace Engine

variable (e : Engine L A S)

/-- A call waits for the activation at a layer, which is on its own scope stack. -/
structure WaitsFor (F : Contexts L A S) (K : LayerId → ActiveLoop L S → Prop) (n : Nat)
    (layer : LayerId) (call : Item L A S) : Prop where
  within : ∃ id, F.Within K n id call
  own : ∃ own ∈ call.scopes, own.layer = layer ∧ own.action = call.action

/-- An exit belongs to the activation at a layer. -/
structure ExitOf (F : Contexts L A S) (K : LayerId → ActiveLoop L S → Prop) (n : Nat)
    (items : Arena L A S) (layer : LayerId) (exit : ScopeExit A S) : Prop where
  lt : layer.index < n
  leaves : ∀ own ∈ (F layer).scopes.head?,
    e.transitions.leavesScope exit.action (some own.action) = true
  within : ∀ p q, exit.predecessor = some p → items.get p = .ok q → F.Within K n layer q

/-- An item hands an exit of the activation at a layer to a call that waits for it. -/
structure Returning (F : Contexts L A S) (K : LayerId → ActiveLoop L S → Prop) (n : Nat)
    (items : Arena L A S) (layer : LayerId) (item : Item L A S) : Prop where
  leaves : e.leaves item = true
  home : ∃ scope rest id, item.scopes = scope :: rest ∧ scope.layer = layer ∧
    scope.loopDepth = item.loops.length ∧ F.Within K n id { item with scopes := rest } ∧
    ∃ own ∈ rest, own.layer = layer ∧ own.action = scope.action
  within : ∀ p q, item.predecessor = some p → items.get p = .ok q → F.Within K n layer q

variable {e} {F F' : Contexts L A S} {K K' : LayerId → ActiveLoop L S → Prop} {n n' : Nat}
variable {layer : LayerId} {call item : Item L A S} {exit : ScopeExit A S}
variable {items items' : Arena L A S}

theorem WaitsFor.mono (h : WaitsFor F K n layer call) (hK : ∀ j l, K j l → K' j l)
    (hF : ∀ j : LayerId, j.index < n → F' j = F j) (hn : n ≤ n') :
    WaitsFor F' K' n' layer call := by
  obtain ⟨⟨id, hwithin⟩, hown⟩ := h
  exact ⟨⟨id, hwithin.mono hK hF hn⟩, hown⟩

theorem ExitOf.mono (h : e.ExitOf F K n items layer exit) (hK : ∀ j l, K j l → K' j l)
    (hF : ∀ j : LayerId, j.index < n → F' j = F j) (hn : n ≤ n')
    (hitems : ∀ p q, exit.predecessor = some p → items'.get p = .ok q → items.get p = .ok q) :
    e.ExitOf F' K' n' items' layer exit where
  lt := h.lt.trans_le hn
  leaves := by
    rw [hF layer h.lt]
    exact h.leaves
  within := fun p q hp hq => (h.within p q hp (hitems p q hp hq)).mono hK hF hn

theorem Returning.mono (h : e.Returning F K n items layer item) (hK : ∀ j l, K j l → K' j l)
    (hF : ∀ j : LayerId, j.index < n → F' j = F j) (hn : n ≤ n')
    (hitems : ∀ p q, item.predecessor = some p → items'.get p = .ok q → items.get p = .ok q) :
    e.Returning F' K' n' items' layer item := by
  obtain ⟨hleaves, ⟨scope, rest, id, hscopes, hlayer, hdepth, hhome, hown⟩, hwithin⟩ := h
  exact ⟨hleaves, ⟨scope, rest, id, hscopes, hlayer, hdepth, hhome.mono hK hF hn, hown⟩,
    fun p q hp hq => (hwithin p q hp (hitems p q hp hq)).mono hK hF hn⟩

/-- An exit of an activation leaves the scope of every call that waits for it. -/
theorem WaitsFor.returning (hF : F.WellFormed K n) (h : WaitsFor F K n layer call)
    (hexit : e.ExitOf F K n items layer exit) :
    e.Returning F K n items layer
      (.returning exit.state exit.action exit.predecessor call layer) := by
  obtain ⟨⟨id, hwithin⟩, own, hown, hlayer, haction⟩ := h
  refine ⟨?_, ⟨_, call.scopes, id, rfl, rfl, rfl, hwithin.congr rfl rfl rfl, own, hown, hlayer,
    haction⟩, hexit.within⟩
  rw [hwithin.scopes] at hown
  obtain ⟨-, -, hhead, -, -⟩ := hF.scopes_of_mem hwithin.lt hown
  rw [hlayer] at hhead
  have hleaves := hexit.leaves own hhead
  rw [haction] at hleaves
  exact hleaves

/-- An item that returns is outside again once it has left the scope of the call. -/
theorem Returning.outside (h : e.Returning F K n items layer item) :
    ∃ id, F.Within K n id (e.outside item) := by
  obtain ⟨hleaves, ⟨scope, rest, id, hscopes, -, hdepth, hhome, -⟩, -⟩ := h
  refine ⟨id, ?_⟩
  unfold Engine.outside Item.leaveScope
  rw [hleaves, hscopes]
  refine hhome.congr rfl rfl ?_
  show item.loops.take scope.loopDepth = item.loops
  rw [hdepth, List.take_length]

/-- An item of a layer stays in it or leaves for the layer of the caller; there is nothing to leave
in the root layer. -/
theorem outside_within (hF : F.WellFormed K n) {id : LayerId} (h : F.Within K n id item) :
    (e.leaves item = false ∨ item.scopes = []) ∧ e.outside item = item ∨
      e.leaves item = true ∧ ∃ caller scope, F.Below K caller id scope ∧
        F.Within K n caller (e.outside item) ∧ (e.outside item).loops = (F id).loops := by
  cases hleaves : e.leaves item with
  | false =>
    refine .inl ⟨.inl rfl, ?_⟩
    unfold Engine.outside
    rw [hleaves]
  | true =>
    by_cases hroot : id = Layers.root
    · have hscopes : item.scopes = [] := by rw [h.scopes, hroot, hF.root_scopes]
      refine .inl ⟨.inr hscopes, ?_⟩
      unfold Engine.outside Item.leaveScope
      rw [hleaves, hscopes]
    · obtain ⟨caller, scope, hbelow⟩ := hF.below id h.lt hroot
      refine .inr ⟨rfl, caller, scope, hbelow, ?_⟩
      have hout : e.outside item = { item with
          scopes := item.scopes.tail, loops := item.loops.take scope.loopDepth } := by
        unfold Engine.outside Item.leaveScope
        rw [hleaves, h.scopes, hbelow.scopes]
        rfl
      rw [hout]
      refine ⟨h.leave hbelow, ?_⟩
      show item.loops.take scope.loopDepth = _
      rw [hbelow.depth]
      exact (List.prefix_iff_eq_take.mp h.outer).symm

/-! ## §4. Computations stay inside activations. -/

variable (e) in
/-- Items, waiting calls and exits belong to the activations of their layers. -/
structure Framed (F : Contexts L A S) (K : LayerId → ActiveLoop L S → Prop)
    (s : RunState L A S) : Prop where
  wellFormed : F.WellFormed K s.layers.size
  live : ∀ j i, s.items.get j = .ok i → i.returned = false → ∃ id, F.Within K s.layers.size id i
  follows : ∀ j ∈ s.pending, ∀ i p q, s.items.get j = .ok i → i.returned = false →
    i.predecessor = some p → s.items.get p = .ok q → i.scopes = q.scopes ∧ i.loops = q.loops
  returning : ∀ j ∈ s.pending, ∀ i, s.items.get j = .ok i → i.returned = true →
    ∃ layer, e.Returning F K s.layers.size s.items layer i
  predecessors : ∀ j i p q, s.items.get j = .ok i → i.predecessor = some p →
    s.items.get p = .ok q → ∃ id, F.Within K s.layers.size id q
  calls : ∀ layer, ∀ c ∈ (s.exits.activation layer).calls, ∀ i, s.items.get c = .ok i →
    WaitsFor F K s.layers.size layer i
  exits : ∀ layer, ∀ x ∈ (s.exits.activation layer).exits,
    e.ExitOf F K s.layers.size s.items layer x

variable {s s' : RunState L A S} {id : ItemId} {post : Disjunction S} {final : Item L A S}

/-- What the tracked states have to be like for `K` to be kept: the state with which an item enters
a loop is one of which `K` holds. -/
def Snaps (e : Engine L A S) (F : Contexts L A S) (K K' : LayerId → ActiveLoop L S → Prop)
    (n : Nat) (item : Item L A S) : Prop :=
  e.entersLoop item.action = true → ∀ layer, F.Within K n layer (e.outside item) →
    ∀ counter, K' layer ⟨e.transitions.source item.action, counter, item.pre⟩

namespace Framed

theorem item_cases (h : e.Framed F K s) (hid : id ∈ s.pending)
    (hget : s.items.get id = .ok item) :
    item.returned = false ∧ (∃ layer, F.Within K s.layers.size layer item) ∨
      item.returned = true ∧ ∃ layer, e.Returning F K s.layers.size s.items layer item := by
  cases hreturned : item.returned with
  | false => exact .inl ⟨rfl, h.live id item hget hreturned⟩
  | true => exact .inr ⟨rfl, h.returning id hid item hget hreturned⟩

/-- A call is not an exit handed over, so it belongs to a layer. -/
theorem within_of_enters (hsep : e.transitions.Separate) (h : e.Framed F K s) (hid : id ∈ s.pending)
    (hget : s.items.get id = .ok item) (henters : e.transitions.entersScope item.action = true) :
    item.returned = false ∧ ∃ layer, F.Within K s.layers.size layer item := by
  obtain hwithin | ⟨-, layer, hreturning⟩ := h.item_cases hid hget
  · exact hwithin
  · have hleaves := hreturning.leaves
    rw [Engine.leaves, hsep _ _ henters] at hleaves
    cases hleaves

variable [DecidableEq L] [DecidableEq A] [AbstractState S]

/-- An item brought up to date belongs to a layer. -/
theorem advanced (h : e.Framed F K s) (hid : id ∈ s.pending)
    (hget : s.items.get id = .ok item) (hK : ∀ j l, K j l → K' j l)
    (hsnaps : e.Snaps F K K' s.layers.size item) :
    ∃ layer, F.Within K' s.layers.size layer (e.advanced item) := by
  have hF := h.wellFormed.mono hK fun _ _ => rfl
  obtain ⟨layer, hout⟩ : ∃ layer, F.Within K s.layers.size layer (e.outside item) := by
    obtain ⟨-, layer, hwithin⟩ | ⟨-, layer, hreturning⟩ := h.item_cases hid hget
    · obtain ⟨-, hsame⟩ | ⟨-, caller, scope, -, hout, -⟩ := outside_within h.wellFormed hwithin
      · rw [hsame]
        exact ⟨layer, hwithin⟩
      · exact ⟨caller, hout⟩
    · exact hreturning.outside
  refine ⟨layer, (hout.mono hK (fun _ _ => rfl) le_rfl).track hF fun henters => ?_⟩
  obtain ⟨loops, hshape⟩ := e.outside_eq item
  have hsnap := fun henters => hsnaps henters layer hout
  rw [hshape] at henters ⊢
  exact hsnap henters

end Framed

section Leaving

variable [DecidableEq A] [AbstractState S]

/-- An activation stays as it is, unless it is the item's own and the item leaves it: then the exit
is recorded in it, and the same calls wait for it. -/
theorem ExitPart.activation_cases {exits : Exits A S} {handed : List (Item L A S)}
    (h : e.ExitPart item s exits handed) (layer : LayerId) :
    exits.activation layer = s.exits.activation layer ∨
      layer = item.currentLayer ∧ e.leaves item = true ∧ item.returned = false ∧
        item.pre.isBottom = false ∧
        (exits.activation layer).calls = (s.exits.activation layer).calls ∧
        ∃ change, Exits.RecordedIn e.domain e.options item.action item.pre item.predecessor
          (s.exits.activation layer).exits change (exits.activation layer).exits := by
  have hrecorded : ∀ {change}, s.exits.record e.domain e.options item.currentLayer item.action
      item.pre item.predecessor = .ok (change, exits) →
      exits.activation layer = s.exits.activation layer ∨ layer = item.currentLayer ∧
        (exits.activation layer).calls = (s.exits.activation layer).calls ∧
        ∃ change, Exits.RecordedIn e.domain e.options item.action item.pre item.predecessor
          (s.exits.activation layer).exits change (exits.activation layer).exits := by
    intro change hrecord
    obtain ⟨hin, hcalls, hother⟩ := Exits.record_ok hrecord
    by_cases hlayer : item.currentLayer = layer
    · subst hlayer
      exact .inr ⟨rfl, hcalls, change, hin⟩
    · exact .inl (hother layer hlayer)
  cases h with
  | skipped _ hexits => exact .inl (by rw [hexits])
  | known hleaves hreturned hpre hrecord =>
    exact (hrecorded hrecord).imp_right fun ⟨hlayer, hin⟩ => ⟨hlayer, hleaves, hreturned, hpre, hin⟩
  | grown hleaves hreturned hpre hrecord =>
    exact (hrecorded hrecord).imp_right fun ⟨hlayer, hin⟩ => ⟨hlayer, hleaves, hreturned, hpre, hin⟩

/-- The exits after an item took one: known ones, perhaps grown, and the one that it took. -/
theorem ExitPart.exits_mem {exits : Exits A S} {handed : List (Item L A S)}
    (h : e.ExitPart item s exits handed) :
    (∀ layer, (exits.activation layer).calls = (s.exits.activation layer).calls) ∧
      ∀ layer, ∀ x ∈ (exits.activation layer).exits,
        (∃ y ∈ (s.exits.activation layer).exits,
          y.action = x.action ∧ y.predecessor = x.predecessor) ∨
        (e.leaves item = true ∧ item.returned = false ∧ layer = item.currentLayer ∧
          x.action = item.action ∧ x.predecessor = item.predecessor) := by
  refine ⟨fun layer => ?_, fun layer x hx => ?_⟩
  · obtain hsame | ⟨-, -, -, -, hcalls, -⟩ := h.activation_cases layer
    · rw [hsame]
    · exact hcalls
  · obtain hsame | ⟨hlayer, hleaves, hreturned, -, -, change, hin⟩ := h.activation_cases layer
    · rw [hsame] at hx
      exact .inl ⟨x, hx, rfl, rfl⟩
    -- What is recorded is told for lists, so the two lists of exits become variables.
    generalize (s.exits.activation layer).exits = l at hin ⊢
    generalize (exits.activation layer).exits = l' at hin hx
    cases hin with
    | known => exact .inl ⟨x, hx, rfl, rfl⟩
    | first =>
      obtain hx | hx := List.mem_append.mp hx
      · exact .inl ⟨x, hx, rfl, rfl⟩
      · rw [List.mem_singleton.mp hx]
        exact .inr ⟨hleaves, hreturned, hlayer, rfl, rfl⟩
    | @grown l₁ l₂ exit change haction hgrow =>
      obtain ⟨-, hsame, hpredecessor⟩ := Exits.grow_ok hgrow
      obtain hx | hx := List.mem_append.mp hx
      · exact .inl ⟨x, List.mem_append_left _ hx, rfl, rfl⟩
      · obtain rfl | hx := List.mem_cons.mp hx
        · exact .inl ⟨exit, List.mem_append_right _ List.mem_cons_self, hsame.symm,
            hpredecessor.symm⟩
        · exact .inl ⟨x, List.mem_append_right _ (List.mem_cons_of_mem _ hx), rfl, rfl⟩

end Leaving

section Moving

variable [DecidableEq L]

variable (e) in
/-- How an item that is not dropped moves on, and how many layers there are then: it is brought up
to date, and it may enter a new scope. -/
inductive Moves (item : Item L A S) (n : Nat) : Item L A S → Nat → Prop where
  | advanced : Moves item n (e.advanced item) n
  | entered {before entry : Disjunction S}
      (henters : e.transitions.entersScope item.action = true) :
      Moves item n ((e.advanced item).enterScope item.action ⟨n⟩ before entry) (n + 1)

theorem advanced_action (item : Item L A S) : (e.advanced item).action = item.action := by
  obtain ⟨loops, hadvanced⟩ := e.advanced_eq item
  rw [hadvanced]

theorem advanced_returned (item : Item L A S) : (e.advanced item).returned = item.returned := by
  obtain ⟨loops, hadvanced⟩ := e.advanced_eq item
  rw [hadvanced]

/-- An item brought up to date is in the layer where its states are stored. -/
theorem advanced_currentLayer (item : Item L A S) :
    (e.advanced item).currentLayer = e.landing item := by
  obtain ⟨loops, hadvanced⟩ := e.advanced_eq item
  rw [hadvanced]
  unfold landing Item.currentLayer Item.callerLayer
  dsimp only
  split
  · cases item.scopes with
    | nil => rfl
    | cons scope outer =>
      cases outer with
      | nil => rfl
      | cons caller rest => rfl
  · rfl

/-- A call stays in its own scope until it enters another. -/
theorem advanced_scopes_of_enters (hsep : e.transitions.Separate)
    (henters : e.transitions.entersScope item.action = true) :
    (e.advanced item).scopes = item.scopes := by
  obtain ⟨loops, hadvanced⟩ := e.advanced_eq item
  have hstays : e.leaves item = false := hsep _ _ henters
  rw [hadvanced, hstays]
  rfl

end Moving

theorem landing_of_enters (hsep : e.transitions.Separate)
    (henters : e.transitions.entersScope item.action = true) :
    e.landing item = item.currentLayer := by
  have hstays : e.leaves item = false := hsep _ _ henters
  unfold landing
  rw [hstays]
  rfl

theorem EnterPart.stays {inside : Item L A S} {widened : Disjunction S}
    {layers layers' : Layers L A S} (h : e.EnterPart item widened layers inside layers')
    (hstays : e.transitions.entersScope item.action = false) :
    inside = item ∧ layers' = layers := by
  cases h with
  | stayed => exact ⟨rfl, rfl⟩
  | entered henters =>
    rw [hstays] at henters
    cases henters

section Storing

variable [DecidableEq L] [DecidableEq A] [AbstractState S]

theorem EnterPart.moves {widened stored : Disjunction S} {layers : Layers L A S} {location : L}
    (henter : e.EnterPart (e.advanced item) widened s.layers final layers)
    (hadd : layers.addState final.currentLayer location widened = .ok (stored, s'.layers)) :
    e.Moves item s.layers.size final s'.layers.size := by
  rw [(Layers.addState_ok hadd).size_eq]
  clear hadd
  generalize hlayers : s.layers = layers' at henter
  cases henter with
  | stayed => exact .advanced
  | entered henters hcreate =>
    have hcreated := Layers.create_ok hcreate
    rw [hcreated.id_eq, hcreated.size_eq, advanced_action]
    exact .entered (by rw [← advanced_action (e := e)]; exact henters)

/-- The item that a pass leaves behind was dropped, or moved on. -/
theorem EndPart.final_cases {exits : Exits A S} {summaries : Summaries A S}
    {new : List (Item L A S)} (h : e.EndPart id item post s exits summaries final new s') :
    (final = item ∧ s'.layers = s.layers) ∨ e.Moves item s.layers.size final s'.layers.size := by
  cases h with
  | infeasible _ hfinal _ hlayers => exact .inl ⟨hfinal, hlayers⟩
  | covered _ _ _ hfinal _ hlayers => exact .inl ⟨hfinal, hlayers⟩
  | coveredCall _ _ _ _ hfinal _ hlayers => exact .inl ⟨hfinal, hlayers⟩
  | loopFixpoint _ _ _ _ _ _ _ _ hfinal _ hlayers =>
    rw [hfinal, hlayers]
    exact .inr .advanced
  | entryFixpoint _ _ _ _ _ _ _ _ _ hfinal _ _ hlayers =>
    rw [hfinal, (Layers.addScopeFixpoint_ok hlayers).size_eq]
    exact .inr .advanced
  | stored _ _ _ _ henter _ hadd => exact .inr (henter.moves hadd)

variable (e) in
/-- The states after an item's action, widened if need be, are merged into what is stored in the
layer of `final`. -/
def Stores (item : Item L A S) (post : Disjunction S) (final : Item L A S)
    (widened : Disjunction S) (s s' : RunState L A S) : Prop :=
  post.isBottom = false ∧ e.WidenedTo (e.advanced item) post widened s s' ∧
    ∃ layers stored, e.EnterPart (e.advanced item) widened s.layers final layers ∧
      layers.addState final.currentLayer (e.transitions.target item.action) widened
        = .ok (stored, s'.layers)

theorem Stores.moves {widened : Disjunction S} (h : e.Stores item post final widened s s') :
    e.Moves item s.layers.size final s'.layers.size := by
  obtain ⟨-, -, layers, stored, henter, hadd⟩ := h
  exact henter.moves hadd

theorem Stores.stayed {widened : Disjunction S} (h : e.Stores item post final widened s s')
    (hstays : e.transitions.entersScope item.action = false) :
    final = e.advanced item ∧ s'.layers.size = s.layers.size := by
  obtain ⟨-, -, layers, stored, henter, hadd⟩ := h
  obtain ⟨hfinal, hlayers⟩ := henter.stays (by rw [advanced_action]; exact hstays)
  refine ⟨hfinal, ?_⟩
  rw [(Layers.addState_ok hadd).size_eq, hlayers]

theorem Stores.entered {widened : Disjunction S} (h : e.Stores item post final widened s s')
    (henters : e.transitions.entersScope item.action = true) :
    final = (e.advanced item).enterScope item.action ⟨s.layers.size⟩ item.pre widened ∧
      s'.layers.size = s.layers.size + 1 := by
  obtain ⟨-, -, layers, stored, henter, hadd⟩ := h
  rw [(Layers.addState_ok hadd).size_eq]
  clear hadd
  obtain ⟨loops, hadvanced⟩ := e.advanced_eq item
  generalize hlayers : s.layers = layers' at henter
  cases henter with
  | stayed hstays =>
    rw [advanced_action, henters] at hstays
    cases hstays
  | entered _ hcreate =>
    have hcreated := Layers.create_ok hcreate
    refine ⟨?_, hcreated.size_eq⟩
    rw [advanced_action, hcreated.id_eq]
    congr 1
    rw [hadvanced]

/-- What the end of a pass does to the layers: nothing, or a fixpoint is recorded for a call, which
then waits for an activation, or states are stored. -/
theorem EndPart.layers_cases {exits : Exits A S} {summaries : Summaries A S}
    {new : List (Item L A S)} (h : e.EndPart id item post s exits summaries final new s') :
    s'.layers = s.layers ∨
      (∃ layer older, e.transitions.entersScope item.action = true ∧
        (e.advanced item).latestEntry item.action = some (layer, older) ∧
        s.layers.addScopeFixpoint (e.advanced item).currentLayer item.action older
          = .ok s'.layers ∧
        final = e.advanced item ∧ id ∈ (s'.exits.activation layer).calls) ∨
      ∃ widened, e.Stores item post final widened s s' := by
  cases h with
  | infeasible _ _ _ hlayers => exact .inl hlayers
  | covered _ _ _ _ _ hlayers => exact .inl hlayers
  | coveredCall _ _ _ _ _ _ hlayers => exact .inl hlayers
  | loopFixpoint _ _ _ _ _ _ _ _ _ _ hlayers => exact .inl hlayers
  | entryFixpoint _ _ _ henters hentry _ _ _ _ hfinal _ _ hlayers hexits =>
    refine .inr (.inl ⟨_, _, henters, hentry, hlayers, hfinal, ?_⟩)
    rw [hexits]
    exact Exits.mem_calls_subscribe
  | stored hpost _ _ hwiden henter _ hadd =>
    exact .inr (.inr ⟨_, hpost, hwiden, _, _, henter, hadd⟩)

/-- Layers are created for the scopes of calls, and hold the states that enter them. -/
theorem EndPart.new_layer {exits : Exits A S} {summaries : Summaries A S}
    {new : List (Item L A S)} (h : e.EndPart id item post s exits summaries final new s')
    (hnew : ¬ layer.index < s.layers.size) (hlayer : layer.index < s'.layers.size) :
    layer = ⟨s.layers.size⟩ ∧ e.transitions.entersScope item.action = true ∧
      ∃ widened, e.Stores item post final widened s s' ∧
        final = (e.advanced item).enterScope item.action layer item.pre widened := by
  have hsame : s'.layers.size = s.layers.size → False := fun hsize => hnew (hsize ▸ hlayer)
  cases h with
  | infeasible _ _ _ hlayers => exact (hsame (by rw [hlayers])).elim
  | covered _ _ _ _ _ hlayers => exact (hsame (by rw [hlayers])).elim
  | coveredCall _ _ _ _ _ _ hlayers => exact (hsame (by rw [hlayers])).elim
  | loopFixpoint _ _ _ _ _ _ _ _ _ _ hlayers => exact (hsame (by rw [hlayers])).elim
  | entryFixpoint _ _ _ _ _ _ _ _ _ _ _ _ hlayers =>
    exact (hsame (Layers.addScopeFixpoint_ok hlayers).size_eq).elim
  | @stored widened stored layers _ _ _ hpost _ _ hwiden henter _ hadd =>
    have hstores : e.Stores item post final widened s s' :=
      ⟨hpost, hwiden, layers, stored, henter, hadd⟩
    cases hkind : e.transitions.entersScope item.action with
    | false => exact (hsame (hstores.stayed hkind).2).elim
    | true =>
      obtain ⟨hfinal, hsize⟩ := hstores.entered hkind
      have heq : layer = ⟨s.layers.size⟩ := by
        cases layer
        simp only [LayerId.mk.injEq]
        simp only at hnew hlayer
        omega
      subst heq
      exact ⟨rfl, rfl, widened, hstores, hfinal⟩

/-- The items that the end of a pass puts on the worklist. -/
theorem EndPart.mem_new {exits : Exits A S} {summaries : Summaries A S} {new : List (Item L A S)}
    {i : Item L A S} (h : e.EndPart id item post s exits summaries final new s') (hi : i ∈ new) :
    (∃ j, s.Redoes j i) ∨
      (∃ layer x entry, x ∈ (exits.activation layer).exits ∧
        e.transitions.entersScope item.action = true ∧
        final.latestEntry item.action = some (layer, entry) ∧
        id ∈ (s'.exits.activation layer).calls ∧
        i = .returning x.state x.action x.predecessor final layer) ∨
      ∃ widened, e.Stores item post final widened s s' ∧ ∃ action ∈ e.goesOn final,
        i = e.successorOf s'.summaries id final widened action := by
  cases h with
  | infeasible _ _ hnew =>
    rw [hnew] at hi
    cases hi
  | covered _ _ _ _ hnew =>
    rw [hnew] at hi
    cases hi
  | coveredCall _ _ henters hentry hfinal hnew _ hexits =>
    rw [hnew] at hi
    obtain ⟨x, hx, rfl⟩ := List.mem_map.mp hi
    rw [hfinal, hexits]
    exact .inr (.inl ⟨_, x, _, hx, henters, hentry, Exits.mem_calls_subscribe, rfl⟩)
  | loopFixpoint _ _ _ _ _ _ _ _ _ hnew =>
    obtain ⟨j, -, hredoes⟩ := exists_of_forall₂ hnew hi
    exact .inl ⟨j, hredoes⟩
  | entryFixpoint _ _ _ henters hentry _ _ _ _ hfinal hredone hnew _ hexits =>
    rw [hnew] at hi
    obtain hi | hi := List.mem_append.mp hi
    · obtain ⟨j, -, hredoes⟩ := exists_of_forall₂ hredone hi
      exact .inl ⟨j, hredoes⟩
    · obtain ⟨x, hx, rfl⟩ := List.mem_map.mp hi
      rw [hfinal, hexits]
      exact .inr (.inl ⟨_, x, _, hx, henters, hentry, Exits.mem_calls_subscribe, rfl⟩)
  | stored hpost _ _ hwiden henter _ hadd _ hredone hnew =>
    rw [hnew] at hi
    obtain hi | hi := List.mem_append.mp hi
    · obtain ⟨j, -, hredoes⟩ := exists_of_forall₂ hredone hi
      exact .inl ⟨j, hredoes⟩
    · split at hi
      · obtain ⟨action, hmem, rfl⟩ := List.mem_map.mp hi
        exact .inr (.inr ⟨_, ⟨hpost, hwiden, _, _, henter, hadd⟩, action, hmem, rfl⟩)
      · cases hi

/-- The end of a pass changes no exits, but it may make a call wait for an activation. -/
theorem EndPart.exits_cases {exits : Exits A S} {summaries : Summaries A S}
    {new : List (Item L A S)} (h : e.EndPart id item post s exits summaries final new s') :
    s'.exits = exits ∨ ∃ layer entry, e.transitions.entersScope item.action = true ∧
      final.latestEntry item.action = some (layer, entry) ∧
      s'.exits = exits.subscribe layer id := by
  cases h with
  | infeasible _ _ _ _ hexits => exact .inl hexits
  | covered _ _ _ _ _ _ hexits => exact .inl hexits
  | coveredCall _ _ henters hentry hfinal _ _ hexits =>
    exact .inr ⟨_, _, henters, by rw [hfinal]; exact hentry, hexits⟩
  | loopFixpoint _ _ _ _ _ _ _ _ _ _ _ hexits => exact .inl hexits
  | entryFixpoint _ _ _ henters hentry _ _ _ _ hfinal _ _ _ hexits =>
    exact .inr ⟨_, _, henters, by rw [hfinal]; exact hentry, hexits⟩
  | stored _ _ _ _ _ _ _ _ _ _ hexits => exact .inl hexits

/-- The calls that wait after a pass: those that waited before it, and perhaps the item itself. -/
theorem EndPart.calls_mem {exits : Exits A S} {summaries : Summaries A S}
    {new : List (Item L A S)} (h : e.EndPart id item post s exits summaries final new s') :
    (∀ layer, (s'.exits.activation layer).exits = (exits.activation layer).exits) ∧
      ∀ layer, ∀ c ∈ (s'.exits.activation layer).calls, c ∈ (exits.activation layer).calls ∨
        c = id ∧ e.transitions.entersScope item.action = true ∧
          ∃ entry, final.latestEntry item.action = some (layer, entry) := by
  obtain hexits | ⟨layer, entry, henters, hentry, hexits⟩ := h.exits_cases
  · rw [hexits]
    exact ⟨fun _ => rfl, fun _ _ hcall => .inl hcall⟩
  · rw [hexits]
    refine ⟨fun layer' => ?_, fun layer' c hcall => ?_⟩
    · rw [Exits.activation_subscribe]
      split
      · rename_i hlayer
        rw [hlayer]
      · rfl
    · rw [Exits.activation_subscribe] at hcall
      split at hcall
      · rename_i hlayer
        subst hlayer
        obtain hcall | hcall := List.mem_append.mp hcall
        · exact .inl hcall
        · exact .inr ⟨List.mem_singleton.mp hcall, henters, entry, hentry⟩
      · exact .inl hcall

/-- Calls go on waiting. -/
theorem Pass.calls_mono (h : e.Pass id item post final s s') {c : ItemId}
    (hcall : c ∈ (s.exits.activation layer).calls) : c ∈ (s'.exits.activation layer).calls := by
  cases h with
  | intro _ _ hexit _ hend =>
    rw [← hexit.exits_mem.1] at hcall
    obtain hexits | ⟨layer', _, -, -, hexits⟩ := hend.exits_cases
    · rw [hexits]
      exact hcall
    · rw [hexits, Exits.activation_subscribe]
      split
      · rename_i hlayer
        subst hlayer
        exact List.mem_append_left _ hcall
      · exact hcall

/-- A call that waits is not touched. -/
theorem Pass.get_call (hs : e.Orderly s) (hs' : e.Orderly s')
    (hpass : e.Pass id item post final s s') {k : ItemId} {c : Item L A S}
    (hcall : k ∈ (s.exits.activation layer).calls) (hget : s.items.get k = .ok c) :
    s'.items.get k = .ok c := by
  have hheld := Exits.held_pos_of_call hcall
  have hheld' := Exits.held_pos_of_call (hpass.calls_mono hcall)
  cases hpass with
  | intro hpop _ _ _ _ _ hframe =>
    have hid : id ∈ s.pending := Worklist.mem_of_pop hpop
    have hne : k ≠ id := fun hkid => hs.tidy.not_pending (j := k) (by omega) (hkid ▸ hid)
    obtain ⟨c', hc'⟩ := hs'.tidy.live_of_held (j := k) (by omega)
    have hold := hframe.get_settled (hs'.tidy.not_pending (by omega)) hne hc'
    rw [hget] at hold
    rw [hc', Except.ok.inj hold]

/-- An item that waits since it was processed is kept as the pass left it. -/
theorem Pass.get_waiting (hs' : e.Orderly s') (hpass : e.Pass id item post final s s')
    (hcall : id ∈ (s'.exits.activation layer).calls) : s'.items.get id = .ok final := by
  have hheld := Exits.held_pos_of_call hcall
  cases hpass with
  | intro _ _ _ _ _ _ hframe =>
    obtain ⟨q, hq⟩ := hs'.tidy.live_of_held (j := id) (by omega)
    rw [hq, hframe.get_final (hs'.tidy.not_pending (by omega)) hq]

omit [DecidableEq A] in
/-- Seeds leave the calls that wait as they are. -/
theorem SeedPart.get_call {location : L} {action : A} (hseed : e.SeedPart location action s s')
    {k : ItemId} {c : Item L A S} (hcall : k ∈ (s.exits.activation layer).calls)
    (hget : s.items.get k = .ok c) :
    k ∈ (s'.exits.activation layer).calls ∧ s'.items.get k = .ok c := by
  obtain ⟨state, stored, layers, id, -, -, hgrows⟩ := hseed
  have hcall' : k ∈ (s'.exits.activation layer).calls := by
    rw [hgrows.unmoved.exits]
    exact hcall
  have hheld := Exits.held_pos_of_call hcall'
  obtain ⟨q, hq⟩ := hgrows.tidy.live_of_held (j := k) (by omega)
  have hbefore := hgrows.get_before (hgrows.tidy.not_pending (by omega)) hq
  rw [hget] at hbefore
  exact ⟨hcall', by rw [hq, Except.ok.inj hbefore]⟩

end Storing

section Successors

variable [DecidableEq A] [AbstractState S]

variable (e) in
/-- The item for an action that follows goes on in the context of its predecessor. -/
theorem successorOf_eq (summaries : Summaries A S) (id : ItemId) (item : Item L A S)
    (widened : Disjunction S) (action : A) :
    ∃ action' summary, e.successorOf summaries id item widened action =
      { Item.successor widened action' id item with summary := summary } := by
  unfold successorOf
  dsimp only
  split
  · exact ⟨_, _, rfl⟩
  · exact ⟨action, none, rfl⟩

/-- A successor steps over a call only if its action enters a scope. -/
theorem successorOf_of_stays {summaries : Summaries A S} {widened : Disjunction S} {action : A}
    (hstays : e.transitions.entersScope action = false) :
    e.successorOf summaries id item widened action = .successor widened action id item := by
  unfold successorOf
  rw [hstays, Bool.and_false]
  rfl

/-- Successors start where the action before them leads. -/
theorem source_successorOf (hc : e.Coherent) {summaries : Summaries A S}
    {widened : Disjunction S} {action : A} (hmem : action ∈ e.goesOn item) :
    e.transitions.source (e.successorOf summaries id item widened action).action =
      e.transitions.target item.action := by
  have hfollows := hc.source_of_following (List.mem_of_mem_filter hmem)
  unfold successorOf
  dsimp only
  split
  · rename_i hstandIn
    exact (hc.standIn_source hstandIn).trans hfollows
  · exact hfollows

end Successors

variable (e) in
/-- An item fits into the activations of its layers: it hands an exit to a call, or it goes on in the
context of its predecessor. -/
inductive Fits (F : Contexts L A S) (K : LayerId → ActiveLoop L S → Prop) (n : Nat)
    (items : Arena L A S) (i : Item L A S) : Prop where
  | returning {layer : LayerId} (hreturned : i.returned = true)
      (hreturning : e.Returning F K n items layer i)
  | goesOn {layer : LayerId} (hreturned : i.returned = false) (hwithin : F.Within K n layer i)
      (hfollows : ∀ p q, i.predecessor = some p → items.get p = .ok q →
        i.scopes = q.scopes ∧ i.loops = q.loops ∧ ∃ id, F.Within K n id q)

namespace Fits

variable {n : Nat} {items : Arena L A S} {i q : Item L A S} {p : ItemId}

theorem within (h : e.Fits F K n items i) (hreturned : i.returned = false) :
    ∃ id, F.Within K n id i := by
  cases h with
  | returning hreturned' =>
    rw [hreturned] at hreturned'
    cases hreturned'
  | goesOn _ hwithin => exact ⟨_, hwithin⟩

theorem follows (h : e.Fits F K n items i) (hreturned : i.returned = false)
    (hp : i.predecessor = some p) (hq : items.get p = .ok q) :
    i.scopes = q.scopes ∧ i.loops = q.loops := by
  cases h with
  | returning hreturned' =>
    rw [hreturned] at hreturned'
    cases hreturned'
  | goesOn _ _ hfollows =>
    obtain ⟨hscopes, hloops, -⟩ := hfollows p q hp hq
    exact ⟨hscopes, hloops⟩

theorem returns (h : e.Fits F K n items i) (hreturned : i.returned = true) :
    ∃ layer, e.Returning F K n items layer i := by
  cases h with
  | returning _ hreturning => exact ⟨_, hreturning⟩
  | goesOn hreturned' =>
    rw [hreturned] at hreturned'
    cases hreturned'

theorem predecessor (h : e.Fits F K n items i) (hp : i.predecessor = some p)
    (hq : items.get p = .ok q) : ∃ id, F.Within K n id q := by
  cases h with
  | returning _ hreturning => exact ⟨_, hreturning.within p q hp hq⟩
  | goesOn _ _ hfollows => exact (hfollows p q hp hq).2.2

end Fits

namespace Framed

variable [DecidableEq A] [AbstractState S]
variable {exits : Exits A S} {summaries : Summaries A S} {handed new : List (Item L A S)}

variable [DecidableEq L] in
/-- The item that a pass leaves behind belongs to a layer, unless it handed over an exit and was
dropped. -/
theorem final_within (h : e.Framed F K s) (hid : id ∈ s.pending)
    (hget : s.items.get id = .ok item) (hK : ∀ j l, K j l → K' j l)
    (hsnaps : e.Snaps F K K' s.layers.size item)
    (hend : e.EndPart id item post s exits summaries final new s') :
    (F.extend s.layers.size ⟨final.scopes, final.loops⟩).WellFormed K' s'.layers.size ∧
      s.layers.size ≤ s'.layers.size ∧
      (item.returned = false ∨ e.Moves item s.layers.size final s'.layers.size → ∃ layer,
        (F.extend s.layers.size ⟨final.scopes, final.loops⟩).Within K' s'.layers.size layer
          final) := by
  obtain ⟨layer, hadvanced⟩ := h.advanced hid hget hK hsnaps
  have hF := h.wellFormed.mono hK fun _ _ => rfl
  have hold : ∀ context : Context L A S, ∀ j : LayerId, j.index < s.layers.size →
      F.extend s.layers.size context j = F j := fun _ _ hj => Contexts.extend_of_lt hj
  have hmoves : e.Moves item s.layers.size final s'.layers.size →
      (F.extend s.layers.size ⟨final.scopes, final.loops⟩).WellFormed K' s'.layers.size ∧
      s.layers.size ≤ s'.layers.size ∧ ∃ layer,
        (F.extend s.layers.size ⟨final.scopes, final.loops⟩).Within K' s'.layers.size layer
          final := by
    intro hmoves
    generalize s'.layers.size = n' at hmoves
    cases hmoves with
    | advanced =>
      exact ⟨hF.mono (fun _ _ hl => hl) (hold _), le_rfl, layer,
        hadvanced.mono (fun _ _ hl => hl) (hold _) le_rfl⟩
    | entered henters =>
      obtain ⟨hwell, hwithin, -⟩ := hF.enter hadvanced rfl
      exact ⟨hwell, Nat.le_succ _, _, hwithin⟩
  -- The item was dropped as it was, or it moved on.
  obtain ⟨hfinal, hlayers⟩ | hmoved := hend.final_cases
  · refine ⟨?_, by rw [hlayers], ?_⟩
    · rw [hlayers]
      exact hF.mono (fun _ _ hl => hl) (hold _)
    · rintro (hreturned | hmoved)
      · obtain ⟨layer', hwithin⟩ := h.live id item hget hreturned
        refine ⟨layer', ?_⟩
        rw [hfinal, hlayers]
        exact hwithin.mono hK (hold _) le_rfl
      · exact (hmoves hmoved).2.2
  · obtain ⟨hwell, hsize, hwithin⟩ := hmoves hmoved
    exact ⟨hwell, hsize, fun _ => hwithin⟩

/-- The exits after an item took one belong to their activations. -/
theorem exitPart (hs : e.Orderly s) (h : e.Framed F K s) (hid : id ∈ s.pending)
    (hget : s.items.get id = .ok item) (hexit : e.ExitPart item s exits handed) :
    ∀ layer, ∀ x ∈ (exits.activation layer).exits, e.ExitOf F K s.layers.size s.items layer x ∧
      ∀ p, x.predecessor = some p → p ≠ id := by
  have hne : ∀ p, p ∉ s.pending → p ≠ id := fun p hp hpid => hp (hpid ▸ hid)
  intro layer x hx
  obtain ⟨y, hy, haction, hpredecessor⟩ | ⟨hleaves, hreturned, hlayer, haction, hpredecessor⟩ :=
    hexit.exits_mem.2 layer x hx
  · obtain ⟨hlt, hleaves, hwithin⟩ := h.exits layer y hy
    rw [haction] at hleaves
    rw [hpredecessor] at hwithin
    refine ⟨⟨hlt, hleaves, hwithin⟩, fun p hp => hne p ?_⟩
    have hheld := Exits.held_pos_of_exit hy (hpredecessor.trans hp)
    exact hs.tidy.not_pending (by omega)
  · obtain ⟨layer', hwithin⟩ := h.live id item hget hreturned
    have hcurrent := hwithin.currentLayer h.wellFormed
    rw [hlayer, hcurrent]
    refine ⟨⟨hwithin.lt, fun own hown => ?_, fun p q hp hq => ?_⟩,
      fun p hp => hne p (hs.tidy.predecessor hget (hpredecessor.symm.trans hp)).1⟩
    · rw [haction]
      unfold Engine.leaves Item.currentScope at hleaves
      rw [hwithin.scopes, Option.mem_def.mp hown] at hleaves
      exact hleaves
    · -- The item before the exit has the same scopes, so it belongs to the same layer.
      rw [hpredecessor] at hp
      obtain ⟨id', hq'⟩ := h.predecessors id item p q hget hp hq
      obtain ⟨hscopes, -⟩ := h.follows id hid item p q hget hreturned hp hq
      have hsame : layer' = id' := by
        rw [← hcurrent, ← hq'.currentLayer h.wellFormed]
        unfold Item.currentLayer
        rw [hscopes, hwithin.root, hq'.root]
      rw [hsame]
      exact hq'

/-- What a pass hands to waiting calls returns from the activation that they wait for. -/
theorem handed_returning (hs : e.Orderly s) (h : e.Framed F K s) (hid : id ∈ s.pending)
    (hget : s.items.get id = .ok item) (hexit : e.ExitPart item s exits handed) :
    ∀ i ∈ handed, i.returned = true ∧
      (∃ layer, e.Returning F K s.layers.size s.items layer i) ∧
      ∀ p, i.predecessor = some p → p ≠ id := by
  have hexits := h.exitPart hs hid hget hexit
  have hcalls := hexit.exits_mem.1
  intro i hi
  cases hexit with
  | skipped _ _ hhanded =>
    rw [hhanded] at hi
    cases hi
  | known _ _ _ _ hhanded =>
    rw [hhanded] at hi
    cases hi
  | @grown change hleaves hreturned hpre hrecord hhanded =>
    obtain ⟨call, hcall, callItem, hcallItem, rfl⟩ := exists_of_forall₂ hhanded hi
    rw [hcalls] at hcall
    obtain ⟨hmem, -⟩ := (Exits.record_ok hrecord).1.mem_exit
    obtain ⟨hexitOf, hne⟩ := hexits _ change.exit hmem
    exact ⟨rfl, ⟨_, (h.calls _ call hcall callItem hcallItem).returning h.wellFormed hexitOf⟩, hne⟩

omit [DecidableEq A] [AbstractState S] in
/-- What a pass puts on the worklist once more goes on in the context of its predecessor. -/
theorem redone_within (hs : e.Orderly s) (h : e.Framed F K s) (hid : id ∈ s.pending) {j : ItemId}
    {i : Item L A S} (hredoes : s.Redoes j i) : i.returned = false ∧
      (∃ layer, F.Within K s.layers.size layer i) ∧ ∃ p q, i.predecessor = some p ∧ p ≠ id ∧
        s.items.get p = .ok q ∧ i.scopes = q.scopes ∧ i.loops = q.loops := by
  obtain ⟨staleItem, p, q, hstale, hp, hq, -, rfl⟩ := hredoes
  obtain ⟨layer, hwithin⟩ := h.predecessors j staleItem p q hstale hp hq
  refine ⟨rfl, ⟨layer, hwithin.congr rfl rfl rfl⟩, p, q, rfl, ?_, hq, rfl, rfl⟩
  exact fun hpid => (hs.tidy.predecessor hstale hp).1 (hpid ▸ hid)

variable [DecidableEq L]

/-- A call that the end of a pass makes wait does so inside its own activations. -/
theorem final_waits (hsep : e.transitions.Separate) (h : e.Framed F K s) (hid : id ∈ s.pending)
    (hget : s.items.get id = .ok item) (hK : ∀ j l, K j l → K' j l)
    (hsnaps : e.Snaps F K K' s.layers.size item)
    (hend : e.EndPart id item post s exits summaries final new s')
    (henters : e.transitions.entersScope item.action = true) {entry : Disjunction S}
    (hentry : final.latestEntry item.action = some (layer, entry)) :
    WaitsFor (F.extend s.layers.size ⟨final.scopes, final.loops⟩) K' s'.layers.size layer
      final := by
  obtain ⟨-, -, hwithin⟩ := h.final_within hid hget hK hsnaps hend
  obtain ⟨scopes, loops, hshape⟩ := hend.final_eq
  refine ⟨hwithin (.inl (h.within_of_enters hsep hid hget henters).1), ?_⟩
  obtain ⟨own, hown, haction, hlayer, -⟩ := Item.latestEntry_mem hentry
  rw [hshape] at hown ⊢
  exact ⟨own, hown, hlayer, haction⟩

omit [DecidableEq L] [DecidableEq A] [AbstractState S] in
/-- The predecessor of an item is settled, and so was there before the pass, unless it is the item
that was processed. -/
theorem predecessor_before {added : List (ItemId × Item L A S)} (hs' : e.Orderly s')
    (hframe : Frame id final added s s') {j p : ItemId} {i q : Item L A S}
    (hi : s'.items.get j = .ok i) (hp : i.predecessor = some p) (hne : p ≠ id)
    (hq : s'.items.get p = .ok q) : s.items.get p = .ok q :=
  hframe.get_settled (hs'.tidy.predecessor hi hp).1 hne hq

/-- What a pass puts on the worklist fits into the contexts after it. -/
theorem added_fits {added : List (ItemId × Item L A S)} (hsep : e.transitions.Separate)
    (hs : e.Orderly s) (hs' : e.Orderly s') (h : e.Framed F K s) (hid : id ∈ s.pending)
    (hget : s.items.get id = .ok item) (hK : ∀ j l, K j l → K' j l)
    (hsnaps : e.Snaps F K K' s.layers.size item) (hexit : e.ExitPart item s exits handed)
    (hend : e.EndPart id item post s exits summaries final new s')
    (hframe : Frame id final added s s') {j : ItemId} {i : Item L A S}
    (hi : s'.items.get j = .ok i) (hmem : i ∈ handed ∨ i ∈ new) :
    e.Fits (F.extend s.layers.size ⟨final.scopes, final.loops⟩) K' s'.layers.size s'.items i := by
  obtain ⟨hwell, hsize, hfinal⟩ := h.final_within hid hget hK hsnaps hend
  have hold : ∀ j : LayerId, j.index < s.layers.size →
      F.extend s.layers.size ⟨final.scopes, final.loops⟩ j = F j :=
    fun _ hj => Contexts.extend_of_lt hj
  -- An exit that is handed over returns to a call that waited; other new items step over a call
  -- once more, return to the item itself, which starts to wait, or succeed it.
  obtain hhand | hnew := hmem
  · obtain ⟨hreturned, ⟨layer, hreturning⟩, hne⟩ := h.handed_returning hs hid hget hexit i hhand
    exact .returning hreturned (hreturning.mono hK hold hsize fun p q hp hq =>
      predecessor_before hs' hframe hi hp (hne p hp) hq)
  · obtain ⟨k, hredoes⟩ | ⟨layer, x, entry, hx, henters, hentry, -, rfl⟩ |
      ⟨widened, hstores, action, -, hsucc⟩ := hend.mem_new hnew
    · obtain ⟨hreturned, ⟨layer, hwithin⟩, p, q, hp, hne, hq, hcontext⟩ :=
        h.redone_within hs hid hredoes
      refine .goesOn hreturned (hwithin.mono hK hold hsize) fun p' q' hp' hq' => ?_
      rw [hp] at hp'
      cases hp'
      rw [predecessor_before hs' hframe hi hp hne hq'] at hq
      cases hq
      obtain ⟨staleItem, _, _, hstale, hpstale, -, -, rfl⟩ := hredoes
      cases hp
      obtain ⟨layer', hwithin'⟩ := h.predecessors k staleItem p q hstale hpstale
        (predecessor_before hs' hframe hi rfl hne hq')
      exact ⟨hcontext.1, hcontext.2, layer', hwithin'.mono hK hold hsize⟩
    · obtain ⟨hexitOf, hne⟩ := h.exitPart hs hid hget hexit layer x hx
      have hwaits := h.final_waits hsep hid hget hK hsnaps hend henters hentry
      exact .returning rfl (hwaits.returning hwell (hexitOf.mono hK hold hsize fun p q hp hq =>
        predecessor_before hs' hframe hi hp (hne p hp) hq))
    · obtain ⟨layer, hwithin⟩ := hfinal (.inr hstores.moves)
      obtain ⟨action', summary, hshape⟩ := e.successorOf_eq s'.summaries id final widened action
      rw [hsucc, hshape] at hi ⊢
      refine .goesOn rfl (hwithin.congr rfl rfl rfl) fun p q hp hq => ?_
      have hnot := (hs'.tidy.predecessor hi hp).1
      cases hp
      rw [hframe.get_final hnot hq]
      exact ⟨rfl, rfl, layer, hwithin⟩

/-- Every pass keeps computations inside their activations. -/
theorem pass (hsep : e.transitions.Separate) (hs : e.Orderly s) (hs' : e.Orderly s')
    (h : e.Framed F K s) (hpass : e.Pass id item post final s s') (hK : ∀ j l, K j l → K' j l)
    (hsnaps : e.Snaps F K K' s.layers.size item) :
    e.Framed (F.extend s.layers.size ⟨final.scopes, final.loops⟩) K' s' := by
  cases hpass with
  | @intro worklist exits summaries handed new added hpop hget hexit hpost hend hadded hframe =>
    have hid : id ∈ s.pending := Worklist.mem_of_pop hpop
    obtain ⟨hwell, hsize, hfinal⟩ := h.final_within hid hget hK hsnaps hend
    have hfits := fun j i (hi : s'.items.get j = .ok i) (hmem : i ∈ handed ∨ i ∈ new) =>
      h.added_fits hsep hs hs' hid hget hK hsnaps hexit hend hframe hi hmem
    have hwaits := fun layer entry (henters : e.transitions.entersScope item.action = true)
      (hentry : final.latestEntry item.action = some (layer, entry)) =>
        h.final_waits hsep hid hget hK hsnaps hend henters hentry
    have hold : ∀ j : LayerId, j.index < s.layers.size →
        F.extend s.layers.size ⟨final.scopes, final.loops⟩ j = F j :=
      fun _ hj => Contexts.extend_of_lt hj
    -- From here on it does not matter what the new context is, only that the old ones are kept.
    generalize F.extend s.layers.size ⟨final.scopes, final.loops⟩ = F'
      at hwell hfinal hfits hwaits hold ⊢
    have hbefore : ∀ j i p q, s'.items.get j = .ok i → s.items.get j = .ok i →
        i.predecessor = some p → s'.items.get p = .ok q → s.items.get p = .ok q :=
      fun j i p q hi hiold hp hq => predecessor_before hs' hframe hi hp
        (fun hpid => (hs.tidy.predecessor hiold hp).1 (hpid ▸ hid)) hq
    constructor
    case wellFormed => exact hwell
    case live =>
      intro j i hi hreturned
      obtain hmem | hmem | ⟨rfl, rfl⟩ | hiold := hframe.live_cases hadded hi
      · exact (hfits j i hi (.inl hmem)).within hreturned
      · exact (hfits j i hi (.inr hmem)).within hreturned
      -- The item that was processed moved on, and did not turn into a returned one.
      · obtain ⟨scopes, loops, hshape⟩ := hend.final_eq
        refine hfinal (.inl ?_)
        rw [hshape] at hreturned
        exact hreturned
      · obtain ⟨layer, hwithin⟩ := h.live j i hiold hreturned
        exact ⟨layer, hwithin.mono hK hold hsize⟩
    case follows =>
      intro j hj i p q hi hreturned hp hq
      obtain hmem | hmem | ⟨hjold, hiold⟩ := hframe.pending_cases hadded hj hi
      · exact (hfits j i hi (.inl hmem)).follows hreturned hp hq
      · exact (hfits j i hi (.inr hmem)).follows hreturned hp hq
      · exact h.follows j hjold i p q hiold hreturned hp (hbefore j i p q hi hiold hp hq)
    case returning =>
      intro j hj i hi hreturned
      obtain hmem | hmem | ⟨hjold, hiold⟩ := hframe.pending_cases hadded hj hi
      · exact (hfits j i hi (.inl hmem)).returns hreturned
      · exact (hfits j i hi (.inr hmem)).returns hreturned
      · obtain ⟨layer, hreturning⟩ := h.returning j hjold i hiold hreturned
        exact ⟨layer, hreturning.mono hK hold hsize fun p q hp hq =>
          hbefore j i p q hi hiold hp hq⟩
    case predecessors =>
      intro j i p q hi hp hq
      obtain hmem | hmem | ⟨rfl, rfl⟩ | hiold := hframe.live_cases hadded hi
      · exact (hfits j i hi (.inl hmem)).predecessor hp hq
      · exact (hfits j i hi (.inr hmem)).predecessor hp hq
      · obtain ⟨scopes, loops, hshape⟩ := hend.final_eq
        have hp' : item.predecessor = some p := by
          rw [hshape] at hp
          exact hp
        have hne : p ≠ j := fun hpj => (hs.tidy.predecessor hget hp').1 (hpj ▸ hid)
        obtain ⟨layer, hwithin⟩ := h.predecessors j item p q hget hp'
          (predecessor_before hs' hframe hi hp hne hq)
        exact ⟨layer, hwithin.mono hK hold hsize⟩
      · obtain ⟨layer, hwithin⟩ := h.predecessors j i p q hiold hp (hbefore j i p q hi hiold hp hq)
        exact ⟨layer, hwithin.mono hK hold hsize⟩
    case calls =>
      intro layer c hcall i hi
      have hheld := Exits.held_pos_of_call hcall
      have hnot : c ∉ s'.pending := hs'.tidy.not_pending (by omega)
      -- A call that waits did so before, or is the item that was processed.
      obtain hcall | ⟨rfl, henters, entry, hentry⟩ := hend.calls_mem.2 layer c hcall
      · rw [hexit.exits_mem.1] at hcall
        have hheld := Exits.held_pos_of_call hcall
        have hne : c ≠ id := fun hcid => hs.tidy.not_pending (j := c) (by omega) (hcid ▸ hid)
        exact (h.calls layer c hcall i (hframe.get_settled hnot hne hi)).mono hK hold hsize
      · rw [hframe.get_final hnot hi]
        exact hwaits layer entry henters hentry
    case exits =>
      intro layer x hx
      have hx' := hx
      rw [hend.calls_mem.1] at hx'
      obtain ⟨hexitOf, hne⟩ := h.exitPart hs hid hget hexit layer x hx'
      refine hexitOf.mono hK hold hsize fun p q hp hq => hframe.get_settled ?_ (hne p hp) hq
      have hheld := Exits.held_pos_of_exit hx hp
      exact hs'.tidy.not_pending (by omega)

omit [DecidableEq L] [DecidableEq A] [AbstractState S] in
/-- Nothing is pending at the start. -/
theorem start : e.Framed (fun _ => ⟨[], []⟩) K (.start e.options) where
  wellFormed := by
    refine ⟨Nat.one_pos, rfl, rfl, fun id hid hroot => absurd ?_ hroot⟩
    cases id
    exact congrArg LayerId.mk (Nat.lt_one_iff.mp hid)
  live := fun j i hi => by cases hi
  follows := fun j hj => by cases hj
  returning := fun j hj => by cases hj
  predecessors := fun j i p q hi => by cases hi
  calls := fun layer c hcall => by cases hcall
  exits := fun layer x hx => by cases hx

/-- What is seeded belongs to the root layer. -/
theorem seed (h : e.Framed F K s) {location : L} {action : A}
    (hseed : e.SeedPart location action s s') (hK : ∀ j l, K j l → K' j l) :
    e.Framed F K' s' := by
  obtain ⟨state, stored, layers, id, -, hadd, hgrows⟩ := hseed
  have hlayers := hgrows.unmoved.layers
  have hexits := hgrows.unmoved.exits
  have hsize : s'.layers.size = s.layers.size := by
    rw [hlayers]
    exact (Layers.addState_ok hadd).size_eq
  have hF : ∀ j : LayerId, j.index < s.layers.size → F j = F j := fun _ _ => rfl
  -- A seeded item is in no scope and no loop, just as the root layer is.
  have hinitial : ∀ i, (i : Item L A S) = .initial action (.single state) Layers.root →
      F.Within K' s.layers.size Layers.root i := by
    intro i hi
    rw [hi]
    have hwell := h.wellFormed
    refine ⟨hwell.pos, rfl, hwell.root_scopes.symm, ?_, ?_⟩
    · rw [hwell.root_loops]
      exact List.prefix_refl _
    · intro l hl
      rw [hwell.root_loops] at hl
      cases hl
  have hbefore : ∀ j i p q, s'.items.get j = .ok i → i.predecessor = some p →
      s'.items.get p = .ok q → s.items.get p = .ok q := fun j i p q hi hp hq =>
    hgrows.get_predecessor hi hp hq
  constructor
  case wellFormed =>
    rw [hsize]
    exact h.wellFormed.mono hK hF
  case live =>
    intro j i hi hreturned
    rw [hsize]
    obtain ⟨-, hnew⟩ | ⟨hi, -⟩ := hgrows.old_singleton hi
    · exact ⟨Layers.root, hinitial i hnew⟩
    · obtain ⟨layer, hwithin⟩ := h.live j i hi hreturned
      exact ⟨layer, hwithin.mono hK hF le_rfl⟩
  case follows =>
    intro j hj i p q hi hreturned hp hq
    have hq' := hbefore j i p q hi hp hq
    obtain ⟨-, rfl⟩ | ⟨hi, hjold⟩ := hgrows.old_singleton hi
    · cases hp
    · exact h.follows j (hjold hj) i p q hi hreturned hp hq'
  case returning =>
    intro j hj i hi hreturned
    rw [hsize]
    have hitems := fun p q hp hq => hbefore j i p q hi hp hq
    obtain ⟨-, rfl⟩ | ⟨hi, hjold⟩ := hgrows.old_singleton hi
    · cases hreturned
    · obtain ⟨layer, hreturning⟩ := h.returning j (hjold hj) i hi hreturned
      exact ⟨layer, hreturning.mono hK hF le_rfl hitems⟩
  case predecessors =>
    intro j i p q hi hp hq
    rw [hsize]
    have hq' := hbefore j i p q hi hp hq
    obtain ⟨-, rfl⟩ | ⟨hi, -⟩ := hgrows.old_singleton hi
    · cases hp
    · obtain ⟨layer, hwithin⟩ := h.predecessors j i p q hi hp hq'
      exact ⟨layer, hwithin.mono hK hF le_rfl⟩
  case calls =>
    intro layer c hcall i hi
    have hheld := Exits.held_pos_of_call hcall
    rw [hexits] at hcall
    rw [hsize]
    -- A call is held by the activation it waits for, so it is not the pending item that is new.
    exact (h.calls layer c hcall i
      (hgrows.get_before (hgrows.tidy.not_pending (by omega)) hi)).mono hK hF le_rfl
  case exits =>
    intro layer x hx
    have hx' := hx
    rw [hexits] at hx
    rw [hsize]
    refine (h.exits layer x hx).mono hK hF le_rfl fun p q hp hq => hgrows.get_before ?_ hq
    have hheld := Exits.held_pos_of_exit hx' hp
    exact hgrows.tidy.not_pending (by omega)

end Framed

end Engine

end Interproc
