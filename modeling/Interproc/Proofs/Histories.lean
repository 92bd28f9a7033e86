/-
  Interproc.Proofs.Histories
  ──────────────────────────
  What any sequence of operations makes of a storage.  An operation creates a layer,
  merges states into those stored for a location, or records a fixpoint; it fails if
  there is no such layer, and the storage is then as before.

    * `Forest` — ids are positions, parents come before their children, and every
      layer lists its children, oldest first;
    * `Sound` — also, stored states are in normal form;
    * `Extends` — states and recorded fixpoints only grow.

  Main result: `Layers.contract_of_history`.
-/
import Mathlib
import Interproc.Proofs.Intervals
import Interproc.Proofs.Storage

namespace Interproc

variable {L A S : Type}

namespace Layers

/-! ## §1. Operations. -/

/-- A change to a storage. -/
inductive Operation (L A S : Type) where
  /-- Create a layer below another one. -/
  | create (parent : LayerId)
  /-- Merge states into those stored for a location. -/
  | add (id : LayerId) (location : L) (candidate : Disjunction S)
  /-- Record a fixpoint for entering the scope of an action. -/
  | fixpoint (id : LayerId) (action : A) (state : Disjunction S)

namespace Operation

/-- The layer that an operation looks up. -/
def layer : Operation L A S → LayerId
  | create parent => parent
  | add id _ _ => id
  | fixpoint id _ _ => id

variable [AbstractState S]

/-- The states that an operation brings have no bottom disjunct. -/
def Proper : Operation L A S → Prop
  | create _ => True
  | add _ _ candidate => candidate.Proper
  | fixpoint _ _ state => state.Proper

instance : DecidablePred (Proper : Operation L A S → Prop)
  | create _ => inferInstanceAs (Decidable True)
  | add _ _ candidate =>
    inferInstanceAs (Decidable (∀ s ∈ candidate.states, Interproc.isBottom s = false))
  | fixpoint _ _ state =>
    inferInstanceAs (Decidable (∀ s ∈ state.states, Interproc.isBottom s = false))

/-- An operation that merges states into those stored for a location in a layer. -/
def Writes (op : Operation L A S) (id : LayerId) (location : L) : Prop :=
  ∃ candidate, op = add id location candidate

end Operation

variable {m m' m'' : Layers L A S} {op : Operation L A S} {ops : List (Operation L A S)}
variable {id parent : LayerId} {layer layer' : Layer L A S}

section Performing

variable [DecidableEq L] [DecidableEq A] [AbstractState S]

/-- The storage after an operation, or why the operation fails. -/
def perform (m : Layers L A S) : Operation L A S → Except Error (Layers L A S)
  | .create parent => do return (← m.create parent).2
  | .add id location candidate => do return (← m.addState id location candidate).2
  | .fixpoint id action state => m.addScopeFixpoint id action state

/-- The storage after an operation, whether it fails or not. -/
def after (m : Layers L A S) (op : Operation L A S) : Layers L A S :=
  match m.perform op with
  | .ok m' => m'
  | .error _ => m

/-- The storage after a sequence of operations, from an empty root layer on. -/
def history (width : Nat) (ops : List (Operation L A S)) : Layers L A S :=
  ops.foldl after (empty width)

theorem history_concat (width : Nat) (ops : List (Operation L A S)) (op : Operation L A S) :
    history width (ops ++ [op]) = (history width ops).after op :=
  List.foldl_append

/-- An operation fails exactly if there is no such layer. -/
theorem perform_eq_error {cause : Error} : m.perform op = .error cause ↔
    m.size ≤ op.layer.index ∧ cause = .layerNotFound op.layer.index := by
  have hlayer : ∀ {α : Type} (f : Layer L A S → Except Error α),
      (∀ layer, ∃ a, f layer = .ok a) → ((m.layer op.layer >>= f) = .error cause ↔
        m.size ≤ op.layer.index ∧ cause = .layerNotFound op.layer.index) := by
    intro α f hf
    unfold Layers.layer size
    cases hget : m.layers[op.layer.index]? with
    | none =>
      have hsize := Array.getElem?_eq_none_iff.mp hget
      show Except.error _ = Except.error cause ↔ _
      rw [Except.error.injEq]
      exact ⟨fun h => ⟨hsize, h.symm⟩, fun h => h.2.symm⟩
    | some layer =>
      have hsize := (Array.getElem?_eq_some_iff.mp hget).1
      obtain ⟨a, ha⟩ := hf layer
      show f layer = .error cause ↔ _
      rw [ha]
      exact ⟨fun h => (nomatch h), fun h => absurd h.1 (by omega)⟩
  cases op with
  | create parent =>
    simp only [perform, create, bind_assoc]
    exact hlayer _ fun _ => ⟨_, rfl⟩
  | add id location candidate =>
    simp only [perform, addState, bind_assoc]
    exact hlayer _ fun _ => ⟨_, rfl⟩
  | fixpoint id action state =>
    exact hlayer _ fun _ => ⟨_, rfl⟩

/-- What happened when an operation succeeded. -/
inductive Performed (m : Layers L A S) : Operation L A S → Layers L A S → Prop where
  | created {parent id : LayerId} {m' : Layers L A S} (h : m.create parent = .ok (id, m')) :
      Performed m (.create parent) m'
  | merged {id : LayerId} {location : L} {candidate stored : Disjunction S} {m' : Layers L A S}
      (h : m.addState id location candidate = .ok (stored, m')) :
      Performed m (.add id location candidate) m'
  | recorded {id : LayerId} {action : A} {state : Disjunction S} {m' : Layers L A S}
      (h : m.addScopeFixpoint id action state = .ok m') : Performed m (.fixpoint id action state) m'

theorem perform_ok (h : m.perform op = .ok m') : m.Performed op m' := by
  cases op with
  | create parent =>
    obtain ⟨⟨id, m₁⟩, hcreate, h⟩ := except_bind_eq_ok.mp h
    cases h
    exact .created hcreate
  | add id location candidate =>
    obtain ⟨⟨stored, m₁⟩, hadd, h⟩ := except_bind_eq_ok.mp h
    cases h
    exact .merged hadd
  | fixpoint id action state => exact .recorded h

/-- What an operation does not spoil, and holds before it, holds after it. -/
theorem after_cases {P : Layers L A S → Prop} (hm : P m)
    (hstep : ∀ m', m.perform op = .ok m' → P m') : P (m.after op) := by
  unfold after
  split
  · rename_i m' hok
    exact hstep m' hok
  · exact hm

/-- What holds at first, and is kept by every operation of a sequence, holds after the sequence. -/
theorem history_induct {P : Layers L A S → Prop} {Q : Operation L A S → Prop} {width : Nat}
    (hempty : P (empty width)) (hstep : ∀ m op m', P m → Q op → m.perform op = .ok m' → P m')
    (hops : ∀ op ∈ ops, Q op) : P (history width ops) := by
  induction ops using List.reverseRecOn with
  | nil => exact hempty
  | append_singleton ops op ih =>
    have hm := ih fun op' hop' => hops op' (List.mem_append_left _ hop')
    rw [history_concat]
    refine after_cases hm fun m' hok => hstep _ op m' hm ?_ hok
    exact hops op (List.mem_append_right _ List.mem_cons_self)

end Performing

/-! ## §2. The forest of layers. -/

/-- Layers are where their ids say, below layers that were there before them, and a layer lists
the layers below it in the order in which they were created. -/
structure Forest (m : Layers L A S) : Prop where
  id_eq : ∀ (i : Nat) (layer : Layer L A S), m.layers[i]? = some layer → layer.id = ⟨i⟩
  parent_none : ∀ (i : Nat) (layer : Layer L A S), m.layers[i]? = some layer →
    (layer.parent = none ↔ i = 0)
  parent_lt : ∀ (i : Nat) (layer : Layer L A S) (parent : LayerId), m.layers[i]? = some layer →
    layer.parent = some parent → parent.index < i
  ascending : ∀ (i : Nat) (layer : Layer L A S), m.layers[i]? = some layer →
    layer.children.Pairwise fun j k => j.index < k.index
  mem_children : ∀ (i : Nat) (layer : Layer L A S) (j : LayerId), m.layers[i]? = some layer →
    (j ∈ layer.children ↔ m.parent? j = some ⟨i⟩)

theorem parent?_eq_some {j : LayerId} (h : m.parent? j = some parent) :
    ∃ layer, m.layers[j.index]? = some layer ∧ layer.parent = some parent :=
  Option.bind_eq_some_iff.mp h

theorem Forest.parent?_lt {j : LayerId} (h : m.Forest) (hj : m.parent? j = some parent) :
    parent.index < j.index ∧ j.index < m.size := by
  obtain ⟨layer, hlayer, hparent⟩ := parent?_eq_some hj
  exact ⟨h.parent_lt j.index layer parent hlayer hparent, lt_size_of_getElem? hlayer⟩

theorem forest_empty (width : Nat) : (empty width : Layers L A S).Forest := by
  have hroot : ∀ {i : Nat} {layer : Layer L A S},
      (empty width : Layers L A S).layers[i]? = some layer →
      i = 0 ∧ layer = { id := root, parent := none } := by
    intro i layer h
    have hlt : i < 1 := (Array.getElem?_eq_some_iff.mp h).1
    have hlayer : (empty width : Layers L A S).layers[(⟨i⟩ : LayerId).index]? = some layer := h
    exact ⟨by omega, getElem?_empty hlayer⟩
  constructor
  case id_eq =>
    intro i layer h
    obtain ⟨rfl, rfl⟩ := hroot h
    rfl
  case parent_none =>
    intro i layer h
    obtain ⟨rfl, rfl⟩ := hroot h
    simp
  case parent_lt =>
    intro i layer parent h hparent
    obtain ⟨rfl, rfl⟩ := hroot h
    cases hparent
  case ascending =>
    intro i layer h
    obtain ⟨rfl, rfl⟩ := hroot h
    exact List.Pairwise.nil
  case mem_children =>
    intro i layer j h
    obtain ⟨rfl, rfl⟩ := hroot h
    refine ⟨fun hj => (nomatch hj), fun hj => ?_⟩
    obtain ⟨layer, hlayer, hparent⟩ := parent?_eq_some hj
    obtain ⟨-, rfl⟩ := hroot hlayer
    cases hparent

/-- A layer may be replaced by one with the same id, parent and children. -/
theorem Forest.setLayer (h : m.Forest) (hget : m.layers[id.index]? = some layer)
    (hid : layer'.id = layer.id) (hparent : layer'.parent = layer.parent)
    (hchildren : layer'.children = layer.children) : (m.setLayer id layer').Forest := by
  -- Every layer agrees with one that was at its place before.
  have hold : ∀ {i : Nat} {l : Layer L A S}, (m.setLayer id layer').layers[i]? = some l →
      ∃ l', m.layers[i]? = some l' ∧ l.id = l'.id ∧ l.parent = l'.parent ∧
        l.children = l'.children := by
    intro i l hl
    rw [getElem?_setLayer layer' hget] at hl
    split at hl
    · rename_i hi
      subst hi
      cases hl
      exact ⟨layer, hget, hid, hparent, hchildren⟩
    · exact ⟨l, hl, rfl, rfl, rfl⟩
  constructor
  case id_eq =>
    intro i l hl
    obtain ⟨l', hl', hid', -, -⟩ := hold hl
    exact hid'.trans (h.id_eq i l' hl')
  case parent_none =>
    intro i l hl
    obtain ⟨l', hl', -, hparent', -⟩ := hold hl
    rw [hparent']
    exact h.parent_none i l' hl'
  case parent_lt =>
    intro i l p hl hp
    obtain ⟨l', hl', -, hparent', -⟩ := hold hl
    exact h.parent_lt i l' p hl' (hparent'.symm.trans hp)
  case ascending =>
    intro i l hl
    obtain ⟨l', hl', -, -, hchildren'⟩ := hold hl
    rw [hchildren']
    exact h.ascending i l' hl'
  case mem_children =>
    intro i l j hl
    obtain ⟨l', hl', -, -, hchildren'⟩ := hold hl
    rw [hchildren', parent?_setLayer hget j hparent]
    exact h.mem_children i l' j hl'

/-- Where the layers are after one was created: the new one is the last, and is listed by the layer
that it was created below. -/
theorem getElem?_create (hcreate : m.create parent = .ok (id, m')) {i : Nat}
    (hlayer : m'.layers[i]? = some layer) :
    i = m.size ∧ layer = { id := ⟨m.size⟩, parent := some parent } ∨
      i < m.size ∧ ∃ old, m.layers[i]? = some old ∧ layer.id = old.id ∧ layer.parent = old.parent ∧
        layer.children = if i = parent.index then old.children ++ [⟨m.size⟩] else old.children := by
  obtain ⟨caller, hcaller, hcreate⟩ := except_bind_eq_ok.mp hcreate
  cases hcreate
  have hget := layer_eq_ok hcaller
  have hsize : ∀ caller' : Layer L A S, (m.setLayer parent caller').layers.size = m.size := by
    intro caller'
    simp [setLayer, size]
  rw [Array.getElem?_push, hsize] at hlayer
  split at hlayer
  · rename_i hi
    exact .inl ⟨hi, (Option.some.inj hlayer).symm⟩
  · rename_i hi
    have hlt := (Array.getElem?_eq_some_iff.mp hlayer).1
    rw [hsize] at hlt
    rw [getElem?_setLayer _ hget] at hlayer
    refine .inr ⟨hlt, ?_⟩
    split at hlayer
    · rename_i hparent
      cases hlayer
      exact ⟨caller, hparent ▸ hget, rfl, rfl, by rw [if_pos hparent.symm]⟩
    · rename_i hother
      exact ⟨layer, hlayer, rfl, rfl, by rw [if_neg (Ne.symm hother)]⟩

variable [DecidableEq L] [DecidableEq A]

/-- The parents after a layer was created. -/
theorem Created.parent?_eq (h : Created m parent id m') (j : LayerId) :
    m'.parent? j = if j = id then some parent else m.parent? j := by
  split
  · rename_i hj
    rw [hj, h.parent_new]
  · rename_i hj
    by_cases hlt : j.index < m.size
    · exact h.parent_eq j hlt
    · -- Beyond the new layer there is nothing, neither before nor after.
      have hne : j.index ≠ m.size := by
        intro hindex
        apply hj
        rw [h.id_eq, ← hindex]
      have hsize := h.size_eq
      have hout : m'.layers[j.index]? = none := Array.getElem?_eq_none (by unfold size at *; omega)
      have hout' : m.layers[j.index]? = none := Array.getElem?_eq_none (by unfold size at *; omega)
      rw [parent?, parent?, hout, hout']

/-- The new layer is listed by its parent, and the lists are else as before. -/
theorem Forest.mem_children_create (h : m.Forest) (hcreate : m.create parent = .ok (id, m'))
    {i : Nat} (hlayer : m'.layers[i]? = some layer) (j : LayerId) :
    j ∈ layer.children ↔ m'.parent? j = some ⟨i⟩ := by
  have hcreated := create_ok hcreate
  have hid := hcreated.id_eq
  rw [hcreated.parent?_eq]
  obtain ⟨rfl, rfl⟩ | ⟨hi, old, hold, -, -, hsame⟩ := getElem?_create hcreate hlayer
  · -- Nothing is below the new layer: parents come before their children.
    refine ⟨fun hj => (nomatch hj), fun hj => ?_⟩
    split at hj
    · have hlt := hcreated.parent_lt
      rw [Option.some.inj hj] at hlt
      exact absurd hlt (Nat.lt_irrefl _)
    · have hlt := h.parent?_lt hj
      exact absurd (hlt.1.trans hlt.2) (Nat.lt_irrefl _)
  · have hmem := h.mem_children i old j hold
    -- The position of the new layer was vacant, so it had no parent.
    have hnew : j = id → m.parent? j ≠ some ⟨i⟩ := by
      intro hj hparent
      have hsize := (h.parent?_lt hparent).2
      rw [hj, hid] at hsize
      exact Nat.lt_irrefl _ hsize
    rw [hsame]
    by_cases hparent : i = parent.index
    · rw [if_pos hparent, List.mem_append, List.mem_singleton, hmem, ← hid]
      by_cases hj : j = id
      · simp [hj, hparent]
      · simp [hj]
    · have hne : (some parent : Option LayerId) ≠ some ⟨i⟩ := by
        intro hsome
        apply hparent
        rw [Option.some.inj hsome]
      rw [if_neg hparent, hmem]
      by_cases hj : j = id
      · rw [if_pos hj]
        exact ⟨fun hold => absurd hold (hnew hj), fun hp => absurd hp hne⟩
      · rw [if_neg hj]

theorem Forest.create (h : m.Forest) (hcreate : m.create parent = .ok (id, m')) : m'.Forest := by
  have hlt := (create_ok hcreate).parent_lt
  constructor
  case id_eq =>
    intro i layer hlayer
    obtain ⟨rfl, rfl⟩ | ⟨-, old, hold, hsame, -, -⟩ := getElem?_create hcreate hlayer
    · rfl
    · exact hsame.trans (h.id_eq i old hold)
  case parent_none =>
    intro i layer hlayer
    obtain ⟨rfl, rfl⟩ | ⟨-, old, hold, -, hsame, -⟩ := getElem?_create hcreate hlayer
    · exact ⟨fun hnone => (nomatch hnone), fun hzero => by omega⟩
    · rw [hsame]
      exact h.parent_none i old hold
  case parent_lt =>
    intro i layer p hlayer hp
    obtain ⟨rfl, rfl⟩ | ⟨-, old, hold, -, hsame, -⟩ := getElem?_create hcreate hlayer
    · cases hp
      exact hlt
    · exact h.parent_lt i old p hold (hsame.symm.trans hp)
  case ascending =>
    intro i layer hlayer
    obtain ⟨rfl, rfl⟩ | ⟨-, old, hold, -, -, hsame⟩ := getElem?_create hcreate hlayer
    · exact List.Pairwise.nil
    · rw [hsame]
      split
      · -- All children so far are layers that were there before the new one.
        refine List.pairwise_append.mpr ⟨h.ascending i old hold, List.pairwise_singleton _ _, ?_⟩
        intro j hj k hk
        rw [List.mem_singleton.mp hk]
        exact (h.parent?_lt ((h.mem_children i old j hold).mp hj)).2
      · exact h.ascending i old hold
  case mem_children =>
    intro i layer j hlayer
    exact h.mem_children_create hcreate hlayer j

/-! ## §3. What is stored. -/

variable [AbstractState S]

/-- The layers are a forest, stored states are in normal form, and recorded fixpoints have no
bottom disjunct. -/
structure Sound (m : Layers L A S) : Prop where
  forest : m.Forest
  normal : ∀ j l d, m.stored? j l = some d → d.Normal m.width
  fixpoints : ∀ j a d, m.fixpoint? j a = some d → d.Proper

theorem sound_empty (width : Nat) : (empty width : Layers L A S).Sound where
  forest := forest_empty width
  normal := fun _ _ _ hd => by
    rw [stored?_empty] at hd
    cases hd
  fixpoints := fun _ _ _ hd => by
    rw [fixpoint?_empty] at hd
    cases hd

theorem Sound.create (h : m.Sound) (hcreate : m.create parent = .ok (id, m')) : m'.Sound := by
  have hcreated := create_ok hcreate
  refine ⟨h.forest.create hcreate, fun j l d hd => ?_, fun j a d hd => ?_⟩
  · rw [hcreated.stored_eq] at hd
    rw [hcreated.width_eq]
    exact h.normal j l d hd
  · rw [hcreated.fixpoint_eq] at hd
    exact h.fixpoints j a d hd

theorem Sound.addState {location : L} {d stored : Disjunction S} (h : m.Sound)
    (hadd : m.addState id location d = .ok (stored, m')) : m'.Sound := by
  have hmerged := addState_ok hadd
  obtain ⟨layer, hlayer, hadd⟩ := except_bind_eq_ok.mp hadd
  cases hadd
  refine ⟨h.forest.setLayer (layer_eq_ok hlayer) rfl rfl rfl, fun j l d' hd' => ?_,
    fun j a d' hd' => ?_⟩
  · rw [hmerged.stored_eq] at hd'
    rw [hmerged.width_eq]
    split at hd'
    · cases hd'
      rw [hmerged.stored_def]
      apply Disjunction.normal_merge
      cases hprevious : m.stored? id location with
      | none => exact Disjunction.normal_bottom
      | some previous => exact h.normal id location previous hprevious
    · exact h.normal j l d' hd'
  · rw [hmerged.fixpoint_eq] at hd'
    exact h.fixpoints j a d' hd'

theorem Sound.addScopeFixpoint {action : A} {d : Disjunction S} (h : m.Sound) (hd : d.Proper)
    (hadd : m.addScopeFixpoint id action d = .ok m') : m'.Sound := by
  have hadded := addScopeFixpoint_ok hadd
  obtain ⟨layer, hlayer, hadd⟩ := except_bind_eq_ok.mp hadd
  refine ⟨?_, fun j l d' hd' => ?_, fun j a d' hd' => ?_⟩
  · cases hadd
    exact h.forest.setLayer (layer_eq_ok hlayer) rfl rfl rfl
  · rw [hadded.stored_eq] at hd'
    rw [hadded.width_eq]
    exact h.normal j l d' hd'
  · rw [hadded.fixpoint_eq] at hd'
    split at hd'
    · cases hd'
      cases hprevious : m.fixpoint? id action with
      | none => exact hd
      | some previous =>
        exact Disjunction.proper_merge (h.fixpoints id action previous hprevious) _ _
    · exact h.fixpoints j a d' hd'

/-- Every operation keeps a storage sound. -/
theorem Sound.perform (h : m.Sound) (hop : op.Proper) (hok : m.perform op = .ok m') :
    m'.Sound := by
  cases perform_ok hok with
  | created hcreate => exact h.create hcreate
  | merged hadd => exact h.addState hadd
  | recorded hadd => exact h.addScopeFixpoint hop hadd

theorem width_perform (hok : m.perform op = .ok m') : m'.width = m.width := by
  cases perform_ok hok with
  | created hcreate => exact (create_ok hcreate).width_eq
  | merged hadd => exact (addState_ok hadd).width_eq
  | recorded hadd => exact (addScopeFixpoint_ok hadd).width_eq

/-- Every history leads to a sound storage. -/
theorem sound_history (width : Nat) (hops : ∀ op ∈ ops, op.Proper) :
    (history width ops).Sound ∧ (history width ops).width = width := by
  refine history_induct (P := fun m => m.Sound ∧ m.width = width) ⟨sound_empty width, rfl⟩ ?_ hops
  intro m op m' hm hop hok
  exact ⟨hm.1.perform hop hok, (width_perform hok).trans hm.2⟩

/-- An operation changes what is stored only where it merges states. -/
theorem stored?_after {location : L} (h : ¬ op.Writes id location) :
    (m.after op).stored? id location = m.stored? id location := by
  refine after_cases (P := fun m' => m'.stored? id location = m.stored? id location) rfl ?_
  intro m' hok
  cases perform_ok hok with
  | created hcreate => exact (create_ok hcreate).stored_eq _ _
  | merged hadd =>
    rw [(addState_ok hadd).stored_eq, if_neg]
    rintro ⟨rfl, rfl⟩
    exact h ⟨_, rfl⟩
  | recorded hadd => exact (addScopeFixpoint_ok hadd).stored_eq _ _

/-! ## §4. What was said is never taken back. -/

variable [GroundedState S]

/-- What is stored and recorded in a storage is covered in a later one. -/
structure Extends (m m' : Layers L A S) : Prop where
  grown : m.Grown m'
  fixpoint : ∀ j a d, m.fixpoint? j a = some d →
    ∃ d', m'.fixpoint? j a = some d' ∧ d.isSubset d' = true

theorem Extends.refl (m : Layers L A S) : m.Extends m :=
  ⟨.refl m, fun _ _ d hd => ⟨d, hd, Disjunction.isSubset_refl d⟩⟩

theorem Extends.trans (h : m.Extends m') (h' : m'.Extends m'') : m.Extends m'' where
  grown := h.grown.trans h'.grown
  fixpoint := by
    intro j a d hd
    obtain ⟨d', hd', hsub⟩ := h.fixpoint j a d hd
    obtain ⟨d'', hd'', hsub'⟩ := h'.fixpoint j a d' hd'
    exact ⟨d'', hd'', Disjunction.isSubset_trans hsub hsub'⟩

theorem Sound.extends_perform (h : m.Sound) (hok : m.perform op = .ok m') : m.Extends m' := by
  cases perform_ok hok with
  | created hcreate =>
    have hcreated := create_ok hcreate
    refine ⟨hcreated.grown, fun j a d hd => ⟨d, ?_, Disjunction.isSubset_refl d⟩⟩
    exact (hcreated.fixpoint_eq j a).trans hd
  | merged hadd =>
    have hmerged := addState_ok hadd
    refine ⟨hmerged.grown fun j l d hd => (h.normal j l d hd).proper,
      fun j a d hd => ⟨d, ?_, Disjunction.isSubset_refl d⟩⟩
    exact (hmerged.fixpoint_eq j a).trans hd
  | recorded hadd =>
    have hadded := addScopeFixpoint_ok hadd
    refine ⟨hadded.grown, fun j a d hd => ?_⟩
    rw [hadded.fixpoint_eq]
    split
    · rename_i hsame
      obtain ⟨rfl, rfl⟩ := hsame
      refine ⟨_, rfl, ?_⟩
      rw [hd, Option.map_some, Option.getD_some]
      exact Disjunction.isSubset_merge_left (h.fixpoints j a d hd) _ _
    · exact ⟨d, hd, Disjunction.isSubset_refl d⟩

/-- A history extends every shorter one. -/
theorem extends_history (width : Nat) {later : List (Operation L A S)}
    (hops : ∀ op ∈ ops ++ later, op.Proper) :
    (history width ops).Extends (history width (ops ++ later)) := by
  induction later using List.reverseRecOn with
  | nil =>
    rw [List.append_nil]
    exact .refl _
  | append_singleton later op ih =>
    rw [← List.append_assoc] at hops ⊢
    have hbefore := fun op' hop' => hops op' (List.mem_append_left _ hop')
    rw [history_concat]
    refine after_cases (P := (history width ops).Extends) (ih hbefore) fun m' hok => ?_
    exact (ih hbefore).trans ((sound_history width hbefore).1.extends_perform hok)

/-- What was merged is covered, however many operations followed. -/
theorem holds_history (width : Nat) {later : List (Operation L A S)} {location : L}
    {candidate : Disjunction S}
    (hops : ∀ op ∈ ops ++ .add id location candidate :: later, op.Proper)
    (hid : id.index < (history width ops).size) :
    (history width (ops ++ .add id location candidate :: later)).Holds id location candidate := by
  have hlist : ops ++ .add id location candidate :: later =
      ops ++ [.add id location candidate] ++ later := by simp
  have hproper : candidate.Proper :=
    hops (.add id location candidate) (List.mem_append_right _ List.mem_cons_self)
  rw [hlist] at hops ⊢
  refine Holds.grown ?_ (extends_history width hops).grown
  rw [history_concat]
  -- The layer is there, so the operation succeeds.
  unfold after
  cases hok : (history width ops).perform (.add id location candidate) with
  | error cause => exact absurd (perform_eq_error.mp hok).1 (Nat.not_le_of_lt hid)
  | ok m' =>
    cases perform_ok hok with
    | merged hadd => exact (addState_ok hadd).holds_of_proper hproper

theorem isScopeFixpoint_extends {action : A} {d : Disjunction S} (h : m.Extends m')
    (hm : m.isScopeFixpoint id action d = .ok true) :
    m'.isScopeFixpoint id action d = .ok true := by
  obtain ⟨recorded, hrecorded, hsub⟩ :=
    (Option.any_eq_true _ _).mp (isScopeFixpoint_eq_ok hm).symm
  obtain ⟨recorded', hrecorded', hsub'⟩ := h.fixpoint _ _ _ hrecorded
  obtain ⟨layer, hlayer, hfind⟩ := Option.bind_eq_some_iff.mp hrecorded'
  unfold isScopeFixpoint Layers.layer
  rw [hlayer]
  show Except.ok ((layer.scopeFixpoints.find? action).any d.isSubset) = _
  rw [hfind, Option.any_some, Disjunction.isSubset_trans hsub hsub']

/-- The contract of a storage, over any sequence of operations, those that fail included, with
states that have no bottom disjuncts.  Ids are positions, parents have smaller ids, and the lists
of children are the inverse of the parents, ascending.  Stored states have no bottom disjunct, no
disjunct below another one, and no more disjuncts than allowed.  They cover all that was ever
merged into them, and fixpoints are never forgotten.  An operation changes no stored state but the
one that it merges states into; it fails only if there is no such layer, and then changes
nothing. -/
theorem contract_of_history (width : Nat) (hops : ∀ op ∈ ops, op.Proper) :
    (history width ops).Forest ∧
    (∀ id location d, (history width ops).stored? id location = some d → d.Proper ∧ d.Apart ∧
      d.states.length ≤ max 1 width) ∧
    (∀ earlier id location candidate later, ops = earlier ++ .add id location candidate :: later →
      id.index < (history width earlier).size → ∃ d,
        (history width ops).stored? id location = some d ∧ ∀ s ∈ candidate.states, d.Covers s) ∧
    (∀ earlier later id action d, ops = earlier ++ later →
      (history width earlier).isScopeFixpoint id action d = .ok true →
      (history width ops).isScopeFixpoint id action d = .ok true) ∧
    (∀ op id location, ¬ op.Writes id location →
      ((history width ops).after op).stored? id location =
        (history width ops).stored? id location) ∧
    ∀ op cause, ((history width ops).perform op = .error cause ↔
        (history width ops).size ≤ op.layer.index ∧ cause = .layerNotFound op.layer.index) ∧
      ((history width ops).perform op = .error cause →
        (history width ops).after op = history width ops) := by
  obtain ⟨hsound, hwidth⟩ := sound_history width hops
  refine ⟨hsound.forest, fun id location d hd => ?_, ?_, ?_, fun op id location => stored?_after,
    fun op cause => ⟨perform_eq_error, fun herror => ?_⟩⟩
  · obtain ⟨hproper, hapart, hlength⟩ := hsound.normal id location d hd
    rw [hwidth, max_comm] at hlength
    exact ⟨hproper, hapart, hlength⟩
  · rintro earlier id location candidate later rfl hid
    obtain ⟨d, hd, hsub⟩ := holds_history width hops hid
    exact ⟨d, hd, Disjunction.isSubset_iff.mp hsub⟩
  · rintro earlier later id action d rfl hfixpoint
    exact isScopeFixpoint_extends (extends_history width hops) hfixpoint
  · unfold after
    rw [herror]

/-- Three values in one place of a storage that keeps two of them apart, a layer that is created
below one that does not exist, and a fixpoint that is merged with another one. -/
def crowded : List (Operation Nat String IntervalState) :=
  let x k : Disjunction IntervalState := ⟨[IntervalState.unconstrained.setVariable "x" k]⟩
  [.create root, .add ⟨1⟩ 0 (x (.constant 1)), .create ⟨7⟩, .fixpoint ⟨1⟩ "f" (x (.constant 1)),
    .add ⟨1⟩ 0 (x (.constant 5)), .create ⟨1⟩, .add ⟨1⟩ 0 (x (.constant 9)), .create ⟨1⟩,
    .fixpoint ⟨1⟩ "f" (x (.constant 9))]

set_option maxRecDepth 100000 in
/-- The storage of three values in one place covers all of them with two disjuncts. -/
theorem contract_of_history_crowded : (∀ op ∈ crowded, op.Proper) ∧
    (history 2 crowded).Forest ∧ (∃ d, (history 2 crowded).stored? ⟨1⟩ 0 = some d ∧
      d.Proper ∧ d.Apart ∧ d.states.length ≤ 2 ∧
      d.Covers (IntervalState.unconstrained.setVariable "x" (.constant 1))) ∧
    (history 2 crowded).isScopeFixpoint ⟨1⟩ "f"
      ⟨[IntervalState.unconstrained.setVariable "x" (.constant 1)]⟩ = .ok true ∧
    (history 2 crowded).perform (.create ⟨7⟩) = .error (.layerNotFound 7) := by
  have hproper : ∀ op ∈ crowded, op.Proper := by decide +kernel
  obtain ⟨hforest, hstored, hcovered, hfixpoint, -, hfails⟩ := contract_of_history 2 hproper
  have hearly : 1 < (history 2 (crowded.take 1)).size := by decide +kernel
  have hrecorded : (history 2 (crowded.take 4)).isScopeFixpoint ⟨1⟩ "f"
      ⟨[IntervalState.unconstrained.setVariable "x" (.constant 1)]⟩ = .ok true := by decide +kernel
  obtain ⟨d, hd, hcovers⟩ := hcovered (crowded.take 1) ⟨1⟩ 0 _ (crowded.drop 2) rfl hearly
  obtain ⟨hdproper, hdapart, hdlength⟩ := hstored ⟨1⟩ 0 d hd
  exact ⟨hproper, hforest, ⟨d, hd, hdproper, hdapart, hdlength, hcovers _ List.mem_cons_self⟩,
    hfixpoint (crowded.take 4) (crowded.drop 4) ⟨1⟩ "f" _ rfl hrecorded,
    (hfails (.create ⟨7⟩) _).1.mpr ⟨by decide +kernel, rfl⟩⟩

end Layers

end Interproc
