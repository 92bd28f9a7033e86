/-
  Interproc.Proofs.Storage
  ────────────────────────
  What is stored in layers.  Each operation is described by what can be looked up
  afterwards; from that, stored states only grow, and layers only become more.
-/
import Mathlib
import Interproc.Fixpoint.Layers
import Interproc.Proofs.Disjunctions

namespace Interproc

variable {L A S : Type}

namespace Layers

variable {m m' : Layers L A S} {id : LayerId} {location : L} {action : A} {d stored : Disjunction S}

/-! ## §1. Looking things up. -/

theorem getElem?_empty {width : Nat} {layer : Layer L A S}
    (h : (empty width : Layers L A S).layers[id.index]? = some layer) :
    layer = { id := root, parent := none } :=
  List.mem_singleton.mp (List.mem_of_getElem? (Array.getElem?_toList ▸ h))

theorem layer_eq_ok {layer : Layer L A S} (h : m.layer id = .ok layer) :
    m.layers[id.index]? = some layer := by
  unfold Layers.layer at h
  split at h
  · rename_i hlayer
    cases h
    exact hlayer
  · cases h

theorem lt_size_of_getElem? {layer : Layer L A S} (h : m.layers[id.index]? = some layer) :
    id.index < m.size :=
  (Array.getElem?_eq_some_iff.mp h).1

theorem getElem?_setLayer {layer : Layer L A S} (layer' : Layer L A S)
    (h : m.layers[id.index]? = some layer) (j : Nat) : (m.setLayer id layer').layers[j]? =
      if id.index = j then some layer' else m.layers[j]? := by
  unfold setLayer
  have hlt : id.index < m.layers.size := lt_size_of_getElem? h
  simp only [Array.getElem?_setIfInBounds]
  split <;> simp_all

theorem index_eq_iff {j : LayerId} : id.index = j.index ↔ j = id := by
  cases j
  cases id
  simp [eq_comm]

/-- What is read from a layer after one was replaced.  All look-ups are of this form. -/
theorem bind_setLayer {β : Type} (f : Layer L A S → Option β) {layer : Layer L A S}
    (layer' : Layer L A S) (h : m.layers[id.index]? = some layer) (j : LayerId) :
    (m.setLayer id layer').layers[j.index]?.bind f =
      if j = id then f layer' else m.layers[j.index]?.bind f := by
  rw [getElem?_setLayer layer' h]
  simp only [index_eq_iff]
  split <;> rfl

/-- A layer that is replaced by one that agrees with it reads as before. -/
theorem bind_setLayer_of_eq {β : Type} (f : Layer L A S → Option β) {layer layer' : Layer L A S}
    (h : m.layers[id.index]? = some layer) (hsame : f layer' = f layer) (j : LayerId) :
    (m.setLayer id layer').layers[j.index]?.bind f = m.layers[j.index]?.bind f := by
  rw [bind_setLayer f layer' h]
  split
  · rename_i hj
    rw [hj, h, Option.bind_some, hsame]
  · rfl

/-- The layer below which a layer was created. -/
def parent? (m : Layers L A S) (id : LayerId) : Option LayerId :=
  m.layers[id.index]?.bind Layer.parent

theorem parent?_setLayer {layer layer' : Layer L A S}
    (h : m.layers[id.index]? = some layer) (j : LayerId) (hsame : layer'.parent = layer.parent) :
    (m.setLayer id layer').parent? j = m.parent? j :=
  bind_setLayer_of_eq Layer.parent h hsame j

section States

variable [DecidableEq L]

/-- The state stored for a location in a layer. -/
def stored? (m : Layers L A S) (id : LayerId) (location : L) : Option (Disjunction S) :=
  m.layers[id.index]?.bind fun layer => layer.states.find? location

/-- Nothing is stored at first. -/
theorem stored?_empty (width : Nat) : (empty width : Layers L A S).stored? id location = none := by
  unfold stored?
  cases hlayer : (empty width : Layers L A S).layers[id.index]? with
  | none => rfl
  | some layer =>
    rw [getElem?_empty hlayer]
    rfl

theorem lt_size_of_stored (h : m.stored? id location = some d) : id.index < m.size := by
  unfold stored? at h
  obtain ⟨layer, hlayer, -⟩ := Option.bind_eq_some_iff.mp h
  exact lt_size_of_getElem? hlayer

theorem state?_eq_ok {previous : Option (Disjunction S)} (h : m.state? id location = .ok previous) :
    previous = m.stored? id location ∧ id.index < m.size := by
  obtain ⟨layer, hlayer, h⟩ := except_bind_eq_ok.mp h
  cases h
  have hget := layer_eq_ok hlayer
  exact ⟨by simp [stored?, hget], lt_size_of_getElem? hget⟩

theorem stored?_setLayer {layer layer' : Layer L A S}
    (h : m.layers[id.index]? = some layer) (j : LayerId) (l : L)
    (hsame : layer'.states = layer.states) :
    (m.setLayer id layer').stored? j l = m.stored? j l :=
  bind_setLayer_of_eq (fun layer => layer.states.find? l) h (by rw [hsame]) j

end States

section Fixpoints

variable [DecidableEq A]

/-- The fixpoint recorded for entering the scope of an action from a layer. -/
def fixpoint? (m : Layers L A S) (id : LayerId) (action : A) : Option (Disjunction S) :=
  m.layers[id.index]?.bind fun layer => layer.scopeFixpoints.find? action

/-- No fixpoint is recorded at first. -/
theorem fixpoint?_empty (width : Nat) :
    (empty width : Layers L A S).fixpoint? id action = none := by
  unfold fixpoint?
  cases hlayer : (empty width : Layers L A S).layers[id.index]? with
  | none => rfl
  | some layer =>
    rw [getElem?_empty hlayer]
    rfl

theorem lt_size_of_fixpoint (h : m.fixpoint? id action = some d) : id.index < m.size := by
  unfold fixpoint? at h
  obtain ⟨layer, hlayer, -⟩ := Option.bind_eq_some_iff.mp h
  exact lt_size_of_getElem? hlayer

theorem isScopeFixpoint_eq_ok [AbstractState S] {b : Bool}
    (h : m.isScopeFixpoint id action d = .ok b) : b = (m.fixpoint? id action).any d.isSubset := by
  obtain ⟨layer, hlayer, h⟩ := except_bind_eq_ok.mp h
  cases h
  simp [fixpoint?, layer_eq_ok hlayer]

theorem fixpoint?_setLayer {layer layer' : Layer L A S}
    (h : m.layers[id.index]? = some layer) (j : LayerId) (a : A)
    (hsame : layer'.scopeFixpoints = layer.scopeFixpoints) :
    (m.setLayer id layer').fixpoint? j a = m.fixpoint? j a :=
  bind_setLayer_of_eq (fun layer => layer.scopeFixpoints.find? a) h (by rw [hsame]) j

end Fixpoints

/-! ## §2. Operations. -/

section Operations

variable [DecidableEq L] [DecidableEq A]

/-- What creating a layer changes. -/
structure Created (m : Layers L A S) (parent id : LayerId) (m' : Layers L A S) : Prop where
  id_eq : id = ⟨m.size⟩
  parent_lt : parent.index < m.size
  size_eq : m'.size = m.size + 1
  width_eq : m'.width = m.width
  stored_eq : ∀ j l, m'.stored? j l = m.stored? j l
  fixpoint_eq : ∀ j a, m'.fixpoint? j a = m.fixpoint? j a
  parent_eq : ∀ j : LayerId, j.index < m.size → m'.parent? j = m.parent? j
  parent_new : m'.parent? id = some parent

theorem create_ok {parent : LayerId} (h : m.create parent = .ok (id, m')) :
    Created m parent id m' := by
  obtain ⟨caller, hcaller, h⟩ := except_bind_eq_ok.mp h
  cases h
  have hget := layer_eq_ok hcaller
  obtain ⟨caller', hcaller', hstates, hfixpoints, hparent⟩ : ∃ caller' : Layer L A S,
      caller' = { caller with children := caller.children ++ [⟨m.size⟩] } ∧
      caller'.states = caller.states ∧ caller'.scopeFixpoints = caller.scopeFixpoints ∧
      caller'.parent = caller.parent := ⟨_, rfl, rfl, rfl, rfl⟩
  rw [← hcaller']
  have hsize : (m.setLayer parent caller').layers.size = m.size := by simp [setLayer, size]
  have hout : m.layers[m.size]? = none := Array.getElem?_eq_none (le_refl _)
  -- The caller's layer gets a child, which no look-up reads; the new layer has nothing to read.
  have hread : ∀ {β : Type} (f : Layer L A S → Option β) (j : LayerId),
      f caller' = f caller → ((m.setLayer parent caller').layers.push
        { id := (⟨m.size⟩ : LayerId), parent := some parent })[j.index]?.bind f =
        if j.index = m.size then f { id := ⟨m.size⟩, parent := some parent }
        else m.layers[j.index]?.bind f := by
    intro β f j hsame
    rw [Array.getElem?_push, hsize]
    split
    · rfl
    · exact bind_setLayer_of_eq f hget hsame j
  refine ⟨rfl, lt_size_of_getElem? hget, ?_, rfl, fun j l => ?_, fun j a => ?_, fun j hj => ?_, ?_⟩
  · show ((m.setLayer parent caller').layers.push _).size = m.size + 1
    rw [Array.size_push, hsize]
  · refine (hread (fun layer => layer.states.find? l) j (by rw [hstates])).trans ?_
    split
    · rename_i hj
      rw [stored?, hj, hout]
      rfl
    · rfl
  · refine (hread (fun layer => layer.scopeFixpoints.find? a) j (by rw [hfixpoints])).trans ?_
    split
    · rename_i hj
      rw [fixpoint?, hj, hout]
      rfl
    · rfl
  · exact (hread Layer.parent j hparent).trans (if_neg hj.ne)
  · exact (hread Layer.parent ⟨m.size⟩ hparent).trans (if_pos rfl)

variable [AbstractState S]

/-- What merging a state changes. -/
structure Merged (m : Layers L A S) (id : LayerId) (location : L) (d stored : Disjunction S)
    (m' : Layers L A S) : Prop where
  lt_size : id.index < m.size
  stored_def : stored = ((m.stored? id location).getD .bottom).merge d m.width
  size_eq : m'.size = m.size
  width_eq : m'.width = m.width
  stored_eq : ∀ j l, m'.stored? j l = if j = id ∧ l = location then some stored else m.stored? j l
  fixpoint_eq : ∀ j a, m'.fixpoint? j a = m.fixpoint? j a
  parent_eq : ∀ j, m'.parent? j = m.parent? j

theorem addState_ok (h : m.addState id location d = .ok (stored, m')) :
    Merged m id location d stored m' := by
  obtain ⟨layer, hlayer, h⟩ := except_bind_eq_ok.mp h
  cases h
  have hget := layer_eq_ok hlayer
  refine ⟨lt_size_of_getElem? hget, ?_, ?_, rfl, fun j l => ?_,
    fun j a => fixpoint?_setLayer hget j a rfl, fun j => parent?_setLayer hget j rfl⟩
  · simp [stored?, hget, Table.findD]
  · simp [setLayer, size]
  · refine (bind_setLayer (fun layer => layer.states.find? l) _ hget j).trans ?_
    by_cases hj : j = id
    · subst hj
      by_cases hl : l = location
      · subst hl
        simp
      · simp [stored?, hget, Table.find?_insert, hl, Ne.symm hl]
    · rw [if_neg hj, if_neg fun hboth => hj hboth.1]
      rfl

theorem Merged.stored_self (h : Merged m id location d stored m') :
    m'.stored? id location = some stored :=
  (h.stored_eq id location).trans (if_pos ⟨rfl, rfl⟩)

/-- What recording a fixpoint changes. -/
structure FixpointAdded (m : Layers L A S) (id : LayerId) (action : A) (d : Disjunction S)
    (m' : Layers L A S) : Prop where
  size_eq : m'.size = m.size
  width_eq : m'.width = m.width
  stored_eq : ∀ j l, m'.stored? j l = m.stored? j l
  fixpoint_eq : ∀ j a, m'.fixpoint? j a = if j = id ∧ a = action then
      some (((m.fixpoint? id action).map fun previous => previous.merge d m.width).getD d)
    else m.fixpoint? j a
  parent_eq : ∀ j, m'.parent? j = m.parent? j

theorem addScopeFixpoint_ok (h : m.addScopeFixpoint id action d = .ok m') :
    FixpointAdded m id action d m' := by
  obtain ⟨layer, hlayer, h⟩ := except_bind_eq_ok.mp h
  have hget := layer_eq_ok hlayer
  obtain ⟨recorded, hrecorded⟩ : ∃ recorded, recorded =
      ((layer.scopeFixpoints.find? action).map fun previous => previous.merge d m.width).getD d :=
    ⟨_, rfl⟩
  have hm' : m' = m.setLayer id
      { layer with scopeFixpoints := layer.scopeFixpoints.insert action recorded } := by
    rw [hrecorded]
    cases hfind : layer.scopeFixpoints.find? action with
    | none =>
      simp only [hfind] at h
      exact (Except.ok.inj h).symm
    | some previous =>
      simp only [hfind] at h
      exact (Except.ok.inj h).symm
  rw [hm']
  refine ⟨?_, rfl, fun j l => stored?_setLayer hget j l rfl, fun j a => ?_,
    fun j => parent?_setLayer hget j rfl⟩
  · simp [setLayer, size]
  · refine (bind_setLayer (fun layer => layer.scopeFixpoints.find? a) _ hget j).trans ?_
    by_cases hj : j = id
    · subst hj
      by_cases ha : a = action
      · subst ha
        simp [fixpoint?, hrecorded, hget]
      · simp [fixpoint?, hget, Table.find?_insert, ha, Ne.symm ha]
    · rw [if_neg hj, if_neg fun hboth => hj hboth.1]
      rfl

end Operations

/-! ## §3. Stored states only grow. -/

variable [DecidableEq L] [AbstractState S]

/-- No stored state has a bottom disjunct. -/
def AllProper (m : Layers L A S) : Prop := ∀ j l d, m.stored? j l = some d → d.Proper

/-- What a storage says, a later one says too. -/
structure Grown (m m' : Layers L A S) : Prop where
  size_le : m.size ≤ m'.size
  width_eq : m'.width = m.width
  stored : ∀ j l d, m.stored? j l = some d → ∃ d', m'.stored? j l = some d' ∧ d.isSubset d' = true
  parent : ∀ j : LayerId, j.index < m.size → m'.parent? j = m.parent? j

/-- A disjunction is covered by what is stored for a location in a layer. -/
def Holds (m : Layers L A S) (id : LayerId) (location : L) (d : Disjunction S) : Prop :=
  ∃ d', m.stored? id location = some d' ∧ d.isSubset d' = true

section Growth

variable [GroundedState S]

theorem Grown.refl (m : Layers L A S) : Grown m m :=
  ⟨le_rfl, rfl, fun _ _ d hd => ⟨d, hd, Disjunction.isSubset_refl d⟩, fun _ _ => rfl⟩

theorem Grown.trans {m'' : Layers L A S} (h : Grown m m') (h' : Grown m' m'') : Grown m m'' where
  size_le := h.size_le.trans h'.size_le
  width_eq := h'.width_eq.trans h.width_eq
  stored := by
    intro j l d hd
    obtain ⟨d', hd', hsub⟩ := h.stored j l d hd
    obtain ⟨d'', hd'', hsub'⟩ := h'.stored j l d' hd'
    exact ⟨d'', hd'', Disjunction.isSubset_trans hsub hsub'⟩
  parent := fun j hj => (h'.parent j (hj.trans_le h.size_le)).trans (h.parent j hj)

theorem Holds.grown (h : m.Holds id location d) (hg : Grown m m') : m'.Holds id location d := by
  obtain ⟨d', hd', hsub⟩ := h
  obtain ⟨d'', hd'', hsub'⟩ := hg.stored _ _ d' hd'
  exact ⟨d'', hd'', Disjunction.isSubset_trans hsub hsub'⟩

theorem Holds.of_isSubset {d' : Disjunction S} (h : m.Holds id location d')
    (hd : d.isSubset d' = true) : m.Holds id location d := by
  obtain ⟨d'', hd'', hsub⟩ := h
  exact ⟨d'', hd'', Disjunction.isSubset_trans hd hsub⟩

end Growth

variable [DecidableEq A]

theorem Merged.proper (h : Merged m id location d stored m') (hm : m.AllProper) :
    stored.Proper := by
  rw [h.stored_def]
  refine Disjunction.proper_merge ?_ _ _
  cases hd : m.stored? id location with
  | none => exact Disjunction.proper_bottom
  | some previous => exact hm _ _ previous hd

theorem Merged.allProper (h : Merged m id location d stored m') (hm : m.AllProper) :
    m'.AllProper := by
  intro j l d' hd'
  rw [h.stored_eq] at hd'
  split at hd'
  · cases hd'
    exact h.proper hm
  · exact hm j l d' hd'

/-- What was merged is stored, unless it is bottom. -/
theorem Merged.holds [LawfulState S] (h : Merged m id location d stored m')
    (hd : d.isBottom = false) : m'.Holds id location d := by
  refine ⟨stored, h.stored_self, ?_⟩
  rw [h.stored_def]
  exact Disjunction.isSubset_merge_right hd _ _

variable [GroundedState S]

theorem Created.grown {parent : LayerId} (h : Created m parent id m') : Grown m m' where
  size_le := by rw [h.size_eq]; omega
  width_eq := h.width_eq
  stored := fun j l d hd => ⟨d, by rw [h.stored_eq, hd], Disjunction.isSubset_refl d⟩
  parent := h.parent_eq

theorem FixpointAdded.grown (h : FixpointAdded m id action d m') : Grown m m' where
  size_le := h.size_eq.ge
  width_eq := h.width_eq
  stored := fun j l d hd => ⟨d, by rw [h.stored_eq, hd], Disjunction.isSubset_refl d⟩
  parent := fun j _ => h.parent_eq j

theorem Merged.grown (h : Merged m id location d stored m') (hm : m.AllProper) : Grown m m' where
  size_le := h.size_eq.ge
  width_eq := h.width_eq
  stored := by
    intro j l d' hd'
    rw [h.stored_eq]
    split
    · rename_i hjl
      obtain ⟨rfl, rfl⟩ := hjl
      refine ⟨stored, rfl, ?_⟩
      rw [h.stored_def, hd', Option.getD_some]
      exact Disjunction.isSubset_merge_left (hm j l d' hd') _ _
    · exact ⟨d', hd', Disjunction.isSubset_refl d'⟩
  parent := fun j _ => h.parent_eq j

/-- What was merged is stored, as far as it is not bottom. -/
theorem Merged.holds_of_proper (h : Merged m id location d stored m') (hd : d.Proper) :
    m'.Holds id location d := by
  refine ⟨stored, h.stored_self, ?_⟩
  rw [h.stored_def]
  exact Disjunction.isSubset_iff.mpr fun s hs =>
    Disjunction.covers_merge_right (Disjunction.covers_of_mem hs) (hd s hs)

end Layers

end Interproc
