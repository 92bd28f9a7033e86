/-
  Interproc.Proofs.References
  ───────────────────────────
  Items are counted right.  Every reference to an item is held by somebody: by the
  worklist, by a recorded exit, by a call that waits for returns, by a summary that
  was used, by a successor, or by the item being processed at the moment.  Hence
  whatever is still referred to stays where it is, and the item behind a pending
  position is the one that was put there.

  Main results:
    * `Arena.Counted.release` — giving back a reference frees only what nobody holds;
    * `Grows.trans` — additions to the worklist compose.
-/
import Mathlib
import Interproc.Proofs.Propagation

namespace Interproc

variable {L A S : Type}

/-! ## §1. Slots. -/

/-- One reference, to an item. -/
def once (id j : ItemId) : Nat := if j = id then 1 else 0

@[simp] theorem once_self (id : ItemId) : once id id = 1 := if_pos rfl

theorem once_of_ne {id j : ItemId} (h : j ≠ id) : once id j = 0 := if_neg h

theorem count_cons_once (id : ItemId) (l : List ItemId) (j : ItemId) :
    (id :: l).count j = l.count j + once id j := by
  rw [List.count_cons]
  by_cases hj : j = id
  · simp [hj]
  · simp [once_of_ne hj, Ne.symm hj]

namespace Arena

variable {a a' : Arena L A S} {id j : ItemId} {item : Item L A S}

theorem lt_size_of_slot? {slot : Slot L A S} (h : a.slot? id = some slot) :
    id.index < a.slots.size := by
  unfold slot? at h
  by_contra hlt
  rw [Array.getElem?_eq_none (by omega)] at h
  cases h

theorem slot?_setIfInBounds {i : Nat} {v : Option (Slot L A S)} {vacant : List Nat} {live : Nat}
    (hi : i < a.slots.size) (j : ItemId) :
    Arena.slot? ⟨a.slots.setIfInBounds i v, vacant, live⟩ j =
      if j.index = i then v else a.slot? j := by
  unfold slot?
  simp only [Array.getElem?_setIfInBounds]
  by_cases hj : j.index = i
  · subst hj
    simp [hi]
  · simp [hj, Ne.symm hj]

theorem index_eq_iff {id j : ItemId} : j.index = id.index ↔ j = id := by
  cases j
  cases id
  simp

theorem slot?_setSlot {old : Slot L A S} {v : Option (Slot L A S)} (h : a.slot? id = some old)
    (j : ItemId) : (a.setSlot id v).slot? j = if j = id then v else a.slot? j := by
  have hset : (a.setSlot id v).slot? j = if j.index = id.index then v else a.slot? j :=
    slot?_setIfInBounds (lt_size_of_slot? h) j
  simpa only [index_eq_iff] using hset

theorem slot?_vacate {old : Slot L A S} (h : a.slot? id = some old) (j : ItemId) :
    (a.vacate id).slot? j = if j = id then none else a.slot? j := by
  have hset : (a.vacate id).slot? j = if j.index = id.index then none else a.slot? j :=
    slot?_setIfInBounds (lt_size_of_slot? h) j
  simpa only [index_eq_iff] using hset

theorem get_eq_ok_iff : a.get id = .ok item ↔ ∃ n, a.slot? id = some ⟨item, n⟩ := by
  unfold get
  cases h : a.slot? id with
  | none => simp
  | some slot =>
    obtain ⟨i, n⟩ := slot
    simp

/-- How many references the slot of an item counts. -/
def references (a : Arena L A S) (id : ItemId) : Nat := (a.slot? id).elim 0 Slot.references

/-- Whether a slot holds a successor of an item. -/
def follows (id : ItemId) (slot : Option (Slot L A S)) : Bool :=
  slot.any fun s => s.item.predecessor = some id

/-- A slot holds a successor of the predecessor of its item and of no other one. -/
theorem toNat_follows (slot : Slot L A S) (j : ItemId) :
    (follows j (some slot)).toNat = slot.item.predecessor.elim 0 (once · j) := by
  unfold follows
  cases hp : slot.item.predecessor with
  | none => simp [hp]
  | some p =>
    by_cases hj : j = p
    · simp [hp, hj]
    · simp [hp, once_of_ne hj, Ne.symm hj]

/-- How many live items have an item as their predecessor. -/
def successors (a : Arena L A S) (id : ItemId) : Nat := a.slots.toList.countP (follows id)

/-- How many items are live. -/
def occupied (a : Arena L A S) : Nat := a.slots.toList.countP Option.isSome

/-- Overwriting a slot moves a count by what was there and what is there now. -/
theorem countP_setIfInBounds {i : Nat} {old v : Option (Slot L A S)}
    (p : Option (Slot L A S) → Bool) (h : a.slots[i]? = some old) :
    (a.slots.setIfInBounds i v).toList.countP p + (p old).toNat =
      a.slots.toList.countP p + (p v).toNat := by
  obtain ⟨hi, rfl⟩ := Array.getElem?_eq_some_iff.mp h
  have hlt : i < a.slots.toList.length := by simpa using hi
  have hpos : p a.slots[i] = true → 0 < a.slots.toList.countP p := fun hp =>
    List.countP_pos_iff.mpr ⟨a.slots[i], by simp, hp⟩
  have hmove : ∀ (x y : Bool) (n : Nat), (x = true → 0 < n) →
      n - (if x then 1 else 0) + (if y then 1 else 0) + x.toNat = n + y.toNat := by
    intro x y n hx
    cases x <;> cases y <;> simp at hx ⊢
    all_goals omega
  rw [Array.toList_setIfInBounds, List.countP_set hlt, Array.getElem_toList]
  exact hmove _ _ _ hpos

theorem getElem?_of_slot? {slot : Slot L A S} (h : a.slot? id = some slot) :
    a.slots[id.index]? = some (some slot) := by
  unfold slot? at h
  cases hs : a.slots[id.index]? with
  | none => simp [hs] at h
  | some v =>
    rw [hs] at h
    exact congrArg some h

/-- Vacant slots stay vacant when a live one is written. -/
theorem vacant_setSlot {slot : Slot L A S} {v : Option (Slot L A S)} (hslot : a.slot? id = some slot)
    {i : Nat} (hvacant : a.slots[i]? = some none) :
    (a.slots.setIfInBounds id.index v)[i]? = some none := by
  have hne : id.index ≠ i := by
    rintro rfl
    rw [getElem?_of_slot? hslot] at hvacant
    cases hvacant
  rw [Array.getElem?_setIfInBounds_ne hne]
  exact hvacant

/-- A slot that is vacated is known to be vacant, and was not before. -/
theorem vacant_vacate {slot : Slot L A S} (hslot : a.slot? id = some slot)
    (hvacant : ∀ i ∈ a.vacant, a.slots[i]? = some none) (hnodup : a.vacant.Nodup) :
    (∀ i ∈ (a.vacate id).vacant, (a.vacate id).slots[i]? = some none) ∧
      (a.vacate id).vacant.Nodup := by
  constructor
  · intro i hi
    obtain rfl | hi := List.mem_cons.mp hi
    · have hlt := lt_size_of_slot? hslot
      simp [vacate, hlt]
    · exact vacant_setSlot hslot (hvacant i hi)
  · refine List.nodup_cons.mpr ⟨fun hi => ?_, hnodup⟩
    have hnone := hvacant _ hi
    rw [getElem?_of_slot? hslot] at hnone
    cases hnone

theorem occupied_vacate {slot : Slot L A S} (hslot : a.slot? id = some slot) :
    (a.vacate id).occupied + 1 = a.occupied :=
  countP_setIfInBounds (v := none) Option.isSome (getElem?_of_slot? hslot)

/-! ## §2. Counting. -/

/-- Every reference counted in an arena is held by a successor or by one of `held`, and vacant
slots are known to be so. -/
structure Counted (a : Arena L A S) (held : ItemId → Nat) : Prop where
  references_eq : ∀ id, a.references id = held id + a.successors id
  vacant_lt : ∀ i ∈ a.vacant, a.slots[i]? = some none
  vacant_nodup : a.vacant.Nodup

variable {held : ItemId → Nat}

theorem references_of_slot? {slot : Slot L A S} (h : a.slot? id = some slot) :
    a.references id = slot.references := by
  simp [references, h]

theorem references_of_none (h : a.slot? id = none) : a.references id = 0 := by
  simp [references, h]

/-- An item with a predecessor is a successor of it. -/
theorem successors_pos {p : ItemId} (h : a.get j = .ok item) (hp : item.predecessor = some p) :
    0 < a.successors p := by
  obtain ⟨n, hslot⟩ := get_eq_ok_iff.mp h
  have hmem : some (⟨item, n⟩ : Slot L A S) ∈ a.slots.toList := by
    have := getElem?_of_slot? hslot
    rw [← Array.getElem?_toList] at this
    exact List.mem_of_getElem? this
  exact List.countP_pos_iff.mpr ⟨_, hmem, by simp [follows, hp]⟩

theorem exists_of_successors_pos {p : ItemId} (h : 0 < a.successors p) :
    ∃ j item, a.get j = .ok item ∧ item.predecessor = some p := by
  obtain ⟨slot, hmem, hfollows⟩ := List.countP_pos_iff.mp h
  obtain ⟨k, hk⟩ := List.mem_iff_getElem?.mp hmem
  cases slot with
  | none => cases hfollows
  | some slot =>
    rw [Array.getElem?_toList] at hk
    refine ⟨⟨k⟩, slot.item, get_eq_ok_iff.mpr ⟨slot.references, ?_⟩, ?_⟩
    · simp [slot?, hk]
    · simpa [follows] using hfollows

namespace Counted

/-- Whatever is held is live. -/
theorem live (h : a.Counted held) (hj : 0 < held j + a.successors j) :
    ∃ item, a.get j = .ok item := by
  rw [← h.references_eq j] at hj
  cases hslot : a.slot? j with
  | none =>
    rw [references_of_none hslot] at hj
    omega
  | some slot => exact ⟨slot.item, get_eq_ok_iff.mpr ⟨slot.references, hslot⟩⟩

/-- Writing a slot whose item keeps its predecessor leaves the successors of all items alone. -/
theorem successors_setSlot {slot slot' : Slot L A S} (hslot : a.slot? id = some slot)
    (hitem : slot'.item.predecessor = slot.item.predecessor) (j : ItemId) :
    (a.setSlot id (some slot')).successors j = a.successors j := by
  have hcount := countP_setIfInBounds (follows j) (getElem?_of_slot? hslot) (v := some slot')
  have hfollows : follows j (some slot') = follows j (some slot) := by simp [follows, hitem]
  rw [hfollows] at hcount
  exact Nat.add_right_cancel hcount

/-- Taking a reference changes no item, and is counted. -/
theorem retain (h : a.Counted held) (hretain : a.retain id = .ok a') :
    a'.Counted (fun j => held j + once id j) ∧ (∀ j, a'.get j = a.get j) ∧
      (∀ j, a'.references j = a.references j + once id j) ∧ ∃ item, a.get id = .ok item := by
  unfold Arena.retain at hretain
  cases hslot : a.slot? id with
  | none =>
    rw [hslot] at hretain
    cases hretain
  | some slot =>
    rw [hslot] at hretain
    cases hretain
    have href : ∀ j, (a.setSlot id
        (some { slot with references := slot.references + 1 })).references j
        = a.references j + once id j := by
      intro j
      by_cases hj : j = id
      · subst hj
        simp [references, slot?_setSlot hslot, hslot]
      · simp [references, slot?_setSlot hslot, hj, once_of_ne hj]
    have hsucc : ∀ j, (a.setSlot id
        (some { slot with references := slot.references + 1 })).successors j
        = a.successors j := successors_setSlot hslot (by rfl)
    refine ⟨⟨?_, ?_, h.vacant_nodup⟩, ?_, href, slot.item,
      get_eq_ok_iff.mpr ⟨slot.references, hslot⟩⟩
    · intro j
      have hj := h.references_eq j
      rw [href, hsucc]
      omega
    · exact fun i hi => vacant_setSlot hslot (h.vacant_lt i hi)
    · intro j
      unfold Arena.get
      rw [slot?_setSlot hslot]
      by_cases hj : j = id
      · subst hj
        simp [hslot]
      · simp [hj]

/-- Replacing an item by one with the same predecessor changes no count. -/
theorem set {old : Item L A S} (h : a.Counted held) (hset : a.set id item = .ok a')
    (hold : a.get id = .ok old) (hitem : item.predecessor = old.predecessor) :
    a'.Counted held ∧ (∀ j, a'.get j = if j = id then .ok item else a.get j) ∧
      ∀ j, a'.references j = a.references j := by
  obtain ⟨n, hslot⟩ := get_eq_ok_iff.mp hold
  unfold Arena.set at hset
  rw [hslot] at hset
  cases hset
  have href : ∀ j, (a.setSlot id (some ⟨item, n⟩)).references j = a.references j := by
    intro j
    by_cases hj : j = id
    · subst hj
      simp [references, slot?_setSlot hslot, hslot]
    · simp [references, slot?_setSlot hslot, hj]
  refine ⟨⟨?_, ?_, h.vacant_nodup⟩, ?_, href⟩
  · intro j
    rw [href, successors_setSlot hslot hitem]
    exact h.references_eq j
  · exact fun i hi => vacant_setSlot hslot (h.vacant_lt i hi)
  · intro j
    unfold Arena.get
    rw [slot?_setSlot hslot]
    by_cases hj : j = id <;> simp [hj]

end Counted

/-- What placing an item does to the slots: one that was vacant holds it now. -/
structure Placed (a : Arena L A S) (item : Item L A S) (id : ItemId) (a' : Arena L A S) :
    Prop where
  vacant : a.slot? id = none
  slot?_eq : ∀ j, a'.slot? j = if j = id then some ⟨item, 0⟩ else a.slot? j
  successors_eq : ∀ j, a'.successors j =
    a.successors j + (follows j (some (⟨item, 0⟩ : Slot L A S))).toNat
  occupied_eq : a'.occupied = a.occupied + 1
  live_eq : a'.live = a.live + 1
  vacant_lt : ∀ i ∈ a'.vacant, a'.slots[i]? = some none
  vacant_nodup : a'.vacant.Nodup

/-- An item is placed in a slot that is vacant, as long as vacant slots are known to be so. -/
theorem placed_of_place (hvacant_lt : ∀ i ∈ a.vacant, a.slots[i]? = some none)
    (hvacant_nodup : a.vacant.Nodup) (hplace : a.place item = (id, a')) :
    Placed a item id a' := by
  unfold place at hplace
  cases hvacant : a.vacant with
  | nil =>
    -- No slot is vacant, and the item gets a new one at the end.
    rw [hvacant] at hplace
    cases hplace
    constructor
    case vacant => simp [slot?]
    case slot?_eq =>
      intro j
      unfold slot?
      by_cases hj : j = ⟨a.slots.size⟩
      · subst hj
        simp
      · have hne : j.index ≠ a.slots.size := fun hi => hj (by cases j; simpa using hi)
        rw [if_neg hj, Array.getElem?_push, if_neg hne]
    case successors_eq =>
      intro j
      cases hfollows : follows j (some (⟨item, 0⟩ : Slot L A S)) <;>
        simp [successors, List.countP_append, hfollows]
    case occupied_eq => simp [occupied, List.countP_append]
    case live_eq => rfl
    case vacant_lt => simp
    case vacant_nodup => simp
  | cons i vacant =>
    rw [hvacant] at hplace
    cases hplace
    -- The first vacant slot is taken; it was listed once, so the others stay vacant.
    have hnone : a.slots[i]? = some none := hvacant_lt i (by simp [hvacant])
    have hlt : i < a.slots.size := (Array.getElem?_eq_some_iff.mp hnone).1
    have hnodup := hvacant_nodup
    rw [hvacant, List.nodup_cons] at hnodup
    constructor
    case vacant => simp [slot?, hnone]
    case slot?_eq =>
      intro j
      have hiff : j.index = (⟨i⟩ : ItemId).index ↔ j = ⟨i⟩ := index_eq_iff
      rw [slot?_setIfInBounds hlt j]
      simp only [hiff]
    case successors_eq =>
      intro j
      exact countP_setIfInBounds (follows j) hnone
    case occupied_eq => exact countP_setIfInBounds Option.isSome hnone
    case live_eq => rfl
    case vacant_lt =>
      intro k hk
      have hne : i ≠ k := fun hik => hnodup.1 (hik ▸ hk)
      rw [Array.getElem?_setIfInBounds_ne hne]
      exact hvacant_lt k (by simp [hvacant, hk])
    case vacant_nodup => exact hnodup.2

/-- What inserting an item does: it leaves all others alone, and takes a reference to its
predecessor. -/
structure Inserted (held : ItemId → Nat) (item : Item L A S) (id : ItemId)
    (a a' : Arena L A S) : Prop where
  counted : a'.Counted held
  vacant : a.slot? id = none
  get_eq : ∀ j, a'.get j = if j = id then .ok item else a.get j
  references_new : a'.references id = 0
  references_eq : ∀ j, j ≠ id → item.predecessor ≠ some j → a'.references j = a.references j

theorem Counted.insert (h : a.Counted held) (hinsert : a.insert item = .ok (id, a')) :
    Inserted held item id a a' := by
  -- The predecessor is retained before the item is placed; the item then holds that reference.
  obtain ⟨b, held', hb, hheld, hget, hrefs, hplace⟩ : ∃ (b : Arena L A S)
      (held' : ItemId → Nat), b.Counted held' ∧
      (∀ j, held' j = held j + (follows j (some (⟨item, 0⟩ : Slot L A S))).toNat) ∧
      (∀ j, b.get j = a.get j) ∧
      (∀ j, item.predecessor ≠ some j → b.references j = a.references j) ∧
      b.place item = (id, a') := by
    unfold Arena.insert at hinsert
    cases hp : item.predecessor with
    | none =>
      rw [hp] at hinsert
      exact ⟨a, held, h, fun j => by simp [toNat_follows, hp], fun _ => rfl, fun _ _ => rfl,
        Except.ok.inj hinsert⟩
    | some p =>
      rw [hp] at hinsert
      obtain ⟨b, hretain, hplace⟩ := except_bind_eq_ok.mp hinsert
      obtain ⟨hb, hget, href, -⟩ := h.retain hretain
      refine ⟨b, _, hb, fun j => ?_, hget, fun j hj => ?_, Except.ok.inj hplace⟩
      · simp [toNat_follows, hp]
      · rw [href, once_of_ne (by rintro rfl; exact hj rfl), Nat.add_zero]
  have hplaced := placed_of_place hb.vacant_lt hb.vacant_nodup hplace
  refine ⟨⟨?_, hplaced.vacant_lt, hplaced.vacant_nodup⟩, ?_, ?_, ?_, ?_⟩
  · intro j
    have href := hb.references_eq j
    rw [hheld j] at href
    rw [hplaced.successors_eq]
    by_cases hj : j = id
    · subst hj
      rw [references_of_none hplaced.vacant] at href
      simp only [references, hplaced.slot?_eq, if_pos, Option.elim_some]
      omega
    · have hsame : a'.references j = b.references j := by
        simp [references, hplaced.slot?_eq, hj]
      omega
  · have hnone := hplaced.vacant
    cases hslot : a.slot? id with
    | none => rfl
    | some slot =>
      have hlive := hget id
      rw [get_eq_ok_iff.mpr ⟨slot.references, hslot⟩] at hlive
      obtain ⟨n, hn⟩ := get_eq_ok_iff.mp hlive
      rw [hnone] at hn
      cases hn
  · intro j
    by_cases hj : j = id
    · subst hj
      simp [get_eq_ok_iff, hplaced.slot?_eq]
    · rw [if_neg hj, ← hget j]
      unfold Arena.get
      rw [hplaced.slot?_eq, if_neg hj]
  · simp [references, hplaced.slot?_eq]
  · intro j hj hp
    rw [← hrefs j hp]
    simp [references, hplaced.slot?_eq, hj]

/-! ## §3. Giving back. -/

/-- What vacating a slot does to the counts: its item held a reference to its predecessor. -/
theorem Counted.vacate {slot : Slot L A S} (h : a.Counted (fun j => held j + once id j))
    (hslot : a.slot? id = some slot) (hlast : slot.references ≤ 1) :
    (a.vacate id).Counted (fun j => held j + (follows j (some slot)).toNat) ∧
      (a.vacate id).occupied + 1 = a.occupied := by
  have hself := h.references_eq id
  rw [references_of_slot? hslot, once_self] at hself
  have hsucc : ∀ j, (a.vacate id).successors j + (follows j (some slot)).toNat
      = a.successors j := fun j => countP_setIfInBounds (v := none) (follows j)
        (getElem?_of_slot? hslot)
  obtain ⟨hvacant, hnodup⟩ := vacant_vacate hslot h.vacant_lt h.vacant_nodup
  refine ⟨⟨?_, hvacant, hnodup⟩, occupied_vacate hslot⟩
  intro j
  have hj := hsucc j
  by_cases hjid : j = id
  · subst hjid
    have hzero : (a.vacate j).references j = 0 :=
      references_of_none (by simp [slot?_vacate hslot])
    omega
  · have hsame : (a.vacate id).references j = a.references j := by
      simp [references, slot?_vacate hslot, hjid]
    have href := h.references_eq j
    rw [once_of_ne hjid] at href
    omega

theorem Counted.releaseChain {n : Nat} (hn : a.occupied < n)
    (h : a.Counted (fun j => held j + once id j))
    (hrelease : Arena.releaseChain n id a = .ok () a') :
    a'.Counted held ∧ ∀ j i, a'.get j = .ok i → a.get j = .ok i := by
  -- The chain ends at the first item that somebody else holds as well.
  induction n generalizing a id with
  | zero => omega
  | succ n ih =>
    unfold Arena.releaseChain at hrelease
    cases hslot : a.slot? id with
    | none => simp [hslot] at hrelease
    | some slot =>
      simp only [hslot] at hrelease
      split at hrelease
      · rename_i hshared
        cases hrelease
        have hsucc : ∀ j, (a.setSlot id
            (some { slot with references := slot.references - 1 })).successors j
            = a.successors j := successors_setSlot hslot (by rfl)
        refine ⟨⟨?_, fun i hi => vacant_setSlot hslot (h.vacant_lt i hi), h.vacant_nodup⟩, ?_⟩
        · intro j
          have href := h.references_eq j
          rw [hsucc]
          by_cases hj : j = id
          · subst hj
            rw [references_of_slot? hslot, once_self] at href
            simp only [references, slot?_setSlot hslot, if_pos, Option.elim_some]
            omega
          · rw [once_of_ne hj] at href
            simpa [references, slot?_setSlot hslot, hj] using href
        · intro j i hget
          obtain ⟨m, hm⟩ := get_eq_ok_iff.mp hget
          rw [slot?_setSlot hslot] at hm
          split at hm
          · rename_i hj
            cases hm
            exact get_eq_ok_iff.mpr ⟨slot.references, by rw [hj]; exact hslot⟩
          · exact get_eq_ok_iff.mpr ⟨m, hm⟩
      · rename_i hlast
        obtain ⟨hvacated, hoccupied⟩ := h.vacate hslot (by omega)
        have hold : ∀ j i, (a.vacate id).get j = .ok i → a.get j = .ok i := by
          intro j i hget
          obtain ⟨m, hm⟩ := get_eq_ok_iff.mp hget
          rw [slot?_vacate hslot] at hm
          split at hm
          · cases hm
          · exact get_eq_ok_iff.mpr ⟨m, hm⟩
        cases hp : slot.item.predecessor with
        | none =>
          simp only [hp] at hrelease
          cases hrelease
          simp only [toNat_follows, hp, Option.elim_none, Nat.add_zero] at hvacated
          exact ⟨hvacated, hold⟩
        | some p =>
          simp only [hp] at hrelease
          simp only [toNat_follows, hp, Option.elim_some] at hvacated
          obtain ⟨hcounted, hkept⟩ := ih (by omega) hvacated hrelease
          exact ⟨hcounted, fun j i hget => hold j i (hkept j i hget)⟩

/-- Giving back a reference frees only what nobody holds. -/
theorem Counted.release (h : a.Counted (fun j => held j + once id j))
    (hrelease : Arena.release id a = .ok () a') :
    a'.Counted held ∧ ∀ j i, a'.get j = .ok i → a.get j = .ok i := by
  have hn : a.occupied < a.slots.size + 1 := by
    have := List.countP_le_length (p := Option.isSome) (l := a.slots.toList)
    simp only [Array.length_toList] at this
    unfold occupied
    omega
  exact h.releaseChain hn hrelease

end Arena

/-! ## §4. Holders. -/

namespace Table

variable {κ β : Type} [DecidableEq κ]

/-- The sum of a measure over the values of a table. -/
def total (t : Table κ β) (f : β → Nat) : Nat := (t.entries.map fun e => f e.2).sum

theorem sum_writeIn (k : κ) (v : β) (f : β → Nat) (l : List (κ × β)) :
    ((writeIn k v l).map fun e => f e.2).sum + ((findIn k l).map f).getD 0 =
      (l.map fun e => f e.2).sum + f v := by
  induction l with
  | nil => simp [writeIn, findIn]
  | cons e rest ih =>
    obtain ⟨x, w⟩ := e
    by_cases hx : x = k
    · simp [writeIn, findIn, hx]
      omega
    · simp only [writeIn, findIn, hx, if_false, List.map_cons, List.sum_cons]
      omega

/-- Writing a value moves the sum by what was there and what is there now. -/
theorem total_insert (t : Table κ β) (k : κ) (v : β) (f : β → Nat) :
    (t.insert k v).total f + ((t.find? k).map f).getD 0 = t.total f + f v :=
  sum_writeIn k v f t.entries

theorem le_total {t : Table κ β} {k : κ} {v : β} (f : β → Nat) (h : t.find? k = some v) :
    f v ≤ t.total f := by
  obtain ⟨entries⟩ := t
  have h : findIn k entries = some v := h
  show f v ≤ (entries.map fun e => f e.2).sum
  induction entries with
  | nil => cases h
  | cons e rest ih =>
    obtain ⟨x, w⟩ := e
    unfold findIn at h
    simp only [List.map_cons, List.sum_cons]
    split at h
    · cases h
      omega
    · have := ih h h
      omega

end Table

/-- How often an activation holds an item: as a waiting call, or before one of its exits. -/
def Activation.holds (activation : Activation A S) (j : ItemId) : Nat :=
  activation.calls.count j + activation.exits.countP fun exit => exit.predecessor = some j

namespace Exits

variable (m : Exits A S) (layer : LayerId) {id : ItemId} (j : ItemId)

/-- How often the activations hold an item. -/
def held (m : Exits A S) (j : ItemId) : Nat := m.activations.total fun a => a.holds j

theorem held_insert (activation : Activation A S) :
    Exits.held ⟨m.activations.insert layer activation⟩ j + (m.activation layer).holds j =
      m.held j + activation.holds j := by
  have htotal := m.activations.total_insert layer activation fun a => a.holds j
  unfold held Exits.activation Table.findD
  cases hfind : m.activations.find? layer with
  | none =>
    rw [hfind] at htotal
    simpa [Activation.holds] using htotal
  | some old =>
    rw [hfind] at htotal
    simpa using htotal

theorem holds_le_held : (m.activation layer).holds j ≤ m.held j := by
  unfold held Exits.activation Table.findD
  cases hfind : m.activations.find? layer with
  | none => simp [Activation.holds]
  | some a => exact Table.le_total (fun a : Activation A S => a.holds j) hfind

variable {m layer j}

theorem held_pos_of_call (h : j ∈ (m.activation layer).calls) : 0 < m.held j := by
  have hcount := List.count_pos_iff.mpr h
  have hle := holds_le_held m layer j
  unfold Activation.holds at hle
  omega

theorem held_pos_of_exit {exit : ScopeExit A S} (h : exit ∈ (m.activation layer).exits)
    (hp : exit.predecessor = some j) : 0 < m.held j := by
  have hcount : 0 < (m.activation layer).exits.countP fun exit => exit.predecessor = some j :=
    List.countP_pos_iff.mpr ⟨exit, h, by simpa using hp⟩
  have hle := holds_le_held m layer j
  unfold Activation.holds at hle
  omega

@[simp] theorem activation_insert {layer' : LayerId} (activation : Activation A S) :
    Exits.activation ⟨m.activations.insert layer activation⟩ layer' =
      if layer = layer' then activation else m.activation layer' := by
  unfold Exits.activation Table.findD
  rw [Table.find?_insert]
  split <;> rfl

theorem activation_subscribe {layer' : LayerId} : (m.subscribe layer id).activation layer' =
    if layer = layer' then
      { m.activation layer with calls := (m.activation layer).calls ++ [id] }
    else m.activation layer' :=
  activation_insert _

theorem mem_calls_subscribe : id ∈ ((m.subscribe layer id).activation layer).calls := by
  rw [activation_subscribe, if_pos rfl]
  exact List.mem_append_right _ List.mem_cons_self

theorem held_subscribe : (m.subscribe layer id).held j = m.held j + once id j := by
  have hinsert := held_insert m layer j
    { m.activation layer with calls := (m.activation layer).calls ++ [id] }
  have hcount : List.count j [id] = once id j := by
    by_cases hj : j = id
    · simp [hj]
    · simp [once_of_ne hj, Ne.symm hj]
  simp only [Activation.holds, List.count_append, hcount] at hinsert
  show Exits.held ⟨m.activations.insert layer _⟩ j = m.held j + once id j
  omega

variable [DecidableEq A] [AbstractState S]

/-- What recording a state does to the exits of an activation. -/
inductive RecordedIn (domain : Domain A S) (options : Options) (action : A)
    (state : Disjunction S) (predecessor : Option ItemId) :
    List (ScopeExit A S) → Option (ExitChange A S) → List (ScopeExit A S) → Prop where
  | known {l₁ l₂ : List (ScopeExit A S)} {exit : ScopeExit A S} (haction : exit.action = action)
      (hcovered : state.isSubset exit.state = true) :
      RecordedIn domain options action state predecessor (l₁ ++ exit :: l₂) none (l₁ ++ exit :: l₂)
  | first {l : List (ScopeExit A S)} (hnew : ∀ exit ∈ l, exit.action ≠ action) :
      RecordedIn domain options action state predecessor l
        (some ⟨⟨action, state, predecessor, 0⟩, true, false⟩)
        (l ++ [⟨action, state, predecessor, 0⟩])
  | grown {l₁ l₂ : List (ScopeExit A S)} {exit : ScopeExit A S} {change : ExitChange A S}
      (haction : exit.action = action) (hgrow : grow domain options exit state = .ok change) :
      RecordedIn domain options action state predecessor (l₁ ++ exit :: l₂) (some change)
        (l₁ ++ change.exit :: l₂)

theorem recordIn_ok {domain : Domain A S} {options : Options} {action : A} {state : Disjunction S}
    {predecessor : Option ItemId} {l l' : List (ScopeExit A S)} {change : Option (ExitChange A S)}
    (h : recordIn domain options action state predecessor l = .ok (change, l')) :
    RecordedIn domain options action state predecessor l change l' := by
  induction l generalizing change l' with
  | nil =>
    cases h
    exact .first fun _ hexit => by cases hexit
  | cons exit rest ih =>
    unfold recordIn at h
    split at h
    · rename_i haction
      split at h
      · rename_i hcovered
        cases h
        rw [← List.nil_append (exit :: rest)]
        exact .known haction hcovered
      · obtain ⟨grown, hgrow, h⟩ := except_bind_eq_ok.mp h
        cases h
        rw [← List.nil_append (exit :: rest), ← List.nil_append (grown.exit :: rest)]
        exact .grown haction hgrow
    · rename_i haction
      obtain ⟨⟨change', rest'⟩, hrest, h⟩ := except_bind_eq_ok.mp h
      cases h
      cases ih hrest with
      | known haction hcovered =>
        rw [← List.cons_append]
        exact .known haction hcovered
      | first hnew => exact .first (List.forall_mem_cons.mpr ⟨haction, hnew⟩)
      | grown haction hgrow =>
        rw [← List.cons_append, ← List.cons_append]
        exact .grown haction hgrow

omit [DecidableEq A] in
theorem grow_ok {domain : Domain A S} {options : Options} {exit : ScopeExit A S}
    {state : Disjunction S} {change : ExitChange A S}
    (h : grow domain options exit state = .ok change) :
    change.first = false ∧ change.exit.action = exit.action ∧
      change.exit.predecessor = exit.predecessor := by
  unfold grow at h
  dsimp only at h
  split at h
  · obtain ⟨widened, -, h⟩ := except_bind_eq_ok.mp h
    cases h
    exact ⟨rfl, rfl, rfl⟩
  · cases h
    exact ⟨rfl, rfl, rfl⟩

/-- What recording a state does to the activations. -/
theorem record_ok {m' : Exits A S} {domain : Domain A S} {options : Options} {action : A}
    {state : Disjunction S} {predecessor : Option ItemId} {change : Option (ExitChange A S)}
    (h : m.record domain options layer action state predecessor = .ok (change, m')) :
    RecordedIn domain options action state predecessor (m.activation layer).exits change
      (m'.activation layer).exits ∧
    (m'.activation layer).calls = (m.activation layer).calls ∧
    ∀ layer', layer ≠ layer' → m'.activation layer' = m.activation layer' := by
  obtain ⟨⟨change', exits⟩, hrecord, h⟩ := except_bind_eq_ok.mp h
  cases h
  refine ⟨?_, ?_, fun layer' hne => ?_⟩
  · rw [activation_insert, if_pos rfl]
    exact recordIn_ok hrecord
  · rw [activation_insert, if_pos rfl]
  · rw [activation_insert, if_neg hne]

omit [DecidableEq A] in
theorem RecordedIn.mem_exit {domain : Domain A S} {options : Options} {action : A}
    {state : Disjunction S} {predecessor : Option ItemId} {change : ExitChange A S}
    {l l' : List (ScopeExit A S)}
    (h : RecordedIn domain options action state predecessor l (some change) l') :
    change.exit ∈ l' ∧ (change.first = true → change.exit.predecessor = predecessor) := by
  cases h with
  | first => simp
  | grown haction hgrow => simp [(grow_ok hgrow).1]

/-- The reference that the first state of an exit takes. -/
def taken (change : Option (ExitChange A S)) (j : ItemId) : Nat :=
  match change with
  | some change => if change.first ∧ change.exit.predecessor = some j then 1 else 0
  | none => 0

theorem held_record {m' : Exits A S} {domain : Domain A S} {options : Options} {action : A}
    {state : Disjunction S} {predecessor : Option ItemId} {change : Option (ExitChange A S)}
    (h : m.record domain options layer action state predecessor = .ok (change, m')) (j : ItemId) :
    m'.held j = m.held j + taken change j := by
  obtain ⟨⟨change', exits⟩, hrecord, h⟩ := except_bind_eq_ok.mp h
  cases h
  have hinsert := held_insert m layer j { m.activation layer with exits := exits }
  have hexits : exits.countP (fun exit => exit.predecessor = some j) =
      (m.activation layer).exits.countP (fun exit => exit.predecessor = some j) +
        taken change j := by
    revert hrecord
    generalize (m.activation layer).exits = l
    intro hrecord
    cases recordIn_ok hrecord with
    | known => simp [taken]
    | first => by_cases hp : predecessor = some j <;> simp [taken, hp]
    | grown haction hgrow =>
      obtain ⟨hfirst, -, hp⟩ := grow_ok hgrow
      simp [taken, hfirst, hp, List.countP_cons]
  simp only [Activation.holds, hexits] at hinsert
  omega

end Exits

namespace Summaries

variable {m : Summaries A S} {j : ItemId}

/-- How often a list of summaries holds an item. -/
def usedIn (l : List (Summary S)) (j : ItemId) : Nat := (l.map fun s => s.uses.count j).sum

/-- How often the summaries hold an item. -/
def held (m : Summaries A S) (j : ItemId) : Nat := m.calls.total fun l => usedIn l j

variable [DecidableEq A]

theorem held_insert (m : Summaries A S) (call : A) (l : List (Summary S)) (j : ItemId) :
    Summaries.held ⟨m.calls.insert call l⟩ j + usedIn (m.ofCall call) j =
      m.held j + usedIn l j := by
  have htotal := m.calls.total_insert call l fun l => usedIn l j
  unfold held Summaries.ofCall Table.findD
  cases hfind : m.calls.find? call with
  | none =>
    rw [hfind] at htotal
    simpa [usedIn] using htotal
  | some old =>
    rw [hfind] at htotal
    simpa using htotal

theorem held_pos_of_use {call : A} {s : Summary S} (hs : s ∈ m.ofCall call) (hj : j ∈ s.uses) :
    0 < m.held j := by
  have hcount := List.count_pos_iff.mpr hj
  have husedIn : s.uses.count j ≤ usedIn (m.ofCall call) j :=
    List.single_le_sum (by simp) _ (List.mem_map_of_mem hs)
  unfold ofCall Table.findD at hs husedIn
  cases hfind : m.calls.find? call with
  | none => simp [hfind] at hs
  | some l =>
    rw [hfind] at husedIn
    have := Table.le_total (fun l : List (Summary S) => usedIn l j) hfind
    unfold held
    simp only [Option.getD_some] at husedIn
    omega

theorem usedIn_modify {l : List (Summary S)} {i : Nat} {s : Summary S} (h : l[i]? = some s)
    (id : ItemId) :
    usedIn (l.modify i fun s => { s with uses := s.uses ++ [id] }) j = usedIn l j + once id j := by
  induction l generalizing i with
  | nil => cases h
  | cons t rest ih =>
    cases i with
    | zero =>
      have hcount : List.count j [id] = once id j := by
        by_cases hj : j = id
        · simp [hj]
        · simp [once_of_ne hj, Ne.symm hj]
      simp [usedIn, hcount]
      omega
    | succ i =>
      have := ih (i := i) (by simpa using h)
      simp only [usedIn, List.modify_succ_cons, List.map_cons, List.sum_cons] at this ⊢
      omega

theorem held_addUse {r : SummaryRef A} {post : Disjunction S} (h : m.post? r = some post)
    (id : ItemId) : (m.addUse r id).held j = m.held j + once id j := by
  unfold post? at h
  obtain ⟨s, hs, -⟩ := Option.map_eq_some_iff.mp h
  unfold addUse
  unfold ofCall Table.findD at hs
  cases hfind : m.calls.find? r.call with
  | none => simp [hfind] at hs
  | some l =>
    rw [hfind] at hs
    have hs : l[r.index]? = some s := hs
    have hinsert := held_insert m r.call
      (l.modify r.index fun s => { s with uses := s.uses ++ [id] }) j
    have hl : m.ofCall r.call = l := by simp [ofCall, Table.findD, hfind]
    rw [hl, usedIn_modify hs id] at hinsert
    dsimp only
    omega

variable [AbstractState S]

theorem usedIn_recordIn (pre post : Disjunction S) (width : Nat) (l : List (Summary S)) :
    usedIn (recordIn pre post width l).2 j + (recordIn pre post width l).1.count j
      = usedIn l j := by
  fun_induction recordIn pre post width l with
  | case1 => simp [usedIn]
  | case2 => simp
  | case3 => simp [usedIn]; omega
  | case4 s rest hne stale rest' hrec ih =>
    rw [hrec] at ih
    simp only [usedIn, List.map_cons, List.sum_cons] at ih ⊢
    omega

/-- Recording a return hands back the uses that it forgets. -/
theorem held_record (call : A) (pre post : Disjunction S) (width : Nat) :
    (m.record call pre post width).2.held j + (m.record call pre post width).1.count j
      = m.held j := by
  have hinsert := held_insert m call (recordIn pre post width (m.ofCall call)).2 j
  have hrecord := usedIn_recordIn (j := j) pre post width (m.ofCall call)
  show Summaries.held ⟨m.calls.insert call (recordIn pre post width (m.ofCall call)).2⟩ j
    + (recordIn pre post width (m.ofCall call)).1.count j = m.held j
  omega

end Summaries

end Interproc
