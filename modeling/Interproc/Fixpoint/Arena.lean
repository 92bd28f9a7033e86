/-
  Interproc.Fixpoint.Arena
  ────────────────────────
  The live items of a computation.  Items are counted references: inserting an
  item takes a reference to its predecessor, and every other holder of an item's
  position takes one with `retain` and gives it back with `release`.  An item
  without references is freed, gives back its reference to its predecessor, and
  leaves its slot to the next item that is inserted.
-/
import Interproc.Fixpoint.Item

namespace Interproc

/-- An occupied slot. -/
structure Slot (L A S : Type) where
  item : Item L A S
  references : Nat
  deriving Repr

/-- The live items of a computation. -/
structure Arena (L A S : Type) where
  slots : Array (Option (Slot L A S)) := #[]
  /-- The vacant slots, most recently vacated first. -/
  vacant : List Nat := []
  /-- The number of occupied slots. -/
  live : Nat := 0

namespace Arena

variable {L A S : Type}

/-- The slot of an item, if the item is live. -/
def slot? (arena : Arena L A S) (id : ItemId) : Option (Slot L A S) :=
  arena.slots[id.index]?.join

/-- Overwrite the slot at a position. -/
def setSlot (arena : Arena L A S) (id : ItemId) (slot : Option (Slot L A S)) : Arena L A S :=
  { arena with slots := arena.slots.setIfInBounds id.index slot }

/-- A live item. -/
def get (arena : Arena L A S) (id : ItemId) : Except Error (Item L A S) :=
  match arena.slot? id with
  | some slot => .ok slot.item
  | none => .error (.itemNotFound id.index)

/-- Replace a live item. -/
def set (arena : Arena L A S) (id : ItemId) (item : Item L A S) : Except Error (Arena L A S) :=
  match arena.slot? id with
  | some slot => .ok (arena.setSlot id (some { slot with item := item }))
  | none => .error (.itemNotFound id.index)

/-- Take a reference to a live item. -/
def retain (arena : Arena L A S) (id : ItemId) : Except Error (Arena L A S) :=
  match arena.slot? id with
  | some slot => .ok (arena.setSlot id (some { slot with references := slot.references + 1 }))
  | none => .error (.itemNotFound id.index)

/-- Put an item without references into a vacant slot, or into a new one. -/
def place (arena : Arena L A S) (item : Item L A S) : ItemId × Arena L A S :=
  match arena.vacant with
  | i :: vacant =>
    (⟨i⟩, { slots := arena.slots.setIfInBounds i (some ⟨item, 0⟩)
            vacant := vacant
            live := arena.live + 1 })
  | [] =>
    (⟨arena.slots.size⟩, { slots := arena.slots.push (some ⟨item, 0⟩)
                           vacant := []
                           live := arena.live + 1 })

/-- Insert an item, taking a reference to its predecessor. -/
def insert (arena : Arena L A S) (item : Item L A S) :
    Except Error (ItemId × Arena L A S) :=
  match item.predecessor with
  | none => .ok (arena.place item)
  | some predecessor => do return (← arena.retain predecessor).place item

/-- Vacate a slot. -/
def vacate (arena : Arena L A S) (id : ItemId) : Arena L A S where
  slots := arena.slots.setIfInBounds id.index none
  vacant := id.index :: arena.vacant
  live := arena.live - 1

/-- Give back references along a chain of predecessors, at most `n` of them.  The chain goes on
as long as the reference given back was the last one. -/
def releaseChain : Nat → ItemId → EStateM Error (Arena L A S) Unit
  | 0, _, arena => .ok () arena
  | n + 1, id, arena =>
    match arena.slot? id with
    | none => .error (.itemNotFound id.index) arena
    | some slot =>
      if 1 < slot.references then
        .ok () (arena.setSlot id (some { slot with references := slot.references - 1 }))
      else
        match slot.item.predecessor with
        | none => .ok () (arena.vacate id)
        | some predecessor => releaseChain n predecessor (arena.vacate id)

/-- Give back a reference to an item.  Every link of the chain but the last vacates a slot, so
the chain is no longer than the number of slots plus one. -/
def release (id : ItemId) : EStateM Error (Arena L A S) Unit := fun arena =>
  releaseChain (arena.slots.size + 1) id arena

end Arena

end Interproc
