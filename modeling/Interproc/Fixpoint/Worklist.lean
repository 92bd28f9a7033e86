/-
  Interproc.Fixpoint.Worklist
  ───────────────────────────
  The items that wait to be processed.
-/
import Interproc.Fixpoint.Ids
import Interproc.Fixpoint.Options

namespace Interproc

/-- The pending items, oldest first, and the order in which they are taken. -/
structure Worklist where
  order : Order := .fifo
  pending : List ItemId := []
  deriving Repr, DecidableEq

namespace Worklist

/-- Add a pending item. -/
def push (w : Worklist) (id : ItemId) : Worklist := { w with pending := w.pending ++ [id] }

/-- Take a pending item: the oldest or the newest. -/
def pop (w : Worklist) : Option (ItemId × Worklist) :=
  match w.order with
  | .fifo => w.pending.head?.map fun id => (id, { w with pending := w.pending.tail })
  | .lifo => w.pending.getLast?.map fun id => (id, { w with pending := w.pending.dropLast })

/-- The number of pending items. -/
def size (w : Worklist) : Nat := w.pending.length

end Worklist

end Interproc
