/-
  Interproc.Fixpoint.Ids
  ──────────────────────
  The names by which items and layers refer to one another.
-/
import Interproc.Text.Inspect

namespace Interproc

/-- The position of an item in its arena. -/
structure ItemId where
  index : Nat
  deriving Repr, DecidableEq

instance : ToString ItemId := ⟨fun id => "item#" ++ toString id.index⟩

instance : Inspect ItemId := ⟨fun id => Text.applied "ItemId" [inspect id.index]⟩

/-- The position of a layer in its storage. -/
structure LayerId where
  index : Nat
  deriving Repr, DecidableEq

instance : ToString LayerId := ⟨fun id => "storage#" ++ toString id.index⟩

end Interproc
