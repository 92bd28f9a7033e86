/-
  Interproc.Collections.Table
  ───────────────────────────
  Finite maps over keys that can only be told apart, not ordered.  A table keeps
  its entries in the order in which their keys were first written.
-/

namespace Interproc

/-- A finite map, kept as the list of its entries in order of first writing. -/
structure Table (κ β : Type) where
  /-- The keys with their values. -/
  entries : List (κ × β) := []
  deriving Repr, DecidableEq

namespace Table

variable {κ β : Type} [DecidableEq κ]

/-- The table without entries. -/
def empty : Table κ β := {}

instance : Inhabited (Table κ β) := ⟨{}⟩

/-- The value of `k` in a list of entries. -/
def findIn (k : κ) : List (κ × β) → Option β
  | [] => none
  | (x, v) :: rest => if x = k then some v else findIn k rest

/-- Overwrite the value of `k`, or append an entry if `k` has none. -/
def writeIn (k : κ) (v : β) : List (κ × β) → List (κ × β)
  | [] => [(k, v)]
  | (x, w) :: rest => if x = k then (x, v) :: rest else (x, w) :: writeIn k v rest

/-- The value of `k`, if there is one. -/
def find? (t : Table κ β) (k : κ) : Option β := findIn k t.entries

/-- The value of `k`, or `fallback`. -/
def findD (t : Table κ β) (k : κ) (fallback : β) : β := (t.find? k).getD fallback

/-- The table that gives `k` the value `v` and agrees with `t` elsewhere. -/
def insert (t : Table κ β) (k : κ) (v : β) : Table κ β := ⟨writeIn k v t.entries⟩

/-- The number of keys. -/
def size (t : Table κ β) : Nat := t.entries.length

theorem findIn_writeIn (k a : κ) (v : β) (l : List (κ × β)) :
    findIn a (writeIn k v l) = if k = a then some v else findIn a l := by
  induction l with
  | nil => rfl
  | cons e rest ih =>
    obtain ⟨x, w⟩ := e
    by_cases hxk : x = k
    · subst hxk
      by_cases hxa : x = a <;> simp [writeIn, findIn, hxa]
    · by_cases hxa : x = a
      · subst hxa
        simp [writeIn, findIn, hxk, Ne.symm hxk]
      · simp [writeIn, findIn, hxk, hxa, ih]

/-- Reading after a write. -/
theorem find?_insert (t : Table κ β) (k a : κ) (v : β) :
    (t.insert k v).find? a = if k = a then some v else t.find? a :=
  findIn_writeIn k a v t.entries

@[simp] theorem find?_insert_self (t : Table κ β) (k : κ) (v : β) :
    (t.insert k v).find? k = some v := by
  simp [find?_insert]

@[simp] theorem find?_empty (k : κ) : (empty : Table κ β).find? k = none := rfl

end Table

end Interproc
