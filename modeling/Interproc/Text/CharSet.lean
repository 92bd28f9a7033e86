/-
  Interproc.Text.CharSet
  ──────────────────────
  Sets of characters, kept as ranges of code points.  The ranges ascend, which is
  part of the type, so that a search may stop at the first range that starts too
  late (`CharSet.search_eq_true_iff`).
-/

namespace Interproc.Text

/-- Whether ranges of code points, ends included, ascend and keep a gap between one and the
next. -/
def ascends : List (Nat × Nat) → Bool
  | [] => true
  | [r] => r.1 ≤ r.2
  | r :: s :: rest => r.1 ≤ r.2 && r.2 + 1 < s.1 && ascends (s :: rest)

/-- A set of characters. -/
structure CharSet where
  /-- The first and the last code point of each range. -/
  ranges : List (Nat × Nat)
  ascending : ascends ranges = true

namespace CharSet

/-- Search ascending ranges for a code point. -/
def search (n : Nat) : List (Nat × Nat) → Bool
  | [] => false
  | (first, last) :: rest => first ≤ n && (n ≤ last || search n rest)

/-- Whether a character belongs to the set. -/
def contains (s : CharSet) (c : Char) : Bool := search c.toNat s.ranges

theorem ascends_tail {r : Nat × Nat} {l : List (Nat × Nat)} (h : ascends (r :: l) = true) :
    ascends l = true := by
  cases l with
  | nil => rfl
  | cons s rest =>
    simp only [ascends, Bool.and_eq_true] at h
    exact h.2

/-- No later range starts before the first one. -/
theorem first_le_of_ascends {r s : Nat × Nat} {l : List (Nat × Nat)}
    (h : ascends (r :: l) = true) (hs : s ∈ l) : r.1 ≤ s.1 := by
  induction l generalizing r with
  | nil => cases hs
  | cons t rest ih =>
    have ht : r.1 ≤ t.1 := by
      simp only [ascends, Bool.and_eq_true, decide_eq_true_eq] at h
      omega
    cases hs with
    | head => exact ht
    | tail _ hs => exact Nat.le_trans ht (ih (ascends_tail h) hs)

/-- The search finds a code point exactly if some range holds it. -/
theorem search_eq_true_iff {n : Nat} {l : List (Nat × Nat)} (h : ascends l = true) :
    search n l = true ↔ ∃ r ∈ l, r.1 ≤ n ∧ n ≤ r.2 := by
  induction l with
  | nil => simp [search]
  | cons r rest ih =>
    simp only [search, Bool.and_eq_true, Bool.or_eq_true, decide_eq_true_eq,
      ih (ascends_tail h), List.mem_cons, exists_eq_or_imp]
    constructor
    · rintro ⟨hfirst, hlast | hrest⟩
      · exact .inl ⟨hfirst, hlast⟩
      · exact .inr hrest
    · rintro (⟨hfirst, hlast⟩ | ⟨s, hs, hn⟩)
      · exact ⟨hfirst, .inl hlast⟩
      · exact ⟨Nat.le_trans (first_le_of_ascends h hs) hn.1, .inr ⟨s, hs, hn⟩⟩

/-- A character belongs to the set exactly if some range holds its code point. -/
theorem contains_eq_true_iff (s : CharSet) (c : Char) :
    s.contains c = true ↔ ∃ r ∈ s.ranges, r.1 ≤ c.toNat ∧ c.toNat ≤ r.2 :=
  search_eq_true_iff s.ascending

end CharSet

end Interproc.Text
