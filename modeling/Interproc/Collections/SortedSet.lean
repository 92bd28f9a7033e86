/-
  Interproc.Collections.SortedSet
  ───────────────────────────────
  Finite sets as strictly increasing lists.  Order is part of the type, so two
  sets with the same members are equal (`SortedSet.ext_mem`), and listing a set
  always gives its members in increasing order.
-/

namespace Interproc

/-- A finite set, kept as the strictly increasing list of its members. -/
structure SortedSet (κ : Type) [Ord κ] where
  /-- The members, in increasing order. -/
  toList : List κ
  /-- Each member is smaller than every later one. -/
  increasing : toList.Pairwise fun a b => compare a b = .lt

namespace SortedSet

variable {κ : Type} [Ord κ]

instance [DecidableEq κ] : DecidableEq (SortedSet κ) := fun a b =>
  decidable_of_iff (a.toList = b.toList) (by cases a; cases b; simp)

/-! ## §1. Operations. -/

/-- The set without members. -/
def empty : SortedSet κ := ⟨[], .nil⟩

instance : Inhabited (SortedSet κ) := ⟨empty⟩

/-- Insert `k` at its place in an increasing list, which stays as it is if `k`
is there already. -/
def insertInto (k : κ) : List κ → List κ
  | [] => [k]
  | x :: rest =>
    match compare k x with
    | .lt => k :: x :: rest
    | .eq => x :: rest
    | .gt => x :: insertInto k rest

theorem mem_of_mem_insertInto {k a : κ} {l : List κ} (h : a ∈ insertInto k l) :
    a = k ∨ a ∈ l := by
  induction l with
  | nil => simpa [insertInto] using h
  | cons x rest ih =>
    simp only [insertInto] at h
    split at h
    · simpa using h
    · exact Or.inr h
    · rcases List.mem_cons.mp h with rfl | h
      · simp
      · rcases ih h with rfl | h
        · simp
        · simp [h]

theorem increasing_insertInto [Std.TransOrd κ] (k : κ) {l : List κ}
    (h : l.Pairwise fun a b => compare a b = .lt) :
    (insertInto k l).Pairwise fun a b => compare a b = .lt := by
  induction l with
  | nil => simp [insertInto]
  | cons x rest ih =>
    obtain ⟨hx, hrest⟩ := List.pairwise_cons.mp h
    simp only [insertInto]
    split
    · rename_i hlt
      refine List.pairwise_cons.mpr ⟨fun a ha => ?_, h⟩
      rcases List.mem_cons.mp ha with rfl | ha
      · exact hlt
      · exact Std.TransCmp.lt_trans hlt (hx a ha)
    · exact h
    · rename_i hgt
      refine List.pairwise_cons.mpr ⟨fun a ha => ?_, ih hrest⟩
      rcases mem_of_mem_insertInto ha with rfl | ha
      · exact Std.OrientedCmp.gt_iff_lt.mp hgt
      · exact hx a ha

/-- The set with `k` added. -/
def insert [Std.TransOrd κ] (s : SortedSet κ) (k : κ) : SortedSet κ :=
  ⟨insertInto k s.toList, increasing_insertInto k s.increasing⟩

/-- The set of the members of a list. -/
def ofList [Std.TransOrd κ] (l : List κ) : SortedSet κ := l.foldl insert empty

/-- The members that satisfy `p`. -/
def filter (s : SortedSet κ) (p : κ → Bool) : SortedSet κ :=
  ⟨s.toList.filter p, s.increasing.filter p⟩

instance : Membership κ (SortedSet κ) := ⟨fun s k => k ∈ s.toList⟩

instance [DecidableEq κ] (k : κ) (s : SortedSet κ) : Decidable (k ∈ s) :=
  inferInstanceAs (Decidable (k ∈ s.toList))

/-- Whether `k` is a member. -/
def contains [DecidableEq κ] (s : SortedSet κ) (k : κ) : Bool := decide (k ∈ s)

/-- The members common to both sets. -/
def inter [DecidableEq κ] (s t : SortedSet κ) : SortedSet κ := s.filter t.contains

/-- The members of either set. -/
def union [Std.TransOrd κ] (s t : SortedSet κ) : SortedSet κ := t.toList.foldl insert s

/-- Whether every member of `s` is a member of `t`. -/
def isSubset [DecidableEq κ] (s t : SortedSet κ) : Bool := s.toList.all t.contains

/-! ## §2. Membership. -/

theorem mem_toList {k : κ} {s : SortedSet κ} : k ∈ s.toList ↔ k ∈ s := Iff.rfl

@[simp] theorem contains_iff [DecidableEq κ] {k : κ} {s : SortedSet κ} :
    s.contains k = true ↔ k ∈ s := by
  simp [contains]

@[simp] theorem not_mem_empty {k : κ} : k ∉ (empty : SortedSet κ) := List.not_mem_nil

theorem mem_insertInto [Std.LawfulEqOrd κ] {k a : κ} {l : List κ} :
    a ∈ insertInto k l ↔ a = k ∨ a ∈ l := by
  refine ⟨mem_of_mem_insertInto, fun h => ?_⟩
  induction l with
  | nil => simpa [insertInto] using h
  | cons x rest ih =>
    simp only [insertInto]
    split
    · simpa using h
    · rename_i heq
      rcases h with rfl | h
      · exact Std.LawfulEqCmp.eq_of_compare heq ▸ List.mem_cons_self
      · exact h
    · rcases h with rfl | h
      · exact List.mem_cons_of_mem _ (ih (Or.inl rfl))
      · rcases List.mem_cons.mp h with rfl | h
        · exact List.mem_cons_self
        · exact List.mem_cons_of_mem _ (ih (Or.inr h))

@[simp] theorem mem_insert [Std.TransOrd κ] [Std.LawfulEqOrd κ] {k a : κ} {s : SortedSet κ} :
    a ∈ s.insert k ↔ a = k ∨ a ∈ s := mem_insertInto

@[simp] theorem mem_filter {a : κ} {s : SortedSet κ} {p : κ → Bool} :
    a ∈ s.filter p ↔ a ∈ s ∧ p a = true := List.mem_filter

@[simp] theorem mem_inter [DecidableEq κ] {a : κ} {s t : SortedSet κ} :
    a ∈ s.inter t ↔ a ∈ s ∧ a ∈ t := by
  simp [inter]

theorem mem_foldl_insert [Std.TransOrd κ] [Std.LawfulEqOrd κ] {a : κ} (l : List κ)
    (s : SortedSet κ) : a ∈ l.foldl insert s ↔ a ∈ l ∨ a ∈ s := by
  induction l generalizing s with
  | nil => simp
  | cons x rest ih =>
    simp only [List.foldl_cons, ih, mem_insert, List.mem_cons]
    constructor
    · rintro (h | h | h) <;> simp [h]
    · rintro ((h | h) | h) <;> simp [h]

@[simp] theorem mem_ofList [Std.TransOrd κ] [Std.LawfulEqOrd κ] {a : κ} {l : List κ} :
    a ∈ ofList l ↔ a ∈ l := by
  simp [ofList, mem_foldl_insert]

@[simp] theorem mem_union [Std.TransOrd κ] [Std.LawfulEqOrd κ] {a : κ} {s t : SortedSet κ} :
    a ∈ s.union t ↔ a ∈ s ∨ a ∈ t := by
  rw [union, mem_foldl_insert, mem_toList, or_comm]

theorem isSubset_iff [DecidableEq κ] {s t : SortedSet κ} :
    s.isSubset t = true ↔ ∀ a, a ∈ s → a ∈ t := by
  simp [isSubset, mem_toList]

/-! ## §3. Sets with the same members are equal. -/

/-- In an increasing list the head is not repeated. -/
theorem not_mem_tail_of_increasing [Std.TransOrd κ] {x : κ} {l : List κ}
    (h : (x :: l).Pairwise fun a b => compare a b = .lt) : x ∉ l := fun hx => by
  have hlt := (List.pairwise_cons.mp h).1 x hx
  simp [Std.ReflCmp.compare_self] at hlt

theorem nodup [Std.TransOrd κ] (s : SortedSet κ) : s.toList.Nodup := by
  refine s.increasing.imp fun {a b} hlt hab => ?_
  simp [hab, Std.ReflCmp.compare_self] at hlt

theorem eq_of_increasing_of_mem_iff [Std.TransOrd κ] {l m : List κ}
    (hl : l.Pairwise fun a b => compare a b = .lt) (hm : m.Pairwise fun a b => compare a b = .lt)
    (h : ∀ a, a ∈ l ↔ a ∈ m) : l = m := by
  induction l generalizing m with
  | nil => exact (List.eq_nil_iff_forall_not_mem.mpr fun a ha => by simpa using (h a).mpr ha).symm
  | cons x rest ih =>
    cases m with
    | nil => exact absurd ((h x).mp List.mem_cons_self) List.not_mem_nil
    | cons y tail =>
      obtain ⟨hx, hrest⟩ := List.pairwise_cons.mp hl
      obtain ⟨hy, htail⟩ := List.pairwise_cons.mp hm
      -- Each head is the least member of its list, so the heads agree.
      have hxy : x = y := by
        rcases List.mem_cons.mp ((h x).mp List.mem_cons_self) with rfl | hxt
        · rfl
        · rcases List.mem_cons.mp ((h y).mpr List.mem_cons_self) with rfl | hyr
          · rfl
          · have hcycle := Std.TransCmp.lt_trans (hx y hyr) (hy x hxt)
            simp [Std.ReflCmp.compare_self] at hcycle
      subst hxy
      refine congrArg (x :: ·) (ih hrest htail fun a => ⟨fun ha => ?_, fun ha => ?_⟩)
      · rcases List.mem_cons.mp ((h a).mp (List.mem_cons_of_mem _ ha)) with rfl | ha'
        · exact absurd ha (not_mem_tail_of_increasing hl)
        · exact ha'
      · rcases List.mem_cons.mp ((h a).mpr (List.mem_cons_of_mem _ ha)) with rfl | ha'
        · exact absurd ha (not_mem_tail_of_increasing hm)
        · exact ha'

theorem ext_mem [Std.TransOrd κ] {s t : SortedSet κ} (h : ∀ a, a ∈ s ↔ a ∈ t) : s = t := by
  cases s with
  | mk l hl =>
    cases t with
    | mk m hm =>
      obtain rfl := eq_of_increasing_of_mem_iff hl hm h
      rfl

end SortedSet

end Interproc
