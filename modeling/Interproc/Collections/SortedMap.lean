/-
  Interproc.Collections.SortedMap
  ───────────────────────────────
  Finite maps as association lists with strictly increasing keys.  Order is part
  of the type, so two maps that answer every look-up alike are equal
  (`SortedMap.ext_find?`), and listing a map always follows its keys.
-/

namespace Interproc

/-- A finite map, kept as the list of its entries in increasing order of keys. -/
structure SortedMap (κ β : Type) [Ord κ] where
  /-- The keys with their values, in increasing order of keys. -/
  entries : List (κ × β)
  /-- Each key is smaller than every later one. -/
  increasing : entries.Pairwise fun a b => compare a.1 b.1 = .lt

namespace SortedMap

variable {κ β γ : Type} [Ord κ]

instance [DecidableEq κ] [DecidableEq β] : DecidableEq (SortedMap κ β) := fun a b =>
  decidable_of_iff (a.entries = b.entries) (by cases a; cases b; simp)

/-! ## §1. Operations. -/

/-- The map without entries. -/
def empty : SortedMap κ β := ⟨[], .nil⟩

instance : Inhabited (SortedMap κ β) := ⟨empty⟩

/-- Look `k` up in a list with increasing keys. -/
def findIn (k : κ) : List (κ × β) → Option β
  | [] => none
  | (x, v) :: rest =>
    match compare k x with
    | .lt => none
    | .eq => some v
    | .gt => findIn k rest

/-- Give `k` the value `v` in a list with increasing keys. -/
def insertInto (k : κ) (v : β) : List (κ × β) → List (κ × β)
  | [] => [(k, v)]
  | (x, w) :: rest =>
    match compare k x with
    | .lt => (k, v) :: (x, w) :: rest
    | .eq => (k, v) :: rest
    | .gt => (x, w) :: insertInto k v rest

theorem mem_of_mem_insertInto {k : κ} {v : β} {e : κ × β} {l : List (κ × β)}
    (h : e ∈ insertInto k v l) : e = (k, v) ∨ e ∈ l := by
  induction l with
  | nil => simpa [insertInto] using h
  | cons x rest ih =>
    simp only [insertInto] at h
    split at h
    · simpa using h
    · rcases List.mem_cons.mp h with rfl | h
      · simp
      · simp [h]
    · rcases List.mem_cons.mp h with rfl | h
      · simp
      · rcases ih h with rfl | h
        · simp
        · simp [h]

theorem increasing_insertInto [Std.TransOrd κ] [Std.LawfulEqOrd κ] (k : κ) (v : β)
    {l : List (κ × β)} (h : l.Pairwise fun a b => compare a.1 b.1 = .lt) :
    (insertInto k v l).Pairwise fun a b => compare a.1 b.1 = .lt := by
  induction l with
  | nil => simp [insertInto]
  | cons x rest ih =>
    obtain ⟨hx, hrest⟩ := List.pairwise_cons.mp h
    simp only [insertInto]
    split
    · rename_i hlt
      refine List.pairwise_cons.mpr ⟨fun a ha => ?_, h⟩
      rcases List.mem_cons.mp ha with rfl | ha
      · exact hlt
      · exact Std.TransCmp.lt_trans hlt (hx a ha)
    · rename_i heq
      have hk := Std.LawfulEqCmp.eq_of_compare heq
      exact List.pairwise_cons.mpr ⟨fun a ha => hk ▸ hx a ha, hrest⟩
    · rename_i hgt
      refine List.pairwise_cons.mpr ⟨fun a ha => ?_, ih hrest⟩
      rcases mem_of_mem_insertInto ha with rfl | ha
      · exact Std.OrientedCmp.gt_iff_lt.mp hgt
      · exact hx a ha

/-- The value of `k`, if there is one. -/
def find? (m : SortedMap κ β) (k : κ) : Option β := findIn k m.entries

/-- Whether `k` has a value. -/
def contains (m : SortedMap κ β) (k : κ) : Bool := (m.find? k).isSome

/-- The map that gives `k` the value `v` and agrees with `m` elsewhere. -/
def insert [Std.TransOrd κ] [Std.LawfulEqOrd κ] (m : SortedMap κ β) (k : κ) (v : β) :
    SortedMap κ β :=
  ⟨insertInto k v m.entries, increasing_insertInto k v m.increasing⟩

/-- The map without a value for `k`. -/
def erase (m : SortedMap κ β) (k : κ) : SortedMap κ β :=
  ⟨m.entries.filter fun e => compare k e.1 != .eq, m.increasing.filter _⟩

/-- Replace each value by `f`, dropping the keys for which `f` answers `none`. -/
def filterMap (m : SortedMap κ β) (f : κ → β → Option γ) : SortedMap κ γ :=
  ⟨m.entries.filterMap fun e => (f e.1 e.2).map fun v => (e.1, v), by
    refine List.Pairwise.filterMap _ ?_ m.increasing
    intro a b hab a' ha' b' hb'
    obtain ⟨_, _, rfl⟩ := Option.map_eq_some_iff.mp ha'
    obtain ⟨_, _, rfl⟩ := Option.map_eq_some_iff.mp hb'
    exact hab⟩

/-- The keys, in increasing order. -/
def keys (m : SortedMap κ β) : List κ := m.entries.map Prod.fst

/-- The values, in increasing order of their keys. -/
def values (m : SortedMap κ β) : List β := m.entries.map Prod.snd

/-- The number of keys. -/
def size (m : SortedMap κ β) : Nat := m.entries.length

/-! ## §2. Look-ups. -/

theorem findIn_eq_some_iff [Std.TransOrd κ] [Std.LawfulEqOrd κ] {k : κ} {v : β}
    {l : List (κ × β)} (h : l.Pairwise fun a b => compare a.1 b.1 = .lt) :
    findIn k l = some v ↔ (k, v) ∈ l := by
  induction l with
  | nil => simp [findIn]
  | cons e rest ih =>
    obtain ⟨x, w⟩ := e
    obtain ⟨hx, hrest⟩ := List.pairwise_cons.mp h
    simp only [findIn, List.mem_cons, Prod.mk.injEq]
    split
    · rename_i hlt
      refine ⟨fun h => (nomatch h), fun hmem => ?_⟩
      rcases hmem with ⟨rfl, rfl⟩ | hmem
      · simp [Std.ReflCmp.compare_self] at hlt
      · have hcycle := Std.TransCmp.lt_trans hlt (hx _ hmem)
        simp [Std.ReflCmp.compare_self] at hcycle
    · rename_i heq
      obtain rfl := Std.LawfulEqCmp.eq_of_compare heq
      constructor
      · rintro h
        exact Or.inl ⟨rfl, (Option.some.inj h).symm⟩
      · rintro (⟨_, rfl⟩ | hmem)
        · rfl
        · have hself := hx _ hmem
          simp [Std.ReflCmp.compare_self] at hself
    · rename_i hgt
      rw [ih hrest]
      refine ⟨Or.inr, fun hmem => ?_⟩
      rcases hmem with ⟨rfl, rfl⟩ | hmem
      · simp [Std.ReflCmp.compare_self] at hgt
      · exact hmem

/-- A value is found exactly where an entry holds it. -/
theorem find?_eq_some_iff [Std.TransOrd κ] [Std.LawfulEqOrd κ] {m : SortedMap κ β} {k : κ}
    {v : β} : m.find? k = some v ↔ (k, v) ∈ m.entries :=
  findIn_eq_some_iff m.increasing

@[simp] theorem find?_empty {k : κ} : (empty : SortedMap κ β).find? k = none := rfl

theorem mem_insertInto [Std.TransOrd κ] [Std.LawfulEqOrd κ] {k : κ} {v : β} {e : κ × β}
    {l : List (κ × β)} (h : l.Pairwise fun a b => compare a.1 b.1 = .lt) :
    e ∈ insertInto k v l ↔ e = (k, v) ∨ (e ∈ l ∧ e.1 ≠ k) := by
  induction l with
  | nil => simp [insertInto]
  | cons x rest ih =>
    obtain ⟨hx, hrest⟩ := List.pairwise_cons.mp h
    simp only [insertInto]
    split
    -- The new key is below the first one, and so below all keys.
    · rename_i hlt
      refine ⟨fun he => ?_, fun he => ?_⟩
      · rcases List.mem_cons.mp he with rfl | he
        · exact Or.inl rfl
        · refine Or.inr ⟨he, fun hk => ?_⟩
          have hke : compare k e.1 = .lt := by
            rcases List.mem_cons.mp he with rfl | he
            · exact hlt
            · exact Std.TransCmp.lt_trans hlt (hx e he)
          simp [hk, Std.ReflCmp.compare_self] at hke
      · rcases he with rfl | ⟨he, _⟩
        · exact List.mem_cons_self
        · exact List.mem_cons_of_mem _ he
    -- The first entry has the key, and no later one does.
    · rename_i heq
      obtain rfl := Std.LawfulEqCmp.eq_of_compare heq
      refine ⟨fun he => ?_, fun he => ?_⟩
      · rcases List.mem_cons.mp he with rfl | he
        · exact Or.inl rfl
        · refine Or.inr ⟨List.mem_cons_of_mem _ he, fun hk => ?_⟩
          have hself := hx e he
          simp [hk, Std.ReflCmp.compare_self] at hself
      · rcases he with rfl | ⟨he, hk⟩
        · exact List.mem_cons_self
        · rcases List.mem_cons.mp he with rfl | he
          · exact absurd rfl hk
          · exact List.mem_cons_of_mem _ he
    -- The first entry stays, and the rest is inserted into.
    · rename_i hgt
      simp only [List.mem_cons, ih hrest]
      refine ⟨fun he => ?_, fun he => ?_⟩
      · rcases he with rfl | rfl | ⟨he, hk⟩
        · refine Or.inr ⟨Or.inl rfl, fun hk => ?_⟩
          rw [hk, Std.compare_self] at hgt
          cases hgt
        · exact Or.inl rfl
        · exact Or.inr ⟨Or.inr he, hk⟩
      · rcases he with rfl | ⟨rfl | he, hk⟩
        · exact Or.inr (Or.inl rfl)
        · exact Or.inl rfl
        · exact Or.inr (Or.inr ⟨he, hk⟩)

/-- Reading after a write. -/
theorem find?_insert [Std.TransOrd κ] [Std.LawfulEqOrd κ] [DecidableEq κ] {m : SortedMap κ β}
    {k a : κ} {v : β} : (m.insert k v).find? a = if a = k then some v else m.find? a := by
  refine Option.ext fun w => ?_
  rw [find?_eq_some_iff]
  show (a, w) ∈ insertInto k v m.entries ↔ _
  rw [mem_insertInto m.increasing]
  split
  · rename_i hak
    subst hak
    simp [eq_comm]
  · rename_i hak
    simp [find?_eq_some_iff, hak]

/-- Reading after an erasure. -/
theorem find?_erase [Std.TransOrd κ] [Std.LawfulEqOrd κ] [DecidableEq κ] {m : SortedMap κ β}
    {k a : κ} : (m.erase k).find? a = if a = k then none else m.find? a := by
  refine Option.ext fun w => ?_
  rw [find?_eq_some_iff]
  simp only [erase, List.mem_filter]
  split
  · rename_i hak
    subst hak
    simp [Std.ReflCmp.compare_self]
  · rename_i hak
    simp [find?_eq_some_iff, Std.LawfulEqCmp.compare_eq_iff_eq, Ne.symm hak]

/-- Reading a filtered map. -/
theorem find?_filterMap [Std.TransOrd κ] [Std.LawfulEqOrd κ] {m : SortedMap κ β}
    {f : κ → β → Option γ} {a : κ} : (m.filterMap f).find? a = (m.find? a).bind (f a) := by
  refine Option.ext fun w => ?_
  rw [find?_eq_some_iff]
  simp only [filterMap, List.mem_filterMap, Option.map_eq_some_iff, Prod.exists, Prod.mk.injEq,
    Option.bind_eq_some_iff, find?_eq_some_iff]
  constructor
  · rintro ⟨k, v, hmem, u, hf, rfl, rfl⟩
    exact ⟨v, hmem, hf⟩
  · rintro ⟨v, hmem, hf⟩
    exact ⟨a, v, hmem, w, hf, rfl, rfl⟩

/-- The keys are what has a value. -/
theorem mem_keys [Std.TransOrd κ] [Std.LawfulEqOrd κ] {m : SortedMap κ β} {k : κ} :
    k ∈ m.keys ↔ m.contains k = true := by
  simp only [keys, List.mem_map, contains, Option.isSome_iff_exists, find?_eq_some_iff]
  constructor
  · rintro ⟨⟨k, v⟩, hmem, rfl⟩
    exact ⟨v, hmem⟩
  · rintro ⟨v, hmem⟩
    exact ⟨(k, v), hmem, rfl⟩

theorem nodup_keys [Std.TransOrd κ] (m : SortedMap κ β) : m.keys.Nodup := by
  refine List.pairwise_map.mpr (m.increasing.imp fun {a b} hlt hab => ?_)
  simp [hab, Std.ReflCmp.compare_self] at hlt

/-- The values are what is found. -/
theorem mem_values [Std.TransOrd κ] [Std.LawfulEqOrd κ] {m : SortedMap κ β} {v : β} :
    v ∈ m.values ↔ ∃ k, m.find? k = some v := by
  simp only [values, List.mem_map, find?_eq_some_iff]
  constructor
  · rintro ⟨⟨k, v⟩, hmem, rfl⟩
    exact ⟨k, hmem⟩
  · rintro ⟨k, hmem⟩
    exact ⟨(k, v), hmem, rfl⟩

/-- Reading after values that depend on their keys were written for some keys. -/
theorem find?_foldl_insert [Std.TransOrd κ] [Std.LawfulEqOrd κ] [DecidableEq κ] (f : κ → β) {a : κ}
    (l : List κ) (m : SortedMap κ β) : (l.foldl (fun m k => m.insert k (f k)) m).find? a =
      if a ∈ l then some (f a) else m.find? a := by
  induction l generalizing m with
  | nil => rfl
  | cons k rest ih =>
    rw [List.foldl_cons, ih, find?_insert]
    by_cases hrest : a ∈ rest
    · simp [hrest]
    · by_cases hak : a = k
      · simp [hak]
      · simp [hrest, hak]

/-! ## §3. Maps that answer alike are equal. -/

theorem eq_of_increasing_of_mem_iff [Std.TransOrd κ] {l m : List (κ × β)}
    (hl : l.Pairwise fun a b => compare a.1 b.1 = .lt)
    (hm : m.Pairwise fun a b => compare a.1 b.1 = .lt)
    (h : ∀ e, e ∈ l ↔ e ∈ m) : l = m := by
  induction l generalizing m with
  | nil => exact (List.eq_nil_iff_forall_not_mem.mpr fun a ha => by simpa using (h a).mpr ha).symm
  | cons x rest ih =>
    cases m with
    | nil => exact absurd ((h x).mp List.mem_cons_self) List.not_mem_nil
    | cons y tail =>
      obtain ⟨hx, hrest⟩ := List.pairwise_cons.mp hl
      obtain ⟨hy, htail⟩ := List.pairwise_cons.mp hm
      -- Each head has the least key of its list, so the heads agree.
      have hxy : x = y := by
        rcases List.mem_cons.mp ((h x).mp List.mem_cons_self) with rfl | hxt
        · rfl
        · rcases List.mem_cons.mp ((h y).mpr List.mem_cons_self) with rfl | hyr
          · rfl
          · have hcycle := Std.TransCmp.lt_trans (hx y hyr) (hy x hxt)
            simp [Std.ReflCmp.compare_self] at hcycle
      subst hxy
      refine congrArg (x :: ·) (ih hrest htail fun a => ⟨fun ha => ?_, fun ha => ?_⟩)
      · rcases List.mem_cons.mp ((h a).mp (List.mem_cons_of_mem _ ha)) with rfl | ha'
        · have hself := hx _ ha
          simp [Std.ReflCmp.compare_self] at hself
        · exact ha'
      · rcases List.mem_cons.mp ((h a).mpr (List.mem_cons_of_mem _ ha)) with rfl | ha'
        · have hself := hy _ ha
          simp [Std.ReflCmp.compare_self] at hself
        · exact ha'

theorem ext_find? [Std.TransOrd κ] [Std.LawfulEqOrd κ] {m n : SortedMap κ β}
    (h : ∀ k, m.find? k = n.find? k) : m = n := by
  have hentries : m.entries = n.entries :=
    eq_of_increasing_of_mem_iff m.increasing n.increasing fun ⟨k, v⟩ => by
      rw [← find?_eq_some_iff, ← find?_eq_some_iff, h k]
  cases m
  cases n
  simpa using hentries

end SortedMap

end Interproc
