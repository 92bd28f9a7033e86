/-
  Interproc.Proofs.Retention
  ──────────────────────────
  Items live as long as somebody needs them.  Whatever is inserted, retained and
  released, in any order and with any failures, the arena knows which of its slots
  are vacant, and giving back a reference comes to an end.

  As long as only retained items are released, more is true.  The references of an
  item are those retained and not yet released, and one for each successor.  So the
  predecessor of a live item stays what it was, although vacant slots are used
  again, and an item goes with its last reference.

    * `outstanding` — how often the item at a position was retained and not released;
    * `born` — the operation that inserted the item at a position;
    * `Releases` — giving back a reference, as a loop without a bound.

  Main result: `Arena.ownership_of_history`.
-/
import Mathlib
import Interproc.Interval.State
import Interproc.Proofs.Failures

namespace Interproc

variable {L A S : Type}

namespace Arena

variable {a a' : Arena L A S} {id j p : ItemId} {item q : Item L A S} {slot slot' : Slot L A S}

/-! ## §1. Operations. -/

/-- A change to the arena. -/
inductive Operation (L A S : Type) where
  | insert (item : Item L A S)
  | retain (id : ItemId)
  | release (id : ItemId)

/-- The arena in which a step ends, even if it fails. -/
def ending {α : Type} : EStateM.Result Error (Arena L A S) α → Arena L A S
  | .ok _ a => a
  | .error _ a => a

/-- What an operation does; an insertion gives the position of the item. -/
def perform (a : Arena L A S) : Operation L A S → EStateM.Result Error (Arena L A S) (Option ItemId)
  | .insert item =>
    match a.insert item with
    | .ok (id, a') => .ok (some id) a'
    | .error cause => .error cause a
  | .retain id =>
    match a.retain id with
    | .ok a' => .ok none a'
    | .error cause => .error cause a
  | .release id =>
    match release id a with
    | .ok _ a' => .ok none a'
    | .error cause a' => .error cause a'

/-- The arena after an operation. -/
def after (a : Arena L A S) (op : Operation L A S) : Arena L A S := ending (a.perform op)

/-- Where an operation inserts an item. -/
def inserts? (a : Arena L A S) (op : Operation L A S) : Option ItemId :=
  match a.perform op with
  | .ok id _ => id
  | .error _ _ => none

variable {op : Operation L A S} {ops : List (Operation L A S)}

/-- What an operation can do. -/
inductive Performed (a : Arena L A S) : Operation L A S → Option ItemId → Arena L A S → Prop where
  | inserted {item : Item L A S} {id : ItemId} {a' : Arena L A S}
      (h : a.insert item = .ok (id, a')) : Performed a (.insert item) (some id) a'
  | notInserted {item : Item L A S} {cause : Error} (h : a.insert item = .error cause) :
      Performed a (.insert item) none a
  | retained {id : ItemId} {a' : Arena L A S} (h : a.retain id = .ok a') :
      Performed a (.retain id) none a'
  | notRetained {id : ItemId} {cause : Error} (h : a.retain id = .error cause) :
      Performed a (.retain id) none a
  | released {id : ItemId} {a' : Arena L A S} (h : Arena.release id a = .ok () a') :
      Performed a (.release id) none a'
  | notReleased {id : ItemId} {cause : Error} {a' : Arena L A S}
      (h : Arena.release id a = .error cause a') : Performed a (.release id) none a'

theorem performed (a : Arena L A S) (op : Operation L A S) :
    Performed a op (a.inserts? op) (a.after op) := by
  cases op with
  | insert item =>
    unfold inserts? after perform
    dsimp only
    cases h : a.insert item with
    | ok r => exact .inserted h
    | error cause => exact .notInserted h
  | retain id =>
    unfold inserts? after perform
    dsimp only
    cases h : a.retain id with
    | ok a' => exact .retained h
    | error cause => exact .notRetained h
  | release id =>
    unfold inserts? after perform
    dsimp only
    cases h : Arena.release id a with
    | ok _ a' => exact .released h
    | error cause a' => exact .notReleased h

/-- The arena after a sequence of operations. -/
def history (ops : List (Operation L A S)) : Arena L A S := ops.foldl after {}

theorem history_concat (ops : List (Operation L A S)) (op : Operation L A S) :
    history (ops ++ [op]) = (history ops).after op :=
  List.foldl_append

/-- How often the item at a position is retained and not released after an operation, if it was so
`n` times before.  A new item is not retained. -/
def tally (a : Arena L A S) (id : ItemId) (n : Nat) : Operation L A S → Nat
  | .insert item => if a.inserts? (.insert item) = some id then 0 else n
  | .retain j => if j = id ∧ (a.retain j).isOk then n + 1 else n
  | .release j => if j = id then n - 1 else n

/-- How often the item at a position was retained and has not been released since. -/
def outstanding (ops : List (Operation L A S)) (id : ItemId) : Nat :=
  (ops.foldl (fun l op => (l.1.after op, l.1.tally id l.2 op)) (({} : Arena L A S), 0)).2

theorem outstanding_concat (ops : List (Operation L A S)) (op : Operation L A S) (id : ItemId) :
    outstanding (ops ++ [op]) id = (history ops).tally id (outstanding ops id) op := by
  have hfst : ∀ ops : List (Operation L A S), (ops.foldl (fun l op =>
      (l.1.after op, l.1.tally id l.2 op)) (({} : Arena L A S), 0)).1 = history ops := by
    intro ops
    induction ops using List.reverseRecOn with
    | nil => rfl
    | append_singleton ops op ih => rw [List.foldl_concat, history_concat, ih]
  unfold outstanding
  rw [List.foldl_concat, hfst]

/-- Where the operation at a position of a sequence inserts an item. -/
def insertedAt? (ops : List (Operation L A S)) (k : Nat) : Option ItemId :=
  ops[k]?.bind (history (ops.take k)).inserts?

/-- The operation that inserted the item at a position, as a position in the sequence: the last
one that inserted an item there. -/
def born (ops : List (Operation L A S)) (id : ItemId) : Option Nat :=
  (List.range ops.length).reverse.find? fun k => insertedAt? ops k = some id

theorem born_concat (ops : List (Operation L A S)) (op : Operation L A S) (id : ItemId) :
    born (ops ++ [op]) id =
      if (history ops).inserts? op = some id then some ops.length else born ops id := by
  have hlast : insertedAt? (ops ++ [op]) ops.length = (history ops).inserts? op := by
    simp [insertedAt?]
  have hrest : ∀ k ∈ (List.range ops.length).reverse,
      insertedAt? (ops ++ [op]) k = insertedAt? ops k := by
    intro k hk
    have hk : k < ops.length := by simpa using hk
    unfold insertedAt?
    rw [List.getElem?_append_left hk, List.take_append_of_le_length hk.le]
  unfold born
  rw [List.length_append, List.length_singleton, List.range_succ, List.reverse_append,
    List.reverse_singleton, List.singleton_append, List.find?_cons, hlast]
  by_cases hid : (history ops).inserts? op = some id
  · simp [hid]
  · simp only [hid, decide_false, if_false]
    generalize (List.range ops.length).reverse = l at hrest
    induction l with
    | nil => rfl
    | cons k l ih =>
      rw [List.find?_cons, List.find?_cons, hrest k List.mem_cons_self,
        ih fun k hk => hrest k (List.mem_cons_of_mem _ hk)]

/-- A release gives back a reference that was retained after the operations `ops`. -/
def Operation.GivesBack (ops : List (Operation L A S)) : Operation L A S → Prop
  | insert _ | retain _ => True
  | release id => 0 < outstanding ops id

instance (ops : List (Operation L A S)) (op : Operation L A S) : Decidable (op.GivesBack ops) :=
  match op with
  | .insert _ | .retain _ => isTrue trivial
  | .release id => inferInstanceAs (Decidable (0 < outstanding ops id))

/-- Only what was retained is released. -/
def Disciplined (ops : List (Operation L A S)) : Prop :=
  ∀ k < ops.length, ∀ op ∈ ops[k]?, op.GivesBack (ops.take k)

theorem Disciplined.take (h : Disciplined ops) (n : Nat) : Disciplined (ops.take n) := by
  intro k hk op hop
  rw [List.length_take] at hk
  rw [List.getElem?_take_of_lt (by omega)] at hop
  rw [List.take_take, min_eq_left (by omega)]
  exact h k (by omega) op hop

theorem Disciplined.of_concat (h : Disciplined (ops ++ [op])) :
    Disciplined ops ∧ op.GivesBack ops := by
  have hops := h.take ops.length
  have hop := h ops.length (by simp) op (by simp)
  rw [List.take_left' rfl] at hops hop
  exact ⟨hops, hop⟩

/-! ## §2. Vacant slots. -/

/-- An arena knows which slots are vacant and how many are not. -/
structure Accounted (a : Arena L A S) : Prop where
  live_eq : a.live = a.occupied
  mem_vacant : ∀ i, i ∈ a.vacant ↔ a.slots[i]? = some none
  nodup : a.vacant.Nodup

theorem Accounted.setSlot (h : a.Accounted) (hslot : a.slot? id = some slot) :
    (a.setSlot id (some slot')).Accounted where
  live_eq := by
    have hcount := countP_setIfInBounds Option.isSome (getElem?_of_slot? hslot) (v := some slot')
    exact h.live_eq.trans (Nat.add_right_cancel hcount).symm
  mem_vacant := by
    intro i
    show i ∈ a.vacant ↔ (a.slots.setIfInBounds id.index (some slot'))[i]? = some none
    rw [h.mem_vacant, Array.getElem?_setIfInBounds]
    split
    · rename_i hi
      subst hi
      rw [getElem?_of_slot? hslot, if_pos (lt_size_of_slot? hslot)]
      simp
    · rfl
  nodup := h.nodup

theorem Accounted.vacate (h : a.Accounted) (hslot : a.slot? id = some slot) :
    (a.vacate id).Accounted where
  live_eq := by
    have hoccupied := occupied_vacate hslot
    have hlive := h.live_eq
    show a.live - 1 = (a.vacate id).occupied
    omega
  mem_vacant := by
    intro i
    show i ∈ id.index :: a.vacant ↔ (a.slots.setIfInBounds id.index none)[i]? = some none
    rw [List.mem_cons, h.mem_vacant, Array.getElem?_setIfInBounds]
    split
    · rename_i hi
      simp [← hi, lt_size_of_slot? hslot]
    · rename_i hi
      simp [Ne.symm hi]
  nodup := (vacant_vacate hslot (fun i hi => (h.mem_vacant i).mp hi) h.nodup).2

theorem Accounted.place (h : a.Accounted) (hplace : a.place item = (id, a')) : a'.Accounted := by
  have hplaced := placed_of_place (fun i hi => (h.mem_vacant i).mp hi) h.nodup hplace
  -- That listed slots are vacant is known; what is left is that no vacant slot is missing.
  refine ⟨?_, fun i => ⟨hplaced.vacant_lt i, fun hi => ?_⟩, hplaced.vacant_nodup⟩
  · rw [hplaced.live_eq, hplaced.occupied_eq, h.live_eq]
  · unfold Arena.place at hplace
    cases hvacant : a.vacant with
    | nil =>
      rw [hvacant] at hplace
      cases hplace
      have hnone : a.slots[i]? = some none := by
        rw [Array.getElem?_push] at hi
        split at hi
        · cases hi
        · exact hi
      rwa [← h.mem_vacant, hvacant] at hnone
    | cons k vacant =>
      rw [hvacant] at hplace
      cases hplace
      have hk : a.slots[k]? = some none := (h.mem_vacant k).mp (by simp [hvacant])
      have hne : k ≠ i := by
        rintro rfl
        have hlt := (Array.getElem?_eq_some_iff.mp hk).1
        simp [hlt] at hi
      rw [Array.getElem?_setIfInBounds_ne hne, ← h.mem_vacant, hvacant] at hi
      exact (List.mem_cons.mp hi).resolve_left (Ne.symm hne)

theorem Accounted.retain (h : a.Accounted) (hretain : a.retain id = .ok a') : a'.Accounted := by
  unfold Arena.retain at hretain
  cases hslot : a.slot? id with
  | none => simp [hslot] at hretain
  | some slot =>
    rw [hslot] at hretain
    cases hretain
    exact h.setSlot hslot

/-- Inserting an item retains its predecessor and then places the item. -/
theorem exists_of_insert (h : a.insert item = .ok (id, a')) : ∃ b : Arena L A S,
    (item.predecessor = none ∧ b = a ∨ ∃ p, item.predecessor = some p ∧ a.retain p = .ok b) ∧
      b.place item = (id, a') := by
  unfold Arena.insert at h
  cases hp : item.predecessor with
  | none =>
    rw [hp] at h
    exact ⟨a, .inl ⟨rfl, rfl⟩, Except.ok.inj h⟩
  | some p =>
    rw [hp] at h
    obtain ⟨b, hretain, hplace⟩ := except_bind_eq_ok.mp h
    exact ⟨b, .inr ⟨p, rfl, hretain⟩, Except.ok.inj hplace⟩

theorem Accounted.insert (h : a.Accounted) (hinsert : a.insert item = .ok (id, a')) :
    a'.Accounted := by
  obtain ⟨b, ⟨-, rfl⟩ | ⟨p, -, hretain⟩, hplace⟩ := exists_of_insert hinsert
  · exact h.place hplace
  · exact (h.retain hretain).place hplace

/-! ## §3. Giving back a reference. -/

/-- Giving back a reference to an item, if there is one: it ends at an item that does not exist,
at one that has further references, or at one without a predecessor. -/
inductive Releases : Option ItemId → Arena L A S → EStateM.Result Error (Arena L A S) Unit → Prop
    where
  | done (a : Arena L A S) : Releases none a (.ok () a)
  | missing {a : Arena L A S} {id : ItemId} (h : a.slot? id = none) :
      Releases (some id) a (.error (.itemNotFound id.index) a)
  | shared {a : Arena L A S} {id : ItemId} {slot : Slot L A S} (h : a.slot? id = some slot)
      (hshared : 1 < slot.references) : Releases (some id) a
        (.ok () (a.setSlot id (some { slot with references := slot.references - 1 })))
  | last {a : Arena L A S} {id : ItemId} {slot : Slot L A S}
      {r : EStateM.Result Error (Arena L A S) Unit} (h : a.slot? id = some slot)
      (hlast : slot.references ≤ 1)
      (hrest : Releases slot.item.predecessor (a.vacate id) r) : Releases (some id) a r

theorem releases_releaseChain {n : Nat} (hn : a.occupied < n) :
    Releases (some id) a (releaseChain n id a) := by
  -- Each link but the last one vacates a slot.
  induction n generalizing a id with
  | zero => omega
  | succ n ih =>
    unfold releaseChain
    cases hslot : a.slot? id with
    | none => exact .missing hslot
    | some slot =>
      simp only
      split
      · exact .shared hslot (by assumption)
      · rename_i hlast
        have hoccupied := occupied_vacate hslot
        refine .last hslot (by omega) ?_
        cases hp : slot.item.predecessor with
        | none => exact .done _
        | some p => exact ih (by omega)

/-- Giving back a reference comes to an end. -/
theorem releases_release (a : Arena L A S) (id : ItemId) :
    Releases (some id) a (release id a) := by
  refine releases_releaseChain ?_
  have hle : a.occupied ≤ a.slots.toList.length := List.countP_le_length
  rw [Array.length_toList] at hle
  omega

variable {next : Option ItemId} {r : EStateM.Result Error (Arena L A S) Unit}

theorem Releases.accounted (hr : Releases next a r) (h : a.Accounted) : (ending r).Accounted := by
  induction hr with
  | done => exact h
  | missing => exact h
  | shared hslot => exact h.setSlot hslot
  | last hslot _ _ ih => exact ih (h.vacate hslot)

theorem Releases.slot?_eq_none (hr : Releases next a r) (hj : a.slot? j = none) :
    (ending r).slot? j = none := by
  induction hr with
  | done => exact hj
  | missing => exact hj
  | @shared a id slot hslot =>
    have hne : j ≠ id := by
      rintro rfl
      rw [hslot] at hj
      cases hj
    rw [ending, slot?_setSlot hslot, if_neg hne]
    exact hj
  | last hslot _ _ ih =>
    refine ih ?_
    rw [slot?_vacate hslot]
    split
    · rfl
    · exact hj

theorem Accounted.after (h : a.Accounted) (op : Operation L A S) : (a.after op).Accounted := by
  have hp := performed a op
  generalize a.after op = a' at hp
  generalize a.inserts? op = new at hp
  cases hp with
  | inserted hinsert => exact h.insert hinsert
  | notInserted => exact h
  | retained hretain => exact h.retain hretain
  | notRetained => exact h
  | @released id _ hrelease =>
    have hends := (releases_release a id).accounted h
    rwa [hrelease] at hends
  | @notReleased id _ _ hrelease =>
    have hends := (releases_release a id).accounted h
    rwa [hrelease] at hends

theorem accounted_history (ops : List (Operation L A S)) : (history ops).Accounted := by
  induction ops using List.reverseRecOn with
  | nil => exact ⟨rfl, fun i => by simp [history], List.nodup_nil⟩
  | append_singleton ops op ih =>
    rw [history_concat]
    exact ih.after op

/-! ## §4. Live items. -/

/-- Every live item stays, with no fewer references. -/
def Keeps (a a' : Arena L A S) : Prop :=
  ∀ j slot, a.slot? j = some slot →
    ∃ n, a'.slot? j = some ⟨slot.item, n⟩ ∧ slot.references ≤ n

theorem Keeps.refl (a : Arena L A S) : a.Keeps a :=
  fun _ slot hslot => ⟨slot.references, hslot, le_rfl⟩

theorem Keeps.get (h : a.Keeps a') (hj : a.get j = .ok q) : a'.get j = .ok q := by
  obtain ⟨n, hslot⟩ := get_eq_ok_iff.mp hj
  obtain ⟨n', hslot', -⟩ := h j _ hslot
  exact get_eq_ok_iff.mpr ⟨n', hslot'⟩

theorem keeps_retain (hretain : a.retain id = .ok a') : a.Keeps a' := by
  unfold Arena.retain at hretain
  cases hslot : a.slot? id with
  | none => simp [hslot] at hretain
  | some old =>
    rw [hslot] at hretain
    cases hretain
    intro j slot hj
    rw [slot?_setSlot hslot]
    by_cases hne : j = id
    · subst hne
      rw [hslot] at hj
      cases hj
      exact ⟨_, if_pos rfl, Nat.le_succ _⟩
    · exact ⟨slot.references, by rw [if_neg hne]; exact hj, le_rfl⟩

/-- An item is inserted into a vacant slot, and all live items stay. -/
theorem Accounted.keeps_insert (h : a.Accounted) (hinsert : a.insert item = .ok (id, a')) :
    a.slot? id = none ∧ a.Keeps a' := by
  obtain ⟨b, hb, hplace⟩ := exists_of_insert hinsert
  obtain ⟨hbooks, hkeeps⟩ : b.Accounted ∧ a.Keeps b := by
    obtain ⟨-, rfl⟩ | ⟨p, -, hretain⟩ := hb
    · exact ⟨h, .refl b⟩
    · exact ⟨h.retain hretain, keeps_retain hretain⟩
  have hplaced := placed_of_place (fun i hi => (hbooks.mem_vacant i).mp hi) hbooks.nodup hplace
  constructor
  · cases hslot : a.slot? id with
    | none => rfl
    | some slot =>
      obtain ⟨n, hn, -⟩ := hkeeps id slot hslot
      rw [hplaced.vacant] at hn
      cases hn
  · intro j slot hslot
    obtain ⟨n, hn, hle⟩ := hkeeps j slot hslot
    refine ⟨n, ?_, hle⟩
    have hne : j ≠ id := by
      rintro rfl
      rw [hplaced.vacant] at hn
      cases hn
    rw [hplaced.slot?_eq, if_neg hne]
    exact hn

/-! ## §5. Counted references. -/

variable {held : ItemId → Nat}

/-- Before a release, one more reference is held than after it. -/
theorem held_eq_tally (hop : 0 < held id) :
    held = fun j => a.tally j (held j) (.release id) + once id j := by
  funext j
  by_cases hj : j = id
  · subst hj
    simp only [tally, if_true, once_self]
    omega
  · simp [tally, Ne.symm hj, once_of_ne hj]

/-- What is held can be given back. -/
theorem Counted.release_ok (h : a.Counted held) (hop : 0 < held id) :
    ∃ a', Arena.release id a = .ok () a' := by
  rw [held_eq_tally (a := a) hop] at h
  exact exists_release h

/-- An operation changes what is held as the tally says. -/
theorem Counted.after (h : a.Counted held) (hop : ∀ id, op = .release id → 0 < held id) :
    (a.after op).Counted fun j => a.tally j (held j) op := by
  have hp := performed a op
  generalize hafter : a.after op = a' at hp
  generalize hnew : a.inserts? op = new at hp
  cases hp with
  | @inserted item id a' hinsert =>
    have hinserted := h.insert hinsert
    -- Nothing was held of the slot that was vacant.
    have hzero : held id = 0 := by
      have href := h.references_eq id
      rw [references_of_none hinserted.vacant] at href
      omega
    have htally : (fun j => a.tally j (held j) (.insert item)) = held := by
      funext j
      simp only [tally, hnew, Option.some.injEq]
      split
      · rename_i hj
        rw [← hj, hzero]
      · rfl
    rw [htally]
    exact hinserted.counted
  | notInserted =>
    simpa [tally, hnew] using h
  | @retained id a' hretain =>
    have htally : (fun j => a.tally j (held j) (.retain id)) = fun j => held j + once id j := by
      funext j
      by_cases hj : j = id
      · simp [tally, hretain, hj, Except.isOk, Except.toBool]
      · simp [tally, Ne.symm hj, once_of_ne hj]
    rw [htally]
    exact (h.retain hretain).1
  | @notRetained id cause hretain =>
    simpa [tally, hretain, Except.isOk, Except.toBool] using h
  | @released id a' hrelease =>
    rw [held_eq_tally (a := a) (hop id rfl)] at h
    exact (h.release hrelease).1
  | @notReleased id cause a' hrelease =>
    obtain ⟨b, hb⟩ := h.release_ok (hop id rfl)
    rw [hrelease] at hb
    cases hb

theorem Operation.GivesBack.pos (h : op.GivesBack ops) :
    ∀ id, op = .release id → 0 < outstanding ops id := by
  rintro id rfl
  exact h

/-- The references of an item are those that were retained and not yet released, and those of its
successors. -/
theorem counted_history (h : Disciplined ops) : (history ops).Counted (outstanding ops) := by
  induction ops using List.reverseRecOn with
  | nil => exact ⟨fun _ => rfl, fun _ hi => (List.not_mem_nil hi).elim, List.nodup_nil⟩
  | append_singleton ops op ih =>
    obtain ⟨hops, hop⟩ := h.of_concat
    have hafter := (ih hops).after hop.pos
    rw [history_concat]
    simpa only [← outstanding_concat] using hafter

/-- An item goes with its last reference. -/
theorem Releases.slot?_eq_none_iff (hr : Releases next a r)
    (h : a.Counted fun j => held j + next.elim 0 (once · j)) (hj : a.slot? j = some slot) :
    (ending r).slot? j = none ↔ 0 < a.references j ∧ (ending r).references j = 0 := by
  induction hr with
  | done =>
    simp only [ending, hj, reduceCtorEq, false_iff]
    omega
  | missing =>
    simp only [ending, hj, reduceCtorEq, false_iff]
    omega
  | @shared a id slot' hslot hshared =>
    by_cases hne : j = id
    · subst hne
      simp only [ending, references, slot?_setSlot hslot, if_true, reduceCtorEq, Option.elim_some,
        false_iff]
      omega
    · simp only [ending, references, slot?_setSlot hslot, hne, if_false, hj, reduceCtorEq,
        Option.elim_some, false_iff]
      omega
  | @last a id slot' r hslot hlast hrest ih =>
    -- The item itself goes; any other one is as it was, and the rest of the chain decides.
    by_cases hne : j = id
    · subst hne
      have hgone : (ending r).slot? j = none := by
        refine hrest.slot?_eq_none ?_
        rw [slot?_vacate hslot, if_pos rfl]
      have hpos := h.references_eq j
      simp only [Option.elim_some, once_self] at hpos
      refine ⟨fun _ => ⟨by omega, references_of_none hgone⟩, fun _ => hgone⟩
    · have hsame : (a.vacate id).slot? j = some slot := by
        rw [slot?_vacate hslot, if_neg hne]
        exact hj
      have hrefs : (a.vacate id).references j = a.references j := by
        rw [references_of_slot? hsame, references_of_slot? hj]
      obtain ⟨hvacated, -⟩ := h.vacate hslot hlast
      rw [← hrefs]
      refine ih ?_ hsame
      -- The reference that the removed item had to its predecessor is the next one to give back.
      simpa only [toNat_follows] using hvacated

/-- An operation removes an item just if it gives back its last reference. -/
theorem Counted.removes_iff (h : a.Counted held) (hbooks : a.Accounted)
    (hop : ∀ id, op = .release id → 0 < held id) (hj : a.slot? j = some slot) :
    (a.after op).slot? j = none ↔ (∃ id, op = .release id) ∧ 0 < held j + a.successors j ∧
      a.tally j (held j) op + (a.after op).successors j = 0 := by
  -- Both sums are reference counts, which `Releases` follows link by link.
  rw [← h.references_eq j, ← (h.after hop).references_eq j]
  have hkept : ∀ a' : Arena L A S, a.Keeps a' → a'.slot? j ≠ none := by
    intro a' hkeeps hnone
    obtain ⟨n, hn, -⟩ := hkeeps j slot hj
    rw [hnone] at hn
    cases hn
  have hp := performed a op
  generalize a.after op = a' at hp
  generalize a.inserts? op = new at hp
  cases hp with
  | inserted hinsert => simp [hkept _ (hbooks.keeps_insert hinsert).2]
  | notInserted => simp [hj]
  | retained hretain => simp [hkept _ (keeps_retain hretain)]
  | notRetained => simp [hj]
  | @released id a' hrelease =>
    rw [held_eq_tally (a := a) (hop id rfl)] at h
    have hiff := (releases_release a id).slot?_eq_none_iff h hj
    rw [hrelease] at hiff
    simpa [ending] using hiff
  | @notReleased id cause a' hrelease =>
    rw [held_eq_tally (a := a) (hop id rfl)] at h
    have hiff := (releases_release a id).slot?_eq_none_iff h hj
    rw [hrelease] at hiff
    simpa [ending] using hiff

/-! ## §6. Predecessors. -/

/-- An item that is live after an operation was inserted by it, or was live before. -/
theorem Counted.get_after (h : a.Counted held) (hop : ∀ id, op = .release id → 0 < held id)
    (hj : (a.after op).get j = .ok item) :
    a.inserts? op = some j ∧ op = .insert item ∨
      a.inserts? op ≠ some j ∧ a.get j = .ok item := by
  have hp := performed a op
  generalize a.after op = a' at hp hj
  generalize a.inserts? op = new at hp
  cases hp with
  | @inserted item' id a' hinsert =>
    have hget := (h.insert hinsert).get_eq j
    rw [hj] at hget
    split at hget
    · rename_i hid
      cases hget
      exact .inl ⟨by rw [hid], rfl⟩
    · rename_i hid
      exact .inr ⟨fun hnew => hid (Option.some.inj hnew).symm, hget.symm⟩
  | notInserted => exact .inr ⟨nofun, hj⟩
  | retained hretain => exact .inr ⟨nofun, (h.retain hretain).2.1 j ▸ hj⟩
  | notRetained => exact .inr ⟨nofun, hj⟩
  | @released id a' hrelease =>
    rw [held_eq_tally (a := a) (hop id rfl)] at h
    exact .inr ⟨nofun, (h.release hrelease).2 j item hj⟩
  | @notReleased id cause a' hrelease =>
    obtain ⟨b, hb⟩ := h.release_ok (hop id rfl)
    rw [hrelease] at hb
    cases hb

/-- An item is not inserted where another one is live, nor without its predecessor. -/
theorem Accounted.inserts?_eq_some (h : a.Accounted) (hnew : a.inserts? op = some id) :
    a.slot? id = none ∧ ∀ item p, op = .insert item → item.predecessor = some p →
      ∃ q, a.get p = .ok q := by
  have hp := performed a op
  generalize a.after op = a' at hp
  rw [hnew] at hp
  cases hp with
  | @inserted item _ a' hinsert =>
    refine ⟨(h.keeps_insert hinsert).1, ?_⟩
    rintro item' p hitem hpred
    cases hitem
    obtain ⟨b, ⟨hnone, -⟩ | ⟨p', hp', hretain⟩, -⟩ := exists_of_insert hinsert
    · rw [hnone] at hpred
      cases hpred
    · rw [hpred] at hp'
      cases hp'
      unfold Arena.retain at hretain
      cases hslot : a.slot? p with
      | none => simp [hslot] at hretain
      | some slot => exact ⟨slot.item, get_eq_ok_iff.mpr ⟨slot.references, hslot⟩⟩

/-- Every live item was inserted by some operation, and its predecessor is the item that stood at
that position then. -/
theorem predecessor_history (h : Disciplined ops) (hj : (history ops).get j = .ok item) :
    ∃ k, born ops j = some k ∧ ops[k]? = some (.insert item) ∧
      ∀ p, item.predecessor = some p → ∃ k' q, born (ops.take k) p = some k' ∧
        born ops p = some k' ∧ (history (ops.take k)).get p = .ok q ∧
          (history ops).get p = .ok q := by
  induction ops using List.reverseRecOn generalizing j item with
  | nil => cases hj
  | append_singleton ops op ih =>
    obtain ⟨hops, hop⟩ := h.of_concat
    have hcounted := counted_history hops
    have hbooks := accounted_history ops
    -- The predecessor is still there, as its successor is.
    have hlive : ∀ p, item.predecessor = some p →
        ∃ q, (history (ops ++ [op])).get p = .ok q := by
      intro p hp
      have hpos := successors_pos hj hp
      exact (counted_history h).live (Nat.add_pos_right _ hpos)
    -- What was live before is the item that it was.
    have hsame : ∀ p q, (history ops).get p = .ok q →
        (∃ q', (history (ops ++ [op])).get p = .ok q') →
        (history (ops ++ [op])).get p = .ok q ∧ born (ops ++ [op]) p = born ops p := by
      rintro p q hq ⟨q', hq'⟩
      rw [history_concat] at hq' ⊢
      rw [born_concat]
      obtain ⟨n, hslot⟩ := get_eq_ok_iff.mp hq
      obtain ⟨hnew, -⟩ | ⟨hold, hget⟩ := hcounted.get_after hop.pos hq'
      · rw [(hbooks.inserts?_eq_some hnew).1] at hslot
        cases hslot
      · rw [hq] at hget
        cases hget
        exact ⟨hq', if_neg hold⟩
    have hj' := hj
    rw [history_concat] at hj'
    -- The item is new, and its predecessor was live then; or the operation left both alone.
    obtain ⟨hnew, rfl⟩ | ⟨hold, hget⟩ := hcounted.get_after hop.pos hj'
    · refine ⟨ops.length, by rw [born_concat, if_pos hnew], List.getElem?_concat_length, ?_⟩
      intro p hp
      obtain ⟨q, hq⟩ := (hbooks.inserts?_eq_some hnew).2 item p rfl hp
      obtain ⟨k', hk', -⟩ := ih hops hq
      obtain ⟨hq', hborn⟩ := hsame p q hq (hlive p hp)
      rw [List.take_left' rfl]
      exact ⟨k', q, hk', hborn.trans hk', hq, hq'⟩
    · obtain ⟨k, hk, hinsert, hpred⟩ := ih hops hget
      have hlt : k < ops.length := (List.getElem?_eq_some_iff.mp hinsert).1
      refine ⟨k, by rw [born_concat, if_neg hold, hk], ?_, ?_⟩
      · rw [List.getElem?_append_left hlt]
        exact hinsert
      · intro p hp
        obtain ⟨k', q, hthen, hnow, hq, hq'⟩ := hpred p hp
        obtain ⟨hkept, hborn⟩ := hsame p q hq' (hlive p hp)
        rw [List.take_append_of_le_length hlt.le]
        exact ⟨k', q, hthen, hborn.trans hnow, hq, hkept⟩

/-! ## §7. Ownership. -/

/-- Whatever is inserted, retained and released, and however much of it fails:

* the arena counts the occupied slots, and its vacant slots are listed, each of them once;
* so an item is inserted into a vacant slot, and every live item stays as it is;
* giving back a reference comes to an end.

If moreover only retained items are released:

* an item has a reference for each time that it was retained and not released yet, and one for each
  live successor;
* the predecessor of a live item is the item that stood at that position when its successor was
  inserted, although slots are used again;
* no release fails;
* an operation removes an item just if it is a release that gives back the last reference to it. -/
theorem ownership_of_history (ops : List (Operation L A S)) :
    (history ops).live = (history ops).occupied ∧ (history ops).vacant.Nodup ∧
    (∀ i, i ∈ (history ops).vacant ↔ (history ops).slots[i]? = some none) ∧
    (∀ item id a', (history ops).insert item = .ok (id, a') → (history ops).slot? id = none ∧
      ∀ j q, (history ops).get j = .ok q → a'.get j = .ok q) ∧
    (∀ id, Releases (some id) (history ops) (release id (history ops))) ∧
    (Disciplined ops →
      (∀ j item, (history ops).get j = .ok item →
        (history ops).references j = outstanding ops j + (history ops).successors j) ∧
      (∀ j item p, (history ops).get j = .ok item → item.predecessor = some p → ∃ k k' q,
        born ops j = some k ∧ ops[k]? = some (.insert item) ∧ born (ops.take k) p = some k' ∧
          born ops p = some k' ∧ (history (ops.take k)).get p = .ok q ∧
            (history ops).get p = .ok q) ∧
      (∀ k id, ops[k]? = some (.release id) →
        ∃ a', release id (history (ops.take k)) = .ok () a') ∧
      ∀ op j item, op.GivesBack ops → (history ops).get j = .ok item →
        (((history ops).after op).slot? j = none ↔ (∃ id, op = .release id) ∧
          0 < outstanding ops j + (history ops).successors j ∧
          outstanding (ops ++ [op]) j + ((history ops).after op).successors j = 0)) := by
  have hbooks := accounted_history ops
  refine ⟨hbooks.live_eq, hbooks.nodup, hbooks.mem_vacant, ?_, releases_release _, fun h => ?_⟩
  · intro item id a' hinsert
    obtain ⟨hvacant, hkeeps⟩ := hbooks.keeps_insert hinsert
    exact ⟨hvacant, fun j q => hkeeps.get⟩
  have hcounted := counted_history h
  refine ⟨fun j _ _ => hcounted.references_eq j, ?_, ?_, ?_⟩
  · intro j item p hj hp
    obtain ⟨k, hk, hinsert, hpred⟩ := predecessor_history h hj
    obtain ⟨k', q, hthen, hnow, hq, hq'⟩ := hpred p hp
    exact ⟨k, k', q, hk, hinsert, hthen, hnow, hq, hq'⟩
  · intro k id hk
    have hlt := (List.getElem?_eq_some_iff.mp hk).1
    exact (counted_history (h.take k)).release_ok (h k hlt _ hk)
  · intro op j item hop hj
    obtain ⟨n, hslot⟩ := get_eq_ok_iff.mp hj
    rw [outstanding_concat]
    exact hcounted.removes_iff hbooks hop.pos hslot

/-- An item without context, with or without a predecessor. -/
def plain (action : String) (predecessor : Option ItemId) : Item Nat String IntervalState :=
  { Item.initial action .bottom ⟨0⟩ with predecessor := predecessor }

/-- A chain of three items whose first two are released, a retained item whose slot is used again,
and attempts to retain and to insert an item after one that does not exist. -/
def chained : List (Operation Nat String IntervalState) :=
  [.insert (plain "a" none), .retain ⟨0⟩, .insert (plain "b" (some ⟨0⟩)), .retain ⟨1⟩,
    .insert (plain "c" (some ⟨1⟩)), .retain ⟨2⟩, .release ⟨0⟩, .retain ⟨9⟩, .release ⟨1⟩,
    .insert (plain "d" (some ⟨9⟩)), .insert (plain "e" none), .retain ⟨3⟩, .release ⟨3⟩,
    .insert (plain "f" (some ⟨2⟩)), .retain ⟨3⟩, .release ⟨2⟩]

set_option maxRecDepth 100000 in
/-- The first item is still the one that was inserted first, and goes with the last one. -/
theorem ownership_of_history_chained : Disciplined chained ∧
    (history chained).live = (history chained).occupied ∧
    (history chained).references ⟨1⟩ = outstanding chained ⟨1⟩ + (history chained).successors ⟨1⟩ ∧
    (∃ k', born (chained.take 2) ⟨0⟩ = some k' ∧ born chained ⟨0⟩ = some k') ∧
    (∃ a', release ⟨2⟩ (history (chained.take 15)) = .ok () a') ∧
    ((history chained).after (.release ⟨3⟩)).slot? ⟨0⟩ = none := by
  have hdisciplined : Disciplined chained := by
    unfold Disciplined
    decide +kernel
  obtain ⟨hlive, -, -, -, -, howned⟩ := ownership_of_history chained
  obtain ⟨hrefs, hpred, hreleases, hremoves⟩ := howned hdisciplined
  have hfirst : (history chained).get ⟨0⟩ = .ok (plain "a" none) := by decide +kernel
  have hsecond : (history chained).get ⟨1⟩ = .ok (plain "b" (some ⟨0⟩)) := by decide +kernel
  obtain ⟨k, k', _, hk, -, hthen, hnow, -⟩ := hpred ⟨1⟩ _ ⟨0⟩ hsecond rfl
  have htwo : born chained ⟨1⟩ = some 2 := by decide +kernel
  rw [htwo] at hk
  cases hk
  exact ⟨hdisciplined, hlive, hrefs ⟨1⟩ _ hsecond, ⟨k', hthen, hnow⟩, hreleases 15 ⟨2⟩ rfl,
    (hremoves _ ⟨0⟩ _ (by decide +kernel) hfirst).mpr
      ⟨⟨⟨3⟩, rfl⟩, by decide +kernel, by decide +kernel⟩⟩

end Arena

end Interproc
