/-
  Interproc.Proofs.Potential
  ──────────────────────────
  What is used up by a computation.  Where there are only finitely many actions and
  states, what is stored in a layer can grow only so often, and every growth puts
  only so many items on the worklist.  An item that enters a scope comes with a new
  layer, but the scopes of that layer have a lower rank, so the item can be made to
  pay for all that may ever happen there.

  Items that hand exits to calls, and items that step over calls, cost nothing: they
  are put on the worklist only while something else is used up.  So every pass lowers
  the potential, or it takes an item from the worklist and puts none there.

  Main result: `Engine.Pass.potential_lt`.
-/
import Mathlib
import Interproc.Proofs.Deliveries
import Interproc.Proofs.Reentry

namespace Interproc

variable {L A S : Type}

/-! ## §1. Sums. -/

theorem sum_add_le_sum {ι : Type} [DecidableEq ι] {s : Finset ι} {f g : ι → Nat} {i : ι} {d : Nat}
    (hi : i ∈ s) (hle : ∀ j ∈ s, f j ≤ g j) (hd : f i + d ≤ g i) :
    ∑ j ∈ s, f j + d ≤ ∑ j ∈ s, g j := by
  have hrest : ∑ j ∈ s.erase i, f j ≤ ∑ j ∈ s.erase i, g j :=
    Finset.sum_le_sum fun j hj => hle j (Finset.mem_of_mem_erase hj)
  rw [← Finset.add_sum_erase s f hi, ← Finset.add_sum_erase s g hi]
  omega

theorem sum_toFinset_le {ι : Type} [DecidableEq ι] (l : List ι) (f : ι → Nat) :
    ∑ i ∈ l.toFinset, f i ≤ (l.map f).sum := by
  induction l with
  | nil => exact le_rfl
  | cons i l ih =>
    rw [List.toFinset_cons, List.map_cons, List.sum_cons]
    by_cases hi : i ∈ l.toFinset
    · rw [Finset.insert_eq_of_mem hi]
      omega
    · rw [Finset.sum_insert hi]
      omega

/-! ## §2. Prices. -/

namespace Extent

variable (x : Extent A S) (capacity : Nat)

/-- What an item has to pay whose scopes have the given rank: enough for itself, and for all growth
in a layer of lower rank, with the items that follow from it. -/
def price : Nat → Nat
  | 0 => 1
  | r + 1 => 1 + capacity * (1 + x.branching * price r)

theorem price_pos (r : Nat) : 0 < x.price capacity r := by
  cases r with
  | zero => exact Nat.one_pos
  | succ r => exact Nat.add_pos_left Nat.one_pos _

theorem price_le_succ (r : Nat) : x.price capacity r ≤ x.price capacity (r + 1) := by
  induction r with
  | zero => exact Nat.le_add_right 1 _
  | succ r ih =>
    show 1 + capacity * (1 + x.branching * x.price capacity r) ≤
      1 + capacity * (1 + x.branching * x.price capacity (r + 1))
    gcongr

/-- The price for a rank covers all growth in a layer of lower rank. -/
theorem lt_price {r r' : Nat} (h : r' < r) :
    capacity * (1 + x.branching * x.price capacity r') < x.price capacity r := by
  have hmono : Monotone (x.price capacity) := monotone_nat_of_le_succ (x.price_le_succ capacity)
  have hle : x.price capacity (r' + 1) ≤ x.price capacity r := hmono h
  have hdef : x.price capacity (r' + 1) =
      1 + capacity * (1 + x.branching * x.price capacity r') := rfl
  omega

end Extent

/-! ## §3. The potential of a state. -/

namespace Engine

variable [DecidableEq L] [DecidableEq A] [AbstractState S] (e : Engine L A S) (x : Extent A S)

/-- The actions of an engine, and the states that it computes with, are among finitely many. -/
structure Spans : Prop where
  sustains : e.Sustains (· ∈ x.actions) fun d => ∀ t ∈ d.states, t ∈ x.states
  branching : ∀ a ∈ x.actions, ∀ scope, (e.transitions.following a scope).length ≤ x.branching

/-- The locations that actions lead to. -/
def locations : Finset L := x.actions.image e.transitions.target

/-- How often what is stored in a layer can grow, if it is empty. -/
def capacity : Nat := (e.locations x).card * x.top

/-- How often what is stored in a layer can still grow. -/
def room (layers : Layers L A S) (layer : LayerId) : Nat :=
  ∑ l ∈ e.locations x, (x.top - x.level (layers.stored? layer l))

/-- What an item with the given scopes has to pay. -/
def cost (scopes : List (Scope A S)) : Nat :=
  x.price (e.capacity x) (x.rank e.options.maxUnwindings scopes)

/-- What is paid whenever something grows in a layer with the given scopes. -/
def growth (scopes : List (Scope A S)) : Nat := 1 + x.branching * e.cost x scopes

/-- Items that hand exits to calls or step over calls cost nothing. -/
def weight (item : Item L A S) : Nat :=
  if item.returned || item.summary.isSome then 0 else e.cost x item.scopes

/-- What the item at a position has to pay. -/
def weightAt (s : RunState L A S) (j : ItemId) : Nat :=
  match s.items.get j with
  | .ok item => e.weight x item
  | .error _ => 0

/-- What all items on the worklist have to pay. -/
def load (s : RunState L A S) : Nat := ∑ j ∈ s.pending.toFinset, e.weightAt x s j

/-- What can still grow in all layers. -/
def reserve (F : Contexts L A S) (s : RunState L A S) : Nat :=
  ∑ k ∈ Finset.range s.layers.size, e.room x s.layers ⟨k⟩ * e.growth x (F ⟨k⟩).scopes

/-- All that a computation can still use up. -/
def potential (F : Contexts L A S) (s : RunState L A S) : Nat := e.reserve x F s + e.load x s

variable {e x} {s s' : RunState L A S} {id : ItemId} {item final : Item L A S}
variable {post widened : Disjunction S} {exits : Exits A S} {summaries : Summaries A S}
variable {handed new : List (Item L A S)} {added : List (ItemId × Item L A S)}
variable {F : Contexts L A S}

/-! ## §4. The worklist. -/

theorem weightAt_of_get {j : ItemId} (h : s.items.get j = .ok item) :
    e.weightAt x s j = e.weight x item := by
  unfold weightAt
  rw [h]

theorem weight_of_returned (h : item.returned = true) : e.weight x item = 0 := by
  unfold weight
  rw [h]
  rfl

theorem weight_of_summary (h : item.summary.isSome) : e.weight x item = 0 := by
  unfold weight
  rw [h, Bool.or_true]
  rfl

theorem weight_le (item : Item L A S) : e.weight x item ≤ e.cost x item.scopes := by
  unfold weight
  split
  · exact Nat.zero_le _
  · exact le_rfl

/-- An item that was processed does not have to pay any more, but new items have to. -/
theorem load_pass (hs : e.Orderly s) (hid : id ∈ s.pending) (hget : s.items.get id = .ok item)
    (hframe : Frame id final added s s') :
    e.load x s' + e.weight x item ≤
      e.load x s + ((added.map Prod.snd).map (e.weight x)).sum := by
  -- What is pending afterwards was pending before, as it was then, or it was added.
  have hsub : s'.pending.toFinset ⊆
      s.pending.toFinset.erase id ∪ (added.map Prod.fst).toFinset := by
    intro j hj
    rw [List.mem_toFinset, hframe.mem_pending] at hj
    rw [Finset.mem_union, Finset.mem_erase, List.mem_toFinset, List.mem_toFinset]
    obtain ⟨hj, hne⟩ | hj := hj
    · exact .inl ⟨hne, hj⟩
    · exact .inr hj
  have hkept : ∑ j ∈ s.pending.toFinset.erase id, e.weightAt x s' j =
      ∑ j ∈ s.pending.toFinset.erase id, e.weightAt x s j := by
    refine Finset.sum_congr rfl fun j hj => ?_
    rw [Finset.mem_erase, List.mem_toFinset] at hj
    obtain ⟨i, hi⟩ := hs.tidy.live_of_pending hj.2
    rw [weightAt_of_get hi, weightAt_of_get (hframe.kept j i hj.2 hj.1 hi)]
  have hnew : ∑ j ∈ (added.map Prod.fst).toFinset, e.weightAt x s' j ≤
      ((added.map Prod.snd).map (e.weight x)).sum := by
    refine (sum_toFinset_le _ _).trans (Nat.le_of_eq (congrArg List.sum ?_))
    rw [List.map_map, List.map_map]
    exact List.map_congr_left fun n hn => weightAt_of_get (hframe.created n hn)
  have hunion : ∑ j ∈ s.pending.toFinset.erase id ∪ (added.map Prod.fst).toFinset,
      e.weightAt x s' j + ∑ j ∈ s.pending.toFinset.erase id ∩ (added.map Prod.fst).toFinset,
      e.weightAt x s' j = ∑ j ∈ s.pending.toFinset.erase id, e.weightAt x s' j +
        ∑ j ∈ (added.map Prod.fst).toFinset, e.weightAt x s' j := Finset.sum_union_inter
  have hle : e.load x s' ≤ ∑ j ∈ s.pending.toFinset.erase id ∪ (added.map Prod.fst).toFinset,
      e.weightAt x s' j := Finset.sum_le_sum_of_subset hsub
  have hold : e.weightAt x s id + ∑ j ∈ s.pending.toFinset.erase id, e.weightAt x s j =
      e.load x s := Finset.add_sum_erase _ _ (List.mem_toFinset.mpr hid)
  rw [weightAt_of_get hget] at hold
  omega

omit [DecidableEq L] [DecidableEq A] [AbstractState S] in
/-- Where no item is put on the worklist, there is one less afterwards. -/
theorem pending_pass (hid : id ∈ s.pending) (hframe : Frame id final [] s s') :
    s'.pending.toFinset.card < s.pending.toFinset.card := by
  refine Finset.card_lt_card (Finset.ssubset_iff_of_subset (fun j hj => ?_) |>.mpr ⟨id, ?_, ?_⟩)
  · rw [List.mem_toFinset, hframe.mem_pending] at hj
    obtain ⟨hj, -⟩ | hj := hj
    · exact List.mem_toFinset.mpr hj
    · cases hj
  · exact List.mem_toFinset.mpr hid
  · rw [List.mem_toFinset, hframe.mem_pending]
    rintro (⟨-, hne⟩ | hj)
    · exact hne rfl
    · cases hj

theorem sum_weight_eq_zero {items : List (Item L A S)} (h : ∀ i ∈ items, e.weight x i = 0) :
    (items.map (e.weight x)).sum = 0 := by
  rw [List.sum_eq_zero_iff]
  intro n hn
  obtain ⟨i, hi, rfl⟩ := List.mem_map.mp hn
  exact h i hi

theorem weight_redone {stale : List ItemId} {redone : List (Item L A S)}
    (h : List.Forall₂ (fun j i => s.Redoes j i) stale redone) :
    (redone.map (e.weight x)).sum = 0 := by
  refine sum_weight_eq_zero fun i hi => ?_
  obtain ⟨_, -, _, _, _, -, -, -, hsummary, rfl⟩ := exists_of_forall₂ h hi
  exact weight_of_summary hsummary

theorem weight_returning (exits : List (ScopeExit A S)) (call : Item L A S) (layer : LayerId) :
    ((exits.map fun exit => Item.returning exit.state exit.action exit.predecessor call
      layer).map (e.weight x)).sum = 0 := by
  refine sum_weight_eq_zero fun i hi => ?_
  obtain ⟨exit, -, rfl⟩ := List.mem_map.mp hi
  exact weight_of_returned rfl

theorem ExitPart.weight_handed (h : e.ExitPart item s exits handed) :
    (handed.map (e.weight x)).sum = 0 := by
  refine sum_weight_eq_zero fun i hi => ?_
  obtain ⟨_, -, _, -, _, -, rfl⟩ := h.handed_eq hi
  exact weight_of_returned rfl

omit [DecidableEq L] in
/-- Only items that interpret their action take exits. -/
theorem ExitPart.handed_eq_nil (hc : e.Coherent) (hs : e.Orderly s)
    (hget : s.items.get id = .ok item) (h : e.ExitPart item s exits handed)
    (hitem : item.returned = true ∨ item.summary.isSome) : handed = [] := by
  cases h with
  | skipped _ _ hhanded => exact hhanded
  | known _ _ _ _ hhanded => exact hhanded
  | grown hleaves hreturned =>
    obtain hitem | hitem := hitem
    · rw [hreturned] at hitem
      cases hitem
    · obtain ⟨r, hr⟩ := Option.isSome_iff_exists.mp hitem
      have hstays : e.leaves item = false := hc.standIn_leaves (hs.standing id item r hget hr)
      rw [hleaves] at hstays
      cases hstays

/-- Only items that interpret their action enter scopes, and they have to pay for it. -/
theorem weight_of_enters (hc : e.Coherent) (hs : e.Orderly s) {K : LayerId → ActiveLoop L S → Prop}
    (hframed : e.Framed F K s) (hid : id ∈ s.pending) (hget : s.items.get id = .ok item)
    (henters : e.transitions.entersScope item.action = true) :
    e.weight x item = e.cost x item.scopes := by
  have hreturned := (hframed.within_of_enters hc.separate hid hget henters).1
  have hsummary : item.summary = none := by
    cases hsummary : item.summary with
    | none => rfl
    | some r =>
      have hstays := hc.standIn_enters (hs.standing id item r hget hsummary)
      rw [henters] at hstays
      cases hstays
  unfold weight
  rw [hreturned, hsummary]
  rfl

/-- The successors of an item have to pay no more than what growth in its layer brings in. -/
theorem weight_successors (hspans : e.Spans x) (ha : final.action ∈ x.actions) :
    (((e.goesOn final).map (e.successorOf summaries id final widened)).map (e.weight x)).sum ≤
      x.branching * e.cost x final.scopes := by
  have hlength : (e.goesOn final).length ≤ x.branching :=
    (List.length_filter_le _ _).trans (hspans.branching _ ha _)
  refine (List.sum_le_card_nsmul _ (e.cost x final.scopes) fun n hn => ?_).trans ?_
  · obtain ⟨i, hi, rfl⟩ := List.mem_map.mp hn
    obtain ⟨action, -, rfl⟩ := List.mem_map.mp hi
    obtain ⟨action', summary, hshape⟩ := e.successorOf_eq summaries id final widened action
    rw [hshape]
    exact weight_le _
  · rw [smul_eq_mul, List.length_map, List.length_map]
    exact Nat.mul_le_mul_right _ hlength

/-! ## §5. The layers. -/

/-- What is stored is above what was stored before, if the states after an item's action were not
covered. -/
theorem level_lt [LawfulState S] (hlaws : e.domain.Lawful) {stored : Disjunction S}
    {layers : Layers L A S} {previous : Option (Disjunction S)} (hpost : post.isBottom = false)
    (hproper : layers.AllProper) (hcovered : e.covers s.layers item post = .ok false)
    (hwiden : e.WidenedTo (e.advanced item) post widened s s')
    (henter : e.EnterPart (e.advanced item) widened s.layers final layers)
    (hprevious : layers.state? final.currentLayer (e.transitions.target item.action)
      = .ok previous)
    (hadd : layers.addState final.currentLayer (e.transitions.target item.action) widened
      = .ok (stored, s'.layers)) (hmem : ∀ t ∈ stored.states, t ∈ x.states) :
    x.level previous < x.level (some stored) := by
  have hchanged := stored_changes hcovered henter hprevious
    (hwiden.isSubset_stored hlaws hpost hadd)
  obtain ⟨rfl, -⟩ := Layers.state?_eq_ok hprevious
  have hdef := (Layers.addState_ok hadd).stored_def
  cases hold : layers.stored? final.currentLayer (e.transitions.target item.action) with
  | none => exact Nat.succ_pos _
  | some d =>
    rw [hold] at hchanged hdef
    have hsub : d.isSubset stored = true := by
      rw [hdef]
      exact Disjunction.isSubset_merge_left (hproper _ _ d hold) _ _
    rw [Option.all_some, Bool.not_eq_true'] at hchanged
    exact Nat.succ_lt_succ (x.height_lt hsub hchanged hmem)

omit [DecidableEq A] in
/-- Where the level of one location rises, there is less room. -/
theorem room_lt {layers layers' : Layers L A S} {layer : LayerId} {location : L}
    (hlocation : location ∈ e.locations x)
    (hother : ∀ l, l ≠ location → layers'.stored? layer l = layers.stored? layer l)
    (hlevel : x.level (layers.stored? layer location) < x.level (layers'.stored? layer location)) :
    e.room x layers' layer + 1 ≤ e.room x layers layer := by
  have htop := x.level_le_top (layers'.stored? layer location)
  refine sum_add_le_sum hlocation (fun l _ => ?_) (by omega)
  by_cases hl : l = location
  · subst hl
    omega
  · rw [hother l hl]

/-- Where nothing is stored, the reserve is as before. -/
theorem reserve_same {context : Context L A S} (hsize : s'.layers.size = s.layers.size)
    (hstored : ∀ j l, s'.layers.stored? j l = s.layers.stored? j l) :
    e.reserve x (F.extend s.layers.size context) s' = e.reserve x F s := by
  unfold reserve
  rw [hsize]
  refine Finset.sum_congr rfl fun k hk => ?_
  rw [Contexts.extend_of_lt (Finset.mem_range.mp hk)]
  unfold room
  simp only [hstored]

/-- What grows in a layer comes out of its reserve. -/
theorem reserve_stored {context : Context L A S} {layer : LayerId} {location : L}
    (hlayer : layer.index < s.layers.size) (hsize : s'.layers.size = s.layers.size)
    (hlocation : location ∈ e.locations x)
    (hstored : ∀ j l, ¬(j = layer ∧ l = location) →
      s'.layers.stored? j l = s.layers.stored? j l)
    (hlevel : x.level (s.layers.stored? layer location) <
      x.level (s'.layers.stored? layer location)) :
    e.reserve x (F.extend s.layers.size context) s' + e.growth x (F layer).scopes ≤
      e.reserve x F s := by
  unfold reserve
  rw [hsize]
  refine sum_add_le_sum (Finset.mem_range.mpr hlayer) (fun k hk => ?_) ?_
  · rw [Contexts.extend_of_lt (Finset.mem_range.mp hk)]
    refine Nat.mul_le_mul_right _ ?_
    -- There is less room in the layer itself, and as much as before in all others.
    by_cases hk : (⟨k⟩ : LayerId) = layer
    · subst hk
      exact Nat.le_of_succ_le
        (room_lt hlocation (fun l hl => hstored _ l fun h => hl h.2) hlevel)
    · unfold room
      simp only [hstored _ _ fun h => hk h.1]
      exact le_rfl
  · rw [Contexts.extend_of_lt hlayer, ← Nat.succ_mul]
    exact Nat.mul_le_mul_right _
      (room_lt hlocation (fun l hl => hstored _ l fun h => hl h.2) hlevel)

/-- What grows in a new layer comes out of what the layer can hold. -/
theorem reserve_entered {context : Context L A S} {location : L}
    (hsize : s'.layers.size = s.layers.size + 1) (hlocation : location ∈ e.locations x)
    (hstored : ∀ j l, j ≠ ⟨s.layers.size⟩ → s'.layers.stored? j l = s.layers.stored? j l)
    (hlevel : 0 < x.level (s'.layers.stored? ⟨s.layers.size⟩ location)) :
    e.reserve x (F.extend s.layers.size context) s' + e.growth x context.scopes ≤
      e.reserve x F s + e.capacity x * e.growth x context.scopes := by
  -- Something is stored in the new layer already, so it is not empty any more.
  have hroom : e.room x s'.layers ⟨s.layers.size⟩ + 1 ≤ e.capacity x := by
    have htop := x.level_le_top (s'.layers.stored? ⟨s.layers.size⟩ location)
    have hcapacity : e.capacity x = ∑ l ∈ e.locations x, x.top := by
      rw [Finset.sum_const, smul_eq_mul]
      rfl
    rw [hcapacity]
    exact sum_add_le_sum hlocation (fun l _ => Nat.sub_le _ _) (by omega)
  have hold : ∑ k ∈ Finset.range s.layers.size,
      e.room x s'.layers ⟨k⟩ * e.growth x (F.extend s.layers.size context ⟨k⟩).scopes =
        e.reserve x F s := by
    refine Finset.sum_congr rfl fun k hk => ?_
    have hlt := Finset.mem_range.mp hk
    rw [Contexts.extend_of_lt hlt]
    have hne : (⟨k⟩ : LayerId) ≠ ⟨s.layers.size⟩ := fun h => hlt.ne (congrArg LayerId.index h)
    unfold room
    simp only [hstored _ _ hne]
  have hpaid := Nat.mul_le_mul_right (e.growth x context.scopes) hroom
  unfold reserve
  rw [hsize, Finset.sum_range_succ, Contexts.extend_self]
  rw [Nat.succ_mul] at hpaid
  unfold reserve at hold
  omega

/-! ## §6. Passes. -/

variable (e x) in
/-- Less can still be used up, or as much, and there are fewer items on the worklist. -/
def Shrinks (F : Contexts L A S) (s : RunState L A S) (F' : Contexts L A S)
    (s' : RunState L A S) : Prop :=
  e.potential x F' s' < e.potential x F s ∨
    e.potential x F' s' ≤ e.potential x F s ∧
      s'.pending.toFinset.card < s.pending.toFinset.card

/-- An item that is dropped pays for the exits that it handed to calls, or it handed none. -/
theorem shrinks_of_dropped (hc : e.Coherent) (hs : e.Orderly s) {F' : Contexts L A S}
    (hid : id ∈ s.pending) (hget : s.items.get id = .ok item)
    (hexit : e.ExitPart item s exits handed) (hadded : added.map Prod.snd = handed)
    (hframe : Frame id final added s s') (hreserve : e.reserve x F' s' = e.reserve x F s) :
    e.Shrinks x F s F' s' := by
  have hload := load_pass (x := x) hs hid hget hframe
  rw [hadded, hexit.weight_handed] at hload
  unfold Shrinks potential
  by_cases hplain : (item.returned || item.summary.isSome) = true
  · -- Items that cost nothing take no exits, so there is nothing new.
    have hnone := hexit.handed_eq_nil hc hs hget ((Bool.or_eq_true _ _).mp hplain)
    rw [hnone] at hadded
    obtain rfl := List.map_eq_nil_iff.mp hadded
    exact .inr ⟨by omega, pending_pass hid hframe⟩
  · have hpays : 0 < e.weight x item := by
      unfold weight
      rw [if_neg hplain]
      exact x.price_pos _ _
    exact .inl (by omega)

/-- A call that waits pays for the exits that are handed to it. -/
theorem shrinks_of_waiting (hc : e.Coherent) (hs : e.Orderly s) {F' : Contexts L A S}
    {K : LayerId → ActiveLoop L S → Prop} (hframed : e.Framed F K s) (hid : id ∈ s.pending)
    (hget : s.items.get id = .ok item) (hexit : e.ExitPart item s exits handed)
    (henters : e.transitions.entersScope item.action = true)
    (hadded : added.map Prod.snd = handed ++ new) (hnew : (new.map (e.weight x)).sum = 0)
    (hframe : Frame id final added s s') (hreserve : e.reserve x F' s' = e.reserve x F s) :
    e.Shrinks x F s F' s' := by
  have hload := load_pass (x := x) hs hid hget hframe
  rw [hadded, List.map_append, List.sum_append, hexit.weight_handed, hnew,
    weight_of_enters hc hs hframed hid hget henters] at hload
  have hpays : 0 < e.cost x item.scopes := x.price_pos _ _
  exact .inl (by unfold potential; omega)

section Stored

variable [LawfulState S] {stored : Disjunction S} {layers : Layers L A S}
variable {previous : Option (Disjunction S)}

/-- What is stored comes out of the reserve, which gets greater only by what a new layer holds. -/
theorem reserve_of_stored (hc : e.Coherent) (hlaws : e.domain.Lawful) (hbacked : e.Backed F s)
    (hid : id ∈ s.pending) (hget : s.items.get id = .ok item) (ha : item.action ∈ x.actions)
    (hpost : post.isBottom = false) (hcovered : e.covers s.layers item post = .ok false)
    (hwiden : e.WidenedTo (e.advanced item) post widened s s')
    (henter : e.EnterPart (e.advanced item) widened s.layers final layers)
    (hprevious : layers.state? final.currentLayer (e.transitions.target item.action)
      = .ok previous)
    (hadd : layers.addState final.currentLayer (e.transitions.target item.action) widened
      = .ok (stored, s'.layers)) (hmem : ∀ t ∈ stored.states, t ∈ x.states) :
    e.reserve x (F.extend s.layers.size ⟨final.scopes, final.loops⟩) s' +
        e.growth x final.scopes ≤
      e.reserve x F s + if e.transitions.entersScope item.action then
        e.capacity x * e.growth x final.scopes else 0 := by
  have hlocation : e.transitions.target item.action ∈ e.locations x :=
    Finset.mem_image_of_mem _ ha
  have hlevel := level_lt hlaws hpost (henter.grown hbacked.proper).2 hcovered hwiden henter
    hprevious hadd hmem
  have hmerged := Layers.addState_ok hadd
  have hother : ∀ j l, ¬(j = final.currentLayer ∧ l = e.transitions.target item.action) →
      s'.layers.stored? j l = s.layers.stored? j l := by
    intro j l hne
    rw [hmerged.stored_eq, if_neg hne, henter.stored_eq]
  obtain ⟨rfl, -⟩ := Layers.state?_eq_ok hprevious
  rw [← hmerged.stored_self, henter.stored_eq] at hlevel
  -- States are stored in a layer that was there, or they are the first ones of a new layer.
  cases henters : e.transitions.entersScope item.action with
  | false =>
    obtain ⟨rfl, rfl⟩ := henter.stays (by rw [advanced_action]; exact henters)
    obtain ⟨layer, hwithin⟩ := hbacked.framed.advanced hid hget (fun _ _ hl => hl)
      (hbacked.snaps hc hid hget (.refl _))
    rw [hwithin.currentLayer hbacked.framed.wellFormed] at hlevel hother
    rw [hwithin.scopes]
    exact reserve_stored hwithin.lt hmerged.size_eq hlocation hother hlevel
  | true =>
    have hstores : e.Stores item post final widened s s' :=
      ⟨hpost, hwiden, layers, stored, henter, hadd⟩
    obtain ⟨hfinal, hsize⟩ := hstores.entered henters
    have hlayer : final.currentLayer = ⟨s.layers.size⟩ := by
      rw [hfinal]
      rfl
    rw [hlayer] at hlevel hother
    exact reserve_entered hsize hlocation (fun j l hne => hother j l fun h => hne h.1)
      (Nat.zero_lt_of_lt hlevel)

end Stored

/-- What the items that follow have to pay is part of what growth brings in. -/
theorem weight_new (hspans : e.Spans x) (ha : final.action ∈ x.actions) {stale : List ItemId}
    {redone : List (Item L A S)} {changed : Bool}
    (hredone : List.Forall₂ (fun j i => s.Redoes j i) stale redone)
    (hnew : new = redone ++ if changed then
      (e.goesOn final).map (e.successorOf summaries id final widened) else []) :
    (new.map (e.weight x)).sum + 1 ≤ e.growth x final.scopes := by
  have hsuccessors : (((e.goesOn final).map (e.successorOf summaries id final widened)).map
      (e.weight x)).sum ≤ x.branching * e.cost x final.scopes := weight_successors hspans ha
  rw [hnew, List.map_append, List.sum_append, weight_redone hredone]
  unfold growth
  cases changed with
  | true =>
    rw [if_pos rfl]
    omega
  | false =>
    simp only [Bool.false_eq_true, if_false, List.map_nil, List.sum_nil]
    omega

/-- Every pass lowers the potential, or it takes an item from the worklist and puts none there. -/
theorem Pass.potential_lt [LawfulState S] (hc : e.Coherent) (hlaws : e.domain.Lawful)
    (hspans : e.Spans x) (hs : e.Orderly s) (hs' : e.Orderly s') (hbacked : e.Backed F s)
    (hsustained : e.Sustained (· ∈ x.actions) (fun d => ∀ t ∈ d.states, t ∈ x.states) s)
    (hpass : e.Pass id item post final s s') :
    e.Shrinks x F s (F.extend s.layers.size ⟨final.scopes, final.loops⟩) s' := by
  have hsustained' := hsustained.pass hspans.sustains hs hs' hpass
  have hitem := hsustained.items id item hpass.get
  cases hpass with
  | intro hpop hget hexit hpost hend hadded hframe =>
    have hid : id ∈ s.pending := Worklist.mem_of_pop hpop
    cases hend with
    | infeasible _ _ hnew hlayers =>
      rw [hnew, List.append_nil] at hadded
      exact shrinks_of_dropped hc hs hid hget hexit hadded hframe
        (reserve_same (by rw [hlayers]) fun _ _ => by rw [hlayers])
    | covered _ _ _ _ hnew hlayers =>
      rw [hnew, List.append_nil] at hadded
      exact shrinks_of_dropped hc hs hid hget hexit hadded hframe
        (reserve_same (by rw [hlayers]) fun _ _ => by rw [hlayers])
    | coveredCall _ _ henters _ _ hnew hlayers =>
      -- All that is new are the known exits, handed to the call that waits from now on.
      refine shrinks_of_waiting hc hs hbacked.framed hid hget hexit henters hadded ?_ hframe
        (reserve_same (by rw [hlayers]) fun _ _ => by rw [hlayers])
      rw [hnew]
      exact weight_returning _ _ _
    | loopFixpoint hbottom hcovered _ hstays hagainst hwiden hsame =>
      exact (hbacked.no_loopFixpoint hc hlaws hid hget hbottom hcovered hstays hagainst hwiden
        hsame).elim
    | entryFixpoint _ _ _ henters _ _ _ _ _ _ hredone hnew hlayers =>
      have hfixed := Layers.addScopeFixpoint_ok hlayers
      refine shrinks_of_waiting hc hs hbacked.framed hid hget hexit henters hadded ?_ hframe
        (reserve_same hfixed.size_eq hfixed.stored_eq)
      rw [hnew, List.map_append, List.sum_append, weight_redone hredone, weight_returning]
    | @stored widened stored layers _ _ _ hbottom hcovered _ hwiden henter hprevious hadd _ hredone
        hnew =>
      have hstores : e.Stores item post final widened s s' :=
        ⟨hbottom, hwiden, layers, stored, henter, hadd⟩
      have hreserve := reserve_of_stored hc hlaws hbacked hid hget hitem.action hbottom hcovered
        hwiden henter hprevious hadd
        (hsustained'.stored _ _ stored (Layers.addState_ok hadd).stored_self)
      have hfollowing := weight_new hspans (hstores.action_eq ▸ hitem.action) hredone hnew
      have hload := load_pass (x := x) hs hid hget hframe
      rw [hadded, List.map_append, List.sum_append, hexit.weight_handed, Nat.zero_add] at hload
      left
      unfold potential
      cases henters : e.transitions.entersScope item.action with
      | false =>
        -- The growth in the layer of the item pays for its successors.
        rw [henters] at hreserve
        simp only [Bool.false_eq_true, if_false] at hreserve
        omega
      | true =>
        -- The item pays for the new layer, whose scopes have a lower rank.
        have hmem := hspans.sustains.stores hitem
          (hsustained.of_postPart hspans.sustains hitem hpost) hstores
        have hpays : e.capacity x * e.growth x final.scopes < e.cost x item.scopes :=
          x.lt_price _ (hstores.rank_lt hc hlaws henters hitem.action hmem)
        rw [weight_of_enters hc hs hbacked.framed hid hget henters] at hload
        rw [henters, if_pos rfl] at hreserve
        omega

end Engine

end Interproc
