/-
  Interproc.Proofs.LoopCounts
  ───────────────────────────
  Loops are widened once they were unwound often enough.  An item knows how often
  the loops around it were entered on the way to it, and each departure from the
  header of a loop into the loop counts.  So along a chain of items that stays in a
  loop, the counter of the loop is at least the number of arrivals at its header.

  Two things break this: a departure from the header that is not seen as one, since
  it is a call, and the header of another loop that was entered before and is entered
  again, which forgets all loops entered since.  Without them, states that arrive at
  the header too often are widened before they are stored.

  Main result: `Engine.widened_of_lateArrival`.
-/
import Mathlib
import Interproc.Proofs.Activations
import Interproc.Proofs.Intervals

namespace Interproc

variable {L A S : Type}

namespace Engine

variable {e : Engine L A S} {s s' : RunState L A S} {id p : ItemId} {item final : Item L A S}
variable {post : Disjunction S} {layer : LayerId}
variable {exits : Exits A S} {summaries : Summaries A S} {handed new : List (Item L A S)}

/-! ## §1. Chains of settled items. -/

/-- Some item or some exit comes after the item at a position. -/
def Anchored (s : RunState L A S) (p : ItemId) : Prop :=
  (∃ j i, s.items.get j = .ok i ∧ i.predecessor = some p) ∨
    ∃ layer, ∃ x ∈ (s.exits.activation layer).exits, x.predecessor = some p

/-- What others come after is not pending. -/
theorem Anchored.not_pending (h : Anchored s p) (hs : e.Orderly s) : p ∉ s.pending := by
  obtain ⟨j, i, hi, hp⟩ | ⟨layer, x, hx, hp⟩ := h
  · exact (hs.tidy.predecessor hi hp).1
  · have hheld := Exits.held_pos_of_exit hx hp
    exact hs.tidy.not_pending (by omega)

variable [DecidableEq A] [AbstractState S]

theorem ExitPart.anchored (hexit : e.ExitPart item s exits handed)
    (hget : s.items.get id = .ok item) {x : ScopeExit A S}
    (hx : x ∈ (exits.activation layer).exits) (hp : x.predecessor = some p) : Anchored s p := by
  obtain ⟨y, hy, -, hsame⟩ | ⟨-, -, -, -, hsame⟩ := hexit.exits_mem.2 layer x hx
  · exact .inr ⟨layer, y, hy, hsame.trans hp⟩
  · exact .inl ⟨id, item, hget, hsame.symm.trans hp⟩

variable [DecidableEq L]

/-- After a pass, items and exits come after the same items as before, or after the item that was
processed, which has moved on then. -/
theorem Pass.anchored (h : e.Pass id item post final s s') (hs : e.Orderly s)
    (hp : Anchored s' p) :
    p = id ∧ e.Moves item s.layers.size final s'.layers.size ∨ p ≠ id ∧ Anchored s p := by
  cases h with
  | @intro worklist exits summaries handed new added hpop hget hexit hpost hend hadded hframe =>
    have hid : id ∈ s.pending := Worklist.mem_of_pop hpop
    have hold : Anchored s p → p = id ∧ e.Moves item s.layers.size final s'.layers.size ∨
        p ≠ id ∧ Anchored s p := fun hp =>
      .inr ⟨fun hpid => hp.not_pending hs (hpid ▸ hid), hp⟩
    obtain ⟨j, i, hi, hp⟩ | ⟨layer, x, hx, hp⟩ := hp
    · obtain hhand | hnew | ⟨rfl, rfl⟩ | hiold := hframe.live_cases hadded hi
      · obtain ⟨_, -, x, hx, callItem, -, rfl⟩ := hexit.handed_eq hhand
        exact hold (hexit.anchored hget hx hp)
      · obtain ⟨k, staleItem, r, q, hstale, hr, -, -, rfl⟩ | ⟨layer, x, _, hx, -, -, -, rfl⟩ |
          ⟨widened, hstores, action, -, rfl⟩ := hend.mem_new hnew
        · exact hold (.inl ⟨k, staleItem, hstale, hr.trans hp⟩)
        · exact hold (hexit.anchored hget hx hp)
        · rw [InFlight.successorOf_predecessor] at hp
          exact .inl ⟨(Option.some.inj hp).symm, hstores.moves⟩
      · obtain ⟨scopes, loops, hshape⟩ := hend.final_eq
        rw [hshape] at hp
        exact hold (.inl ⟨j, item, hget, hp⟩)
      · exact hold (.inl ⟨j, i, hiold, hp⟩)
    · rw [hend.calls_mem.1] at hx
      exact hold (hexit.anchored hget hx hp)

variable (e) in
/-- How an item that moved on came out of the item before it: by a step in the same context, or by
handing an exit of its activation to a call further down. -/
inductive Linked (a b : Item L A S) : Prop where
  | stepped {base : Item L A S} {n n' : Nat}
      (hsource : e.transitions.source b.action = e.transitions.target a.action)
      (haction : base.action = b.action)
      (hroot : base.rootLayer = a.rootLayer) (hscopes : base.scopes = a.scopes)
      (hloops : base.loops = a.loops) (hmoves : e.Moves base n b n')
  | returned (hleaves : e.transitions.leavesScope b.action a.currentScope = true)
      (hsuffix : a.scopes <:+ b.scopes)

variable {F : Contexts L A S} {K : LayerId → ActiveLoop L S → Prop} {n n' : Nat}

omit [DecidableEq A] [AbstractState S] in
theorem Moves.action_eq (h : e.Moves item n final n') : final.action = item.action := by
  cases h with
  | advanced => exact advanced_action item
  | entered => exact advanced_action item

omit [DecidableEq A] [AbstractState S] in
/-- An item that moves on is linked to the one before it. -/
theorem Framed.linked (hc : e.Coherent) (h : e.Framed F K s) (hid : id ∈ s.pending)
    (hget : s.items.get id = .ok item) {q : Item L A S} (hp : item.predecessor = some p)
    (hq : s.items.get p = .ok q)
    (hsource : item.returned = false → e.transitions.source item.action =
      e.transitions.target q.action)
    (hmoves : e.Moves item n final n') : e.Linked q final := by
  obtain ⟨layer', hwithin'⟩ := h.predecessors id item p q hget hp hq
  -- An item goes on in the context of its predecessor, unless it returns from an activation.
  obtain ⟨hreturned, layer, hwithin⟩ | ⟨-, layer, hreturning⟩ := h.item_cases hid hget
  · obtain ⟨hscopes, hloops⟩ := h.follows id hid item p q hget hreturned hp hq
    exact .stepped (by rw [hmoves.action_eq, hsource hreturned]) hmoves.action_eq.symm
      (hwithin.root.trans hwithin'.root.symm) hscopes hloops hmoves
  · have hq' := hreturning.within p q hp hq
    have hleaves := hreturning.leaves
    obtain ⟨scope, rest, id', hscopes, -, -, hhome, own, hown, hlayer, haction⟩ := hreturning.home
    have hrest : rest = (F id').scopes := hhome.scopes
    rw [hrest] at hown
    obtain ⟨-, -, hhead, hsuffix, -⟩ := h.wellFormed.scopes_of_mem hhome.lt hown
    rw [hlayer] at hhead hsuffix
    have hscope : q.currentScope = item.currentScope := by
      unfold Item.currentScope
      rw [hq'.scopes, hhead, hscopes]
      exact congrArg some haction
    refine .returned ?_ ?_
    · rw [hmoves.action_eq, hscope]
      exact hleaves
    · -- A return does not enter a scope, so the item is outside of the call again.
      have hstays : e.transitions.entersScope item.action = false := hc.enters_of_leaves hleaves
      have hfinal : final = e.advanced item := by
        cases hmoves with
        | advanced => rfl
        | entered henters =>
          rw [hstays] at henters
          cases henters
      obtain ⟨loops, hadvanced⟩ := e.advanced_eq item
      rw [hfinal, hadvanced, hleaves, hq'.scopes, hscopes]
      show _ <:+ rest
      rw [hrest]
      exact hsuffix

variable (e) in
/-- Items belong to activations, start where their predecessors lead, and are linked to them. -/
structure Chained (s : RunState L A S) : Prop where
  framed : ∃ F, e.Framed F (fun _ _ => True) s
  sources : ∀ j i p q, s.items.get j = .ok i → i.returned = false ∨ i.summary.isSome →
    i.predecessor = some p → s.items.get p = .ok q →
    e.transitions.source i.action = e.transitions.target q.action
  linked : ∀ p q r q', Anchored s p → s.items.get p = .ok q → q.predecessor = some r →
    s.items.get r = .ok q' → e.Linked q' q

theorem Chained.pass (hc : e.Coherent) (hs : e.Orderly s) (hs' : e.Orderly s')
    (h : e.Chained s) (hpass : e.Pass id item post final s s') : e.Chained s' := by
  obtain ⟨F, hF⟩ := h.framed
  have hpass' := hpass
  cases hpass with
  | @intro worklist exits summaries handed new added hpop hget hexit hpost hend hadded hframe =>
    have hid : id ∈ s.pending := Worklist.mem_of_pop hpop
    have hbefore : ∀ j i p q, s'.items.get j = .ok i → i.predecessor = some p → p ≠ id →
        s'.items.get p = .ok q → s.items.get p = .ok q := fun j i p q hi hp hne hq =>
      hframe.get_settled (hs'.tidy.predecessor hi hp).1 hne hq
    have hneOld : ∀ j i p, s.items.get j = .ok i → i.predecessor = some p → p ≠ id :=
      fun j i p hi hp hpid => (hs.tidy.predecessor hi hp).1 (hpid ▸ hid)
    obtain ⟨scopes, loops, hshape⟩ := hend.final_eq
    refine ⟨⟨_, hF.pass hc.separate hs hs' hpass' (fun _ _ hl => hl) fun _ _ _ _ => trivial⟩,
      ?_, ?_⟩
    · intro j i p q hi hkind hp hq
      obtain hhand | hnew | ⟨rfl, rfl⟩ | hiold := hframe.live_cases hadded hi
      -- What is handed over has returned, and steps over no call.
      · obtain ⟨_, -, _, -, _, -, rfl⟩ := hexit.handed_eq hhand
        obtain hkind | hkind := hkind <;> cases hkind
      · obtain ⟨k, hredoes⟩ | ⟨_, _, _, -, -, -, -, rfl⟩ |
          ⟨widened, hstores, action, hmem, hsucc⟩ := hend.mem_new hnew
        · obtain ⟨-, -, p', -, hp', hne, -⟩ := hF.redone_within hs hid hredoes
          rw [hp] at hp'
          cases hp'
          have hq' := hbefore j i p q hi hp hne hq
          obtain ⟨staleItem, p', q', hstale, hp', -, hsummary, rfl⟩ := hredoes
          cases hp
          exact h.sources k staleItem p q hstale (.inr hsummary) hp' hq'
        · obtain hkind | hkind := hkind <;> cases hkind
        -- A successor follows the item that was processed, which is settled now.
        · have hnot := (hs'.tidy.predecessor hi hp).1
          rw [hsucc, InFlight.successorOf_predecessor] at hp
          cases hp
          rw [hframe.get_final hnot hq, hsucc]
          exact source_successorOf hc hmem
      · have hq' := fun hne => hbefore j i p q hi hp hne hq
        rw [hshape] at hkind hp ⊢
        exact h.sources j item p q hget hkind hp (hq' (hneOld j item p hget hp))
      · exact h.sources j i p q hiold hkind hp
          (hbefore j i p q hi hp (hneOld j i p hiold hp) hq)
    · intro p q r q' hp hq hr hq'
      have hnot := hp.not_pending hs'
      have hqr := fun hne => hbefore p q r q' hq hr hne hq'
      -- The item whose predecessor is looked at was just processed, or it is an old one.
      obtain ⟨rfl, hmoves⟩ | ⟨hne, hp⟩ := hpass'.anchored hs hp
      · rw [hframe.get_final hnot hq] at hr ⊢
        rw [hshape] at hr
        have hqr := hqr (hneOld p item r hget hr)
        exact hF.linked hc hid hget hr hqr
          (fun hreturned => h.sources p item r q' hget (.inl hreturned) hr hqr) hmoves
      · have hqold := hframe.get_settled hnot hne hq
        exact h.linked p q r q' hp hqold hr (hqr (hneOld p q r hqold hr))

theorem Chained.seed (h : e.Chained s) {location : L} {action : A}
    (hseed : e.SeedPart location action s s') : e.Chained s' := by
  obtain ⟨F, hF⟩ := h.framed
  refine ⟨⟨F, hF.seed hseed fun _ _ hl => hl⟩, ?_, ?_⟩
  all_goals obtain ⟨state, stored, layers, id, -, -, hgrows⟩ := hseed
  all_goals
    have hold : ∀ j i p, s'.items.get j = .ok i → i.predecessor = some p →
        s.items.get j = .ok i := by
      intro j i p hi hp
      obtain ⟨rfl, rfl⟩ | ⟨hold, -⟩ := hgrows.old_singleton hi
      · cases hp
      · exact hold
  · intro j i p q hi hkind hp hq
    exact h.sources j i p q (hold j i p hi hp) hkind hp (hgrows.get_predecessor hi hp hq)
  · intro p q r q' hp hq hr hq'
    have hp' : Anchored s p := by
      obtain ⟨j, i, hi, hp⟩ | ⟨layer, x, hx, hp⟩ := hp
      · exact .inl ⟨j, i, hold j i p hi hp, hp⟩
      · rw [hgrows.unmoved.exits] at hx
        exact .inr ⟨layer, x, hx, hp⟩
    exact h.linked p q r q' hp' (hold p q r hq hr) hr (hgrows.get_predecessor hq hr hq')

theorem Reachable.chained {starts : List L} (hc : e.Coherent) (h : e.Reachable starts s) :
    e.Orderly s ∧ e.Chained s := by
  refine h.induct ⟨⟨_, .start⟩, ?_, ?_⟩ (fun _ _ _ _ _ _ _ hseed ht => ht.seed hseed)
    fun _ _ _ _ _ _ hs hs' hpass ht => ht.pass hc hs hs' hpass
  · intro j i p q hi
    cases hi
  · intro p q r q' _ hq
    cases hq

end Engine

/-! ## §2. Counting. -/

/-- Among the loops of a scope is the loop at `head`, entered at least `n` times, right inside loops
with the heads `outer`. -/
def Counted (head : L) (outer : List L) (n : Nat) (loops : List (ActiveLoop L S)) : Prop :=
  ∃ before l after, loops = before ++ l :: after ∧ before.map ActiveLoop.head = outer ∧
    l.head = head ∧ n ≤ l.counter ∧ ∀ x ∈ after, x.head ≠ head

namespace Counted

variable [DecidableEq L] {head other : L} {outer : List L} {n : Nat} {loops : List (ActiveLoop L S)}
variable {item : Item L A S}

theorem ne_of_mem_outer {before : List (ActiveLoop L S)}
    (hhead : other ∉ before.map ActiveLoop.head) :
    ∀ x ∈ before, decide (x.head ≠ other) = true := by
  intro x hx
  exact decide_eq_true fun hother => hhead (hother ▸ List.mem_map_of_mem (f := ActiveLoop.head) hx)

/-- The loop at the head is found from either side. -/
theorem loopAt (h : Counted head outer n item.scopeLoops) :
    ∃ counter snapshot, item.loopAt head = some (counter, snapshot) ∧ n ≤ counter := by
  obtain ⟨before, l, after, hloops, -, hl, hn, hafter⟩ := h
  refine ⟨l.counter, l.snapshot, ?_, hn⟩
  have hnone : (after.reverse.find? fun x => decide (x.head = head)) = none := by
    rw [List.find?_eq_none]
    intro x hx
    simpa using hafter x (List.mem_reverse.mp hx)
  unfold Item.loopAt
  rw [hloops]
  simp [hnone, hl]

/-- Entering the loop at the head again counts. -/
theorem enter_head {snapshot : Disjunction S} (hhead : head ∉ outer)
    (h : Counted head outer n loops) :
    Counted head outer (n + 1) ((loops.takeWhile fun l => l.head ≠ head) ++
      [⟨head, (loops.find? fun l => l.head = head).elim 0 ActiveLoop.counter + 1, snapshot⟩]) := by
  obtain ⟨before, l, after, rfl, rfl, rfl, hn, hafter⟩ := h
  have hbefore := ne_of_mem_outer hhead
  have hnone : (before.find? fun x => decide (x.head = l.head)) = none := by
    rw [List.find?_eq_none]
    intro x hx
    simpa using hbefore x hx
  refine ⟨before, ⟨l.head, l.counter + 1, snapshot⟩, [], ?_, rfl, rfl, Nat.succ_le_succ hn,
    fun x hx => by cases hx⟩
  rw [List.takeWhile_append_of_pos hbefore, List.find?_append, hnone]
  simp

/-- Entering a loop that is not around the loop at the head keeps its counter. -/
theorem enter_other {counter : Nat} {snapshot : Disjunction S} (hother : other ≠ head)
    (houter : other ∉ outer) (h : Counted head outer n loops) :
    Counted head outer n ((loops.takeWhile fun l => l.head ≠ other) ++
      [⟨other, counter, snapshot⟩]) := by
  obtain ⟨before, l, after, rfl, rfl, rfl, hn, hafter⟩ := h
  refine ⟨before, l, (after.takeWhile fun l => l.head ≠ other) ++ [⟨other, counter, snapshot⟩],
    ?_, rfl, rfl, hn, fun x hx => ?_⟩
  · rw [List.takeWhile_append_of_pos (ne_of_mem_outer houter)]
    simp [Ne.symm hother]
  · obtain hx | hx := List.mem_append.mp hx
    · exact hafter x ((List.takeWhile_sublist _).mem hx)
    · rw [List.mem_singleton.mp hx]
      exact hother

omit [DecidableEq L] in
/-- Leaving the innermost loop, if it is another one, keeps the counter. -/
theorem leave (hlast : loops.getLast?.map ActiveLoop.head ≠ some head)
    (h : Counted head outer n loops) : Counted head outer n loops.dropLast := by
  obtain ⟨before, l, after, rfl, rfl, rfl, hn, hafter⟩ := h
  refine ⟨before, l, after.dropLast, ?_, rfl, rfl, hn,
    fun x hx => hafter x (List.mem_of_mem_dropLast hx)⟩
  have hne : after ≠ [] := by
    rintro rfl
    simp at hlast
  rw [List.dropLast_append_of_ne_nil (List.cons_ne_nil l after), List.dropLast_cons_of_ne_nil hne]

end Counted

namespace Item

variable {item : Item L A S}

theorem scopeLoops_withLoops {loops : List (ActiveLoop L S)}
    (h : item.loopDepth ≤ item.loops.length) :
    ({ item with loops := item.loops.take item.loopDepth ++ loops } : Item L A S).scopeLoops =
      loops := by
  show (item.loops.take item.loopDepth ++ loops).drop item.loopDepth = loops
  exact List.drop_left' (by simpa using h)

end Item

variable [DecidableEq L]

namespace Engine

variable {e : Engine L A S} {item : Item L A S} {head : L} {outer : List L} {n : Nat}

/-- Departing from the head of a loop into the loop counts. -/
theorem counted_track_head (hdepth : item.loopDepth ≤ item.loops.length) (hhead : head ∉ outer)
    (hsource : e.transitions.source item.action = head) (henters : e.entersLoop item.action = true)
    (hfirst : (item.scopeLoops.takeWhile fun l => l.head ≠ head).map ActiveLoop.head = outer)
    (hcounted : n = 0 ∨ Counted head outer n item.scopeLoops) :
    Counted head outer (n + 1) (e.track item).scopeLoops := by
  unfold track
  rw [if_pos henters, hsource, Item.enterLoop_eq, Item.scopeLoops_withLoops hdepth]
  obtain rfl | hcounted := hcounted
  · exact ⟨_, _, [], rfl, hfirst, rfl, Nat.le_add_left 1 _, fun x hx => by cases hx⟩
  · exact hcounted.enter_head hhead

/-- Steps that start elsewhere keep the counter, unless they enter a loop around again. -/
theorem counted_track_other (hdepth : item.loopDepth ≤ item.loops.length)
    (hsource : e.transitions.source item.action ≠ head)
    (houter : e.entersLoop item.action = true → e.transitions.source item.action ∉ outer)
    (h : Counted head outer n item.scopeLoops) :
    Counted head outer n (e.track item).scopeLoops := by
  unfold track
  split
  · rename_i henters
    rw [Item.enterLoop_eq, Item.scopeLoops_withLoops hdepth]
    exact h.enter_other hsource (houter henters)
  · split
    · rename_i hcurrent
      rw [Item.leaveLoop_eq, Item.scopeLoops_withLoops hdepth]
      refine h.leave ?_
      unfold Item.currentLoopHead at hcurrent
      rw [hcurrent]
      exact fun hsame => hsource (Option.some.inj hsame)
    · exact h

/-! ## §3. Going round a loop. -/

variable (e) in
/-- A step of a chain from `a` to `b` that does not leave the activation at a layer.  If it starts
at `head` there, it enters the loop; and it enters none of the loops in `outer`. -/
structure Turns (layer : LayerId) (head : L) (outer : List L) (a b : Item L A S) : Prop where
  stays : a.currentLayer = layer → e.transitions.leavesScope b.action a.currentScope = false
  plain : a.currentLayer = layer ∨ b.currentLayer = layer → e.transitions.source b.action = head →
    e.transitions.entersScope b.action = false ∧
      (b.currentLayer = layer → e.entersLoop b.action = true)
  keeps : a.currentLayer = layer → e.entersLoop b.action = true →
    e.transitions.source b.action ∉ outer

variable (e) in
/-- An item that has departed from `head` into its loop `n` times in the activation at a layer, and
is still there or in an activation above it. -/
inductive Rounds (F : Contexts L A S) (layer : LayerId) (head : L) (outer : List L) (n : Nat)
    (c : Item L A S) : Prop where
  | arrived (hn : n = 0) (hlayer : c.currentLayer = layer)
      (htarget : e.transitions.target c.action = head)
      (hfirst : (c.scopeLoops.takeWhile fun l => l.head ≠ head).map ActiveLoop.head = outer)
  | here (hlayer : c.currentLayer = layer) (hcounted : Counted head outer n c.scopeLoops)
  | above {inner : LayerId} {scope : Scope A S}
      (hbelow : F.Below (fun _ _ => True) layer inner scope)
      (hscopes : (F inner).scopes <:+ c.scopes)
      (hcounted : Counted head outer n ((F inner).loops.drop (F layer).loops.length))

/-- Whether an item arrives at `head` in the activation at a layer. -/
def arrives (e : Engine L A S) (layer : LayerId) (head : L) (c : Item L A S) : Bool :=
  c.currentLayer = layer && e.transitions.target c.action = head

section Step

variable [DecidableEq A] [AbstractState S]
variable {F : Contexts L A S} {N : Nat} {layer : LayerId} {a b : Item L A S}

/-- A step that starts at the head of the loop enters it once more. -/
theorem rounds_of_head {n₁ n₂ : Nat} (hF : F.WellFormed (fun _ _ => True) N)
    (ha : F.Within (fun _ _ => True) N layer a)
    (hsource : e.transitions.source a.action = head) (hmoves : e.Moves a n₁ b n₂)
    (hadvanced : e.advanced a = e.track a) (hplain : e.transitions.entersScope b.action = false ∧
      (b.currentLayer = layer → e.entersLoop b.action = true)) (hhead : head ∉ outer)
    (hfirst : (a.scopeLoops.takeWhile fun l => l.head ≠ head).map ActiveLoop.head = outer ∧ n = 0 ∨
      Counted head outer n a.scopeLoops) :
    e.Rounds F layer head outer (n + 1) b := by
  obtain ⟨hstays, henters⟩ := hplain
  have htrack : F.Within (fun _ _ => True) N layer (e.track a) := ha.track hF fun _ _ => trivial
  have haction := hmoves.action_eq
  cases hmoves with
  | entered hcall =>
    rw [haction, hcall] at hstays
    cases hstays
  | advanced =>
    rw [hadvanced] at henters haction ⊢
    have hcurrent := htrack.currentLayer hF
    have hdepth : a.loopDepth ≤ a.loops.length := by
      rw [ha.loopDepth hF]
      exact ha.outer.length_le
    refine .here hcurrent (counted_track_head hdepth hhead hsource ?_ ?_ ?_)
    · rw [← haction]
      exact henters hcurrent
    · obtain ⟨hfirst, -⟩ | ⟨before, l, after, hsplit, hbefore, hl, -⟩ := hfirst
      · exact hfirst
      · rw [hsplit, List.takeWhile_append_of_pos
          (Counted.ne_of_mem_outer (by rw [hbefore]; exact hhead))]
        simp [hbefore, hl]
    · exact hfirst.imp And.right fun h => h

/-- A step that starts elsewhere keeps the counter, also if it is a call. -/
theorem rounds_of_elsewhere {n₁ n₂ : Nat} (hF : F.WellFormed (fun _ _ => True) N)
    (ha : F.Within (fun _ _ => True) N layer a) {inner : LayerId}
    (hb : F.Within (fun _ _ => True) N inner b) (hsource : e.transitions.source a.action ≠ head)
    (hmoves : e.Moves a n₁ b n₂) (hadvanced : e.advanced a = e.track a)
    (hkeeps : e.entersLoop a.action = true → e.transitions.source a.action ∉ outer)
    (hcounted : Counted head outer n a.scopeLoops) : e.Rounds F layer head outer n b := by
  have htrack : F.Within (fun _ _ => True) N layer (e.track a) := ha.track hF fun _ _ => trivial
  have hdepth : a.loopDepth ≤ a.loops.length := by
    rw [ha.loopDepth hF]
    exact ha.outer.length_le
  have hcounted := counted_track_other hdepth hsource hkeeps hcounted
  cases hmoves with
  | advanced =>
    rw [hadvanced]
    exact .here (htrack.currentLayer hF) hcounted
  | entered =>
    rw [hadvanced] at hb ⊢
    obtain ⟨hbelow, hinner⟩ := htrack.child hF hb
    refine .above hbelow ?_ ?_
    · rw [hb.scopes]
    · rw [hinner, ← htrack.scopeLoops hF]
      exact hcounted

/-- An item of the activation itself goes round, or into an activation above. -/
theorem rounds_of_here (hF : F.WellFormed (fun _ _ => True) N)
    (ha : F.Within (fun _ _ => True) N layer a) {inner : LayerId}
    (hb : F.Within (fun _ _ => True) N inner b) (hlinked : e.Linked a b)
    (hturns : e.Turns layer head outer a b) (hhead : head ∉ outer)
    (hfirst : e.transitions.target a.action = head →
      (a.scopeLoops.takeWhile fun l => l.head ≠ head).map ActiveLoop.head = outer ∧ n = 0 ∨
        Counted head outer n a.scopeLoops)
    (hother : e.transitions.target a.action ≠ head → Counted head outer n a.scopeLoops) :
    e.Rounds F layer head outer (n + if e.transitions.target a.action = head then 1 else 0) b := by
  have hlayer := ha.currentLayer hF
  cases hlinked with
  | returned hleaves =>
    rw [hturns.stays hlayer] at hleaves
    cases hleaves
  | @stepped base n₁ n₂ hsource haction hroot hscopes hloops hmoves =>
    -- The step is taken by an item with the context of `a` and the action of `b`.
    have hbase : F.Within (fun _ _ => True) N layer base := ha.congr hroot hscopes hloops
    have hsame : base.scopeLoops = a.scopeLoops := by
      rw [hbase.scopeLoops hF, ha.scopeLoops hF, hloops]
    have hleaves : e.leaves base = false := by
      have hscope : base.currentScope = a.currentScope := by
        unfold Item.currentScope
        rw [hscopes]
      rw [Engine.leaves, haction, hscope]
      exact hturns.stays hlayer
    have hadvanced : e.advanced base = e.track base := by
      unfold Engine.advanced Engine.outside
      rw [hleaves]
    rw [← hsame] at hfirst hother
    by_cases htarget : e.transitions.target a.action = head
    · rw [if_pos htarget]
      exact rounds_of_head hF hbase (by rw [haction, hsource, htarget]) hmoves hadvanced
        (hturns.plain (.inl hlayer) (hsource.trans htarget)) hhead (hfirst htarget)
    · rw [if_neg htarget, Nat.add_zero]
      exact rounds_of_elsewhere hF hbase hb (by rw [haction, hsource]; exact htarget) hmoves
        hadvanced (by rw [haction]; exact hturns.keeps hlayer) (hother htarget)

/-- An item of an activation above stays above, or returns with the loops that were active when it
was left. -/
theorem rounds_of_above (hc : e.Coherent) (hF : F.WellFormed (fun _ _ => True) N)
    (ha : ∃ here, F.Within (fun _ _ => True) N here a)
    (hb : ∃ here, F.Within (fun _ _ => True) N here b) (hlinked : e.Linked a b)
    (hturns : e.Turns layer head outer a b) {inner : LayerId} {scope : Scope A S}
    (hbelow : F.Below (fun _ _ => True) layer inner scope) (hscopes : (F inner).scopes <:+ a.scopes)
    (hcounted : Counted head outer n ((F inner).loops.drop (F layer).loops.length)) :
    e.Rounds F layer head outer n b := by
  obtain ⟨here, ha⟩ := ha
  obtain ⟨there, hb⟩ := hb
  cases hlinked with
  | returned _ hsuffix => exact .above hbelow (hscopes.trans hsuffix) hcounted
  | @stepped base n₁ n₂ hsource haction hroot hsame hloops hmoves =>
    have hbase : F.Within (fun _ _ => True) N here base := ha.congr hroot hsame hloops
    rw [← hsame] at hscopes
    -- An item that stays in its scope stays above; one that leaves it may come down to the layer.
    obtain ⟨-, hout⟩ | ⟨hleaves, caller, own, hown, hout, hrestored⟩ := outside_within hF hbase
    · obtain ⟨loops, hadvanced⟩ : ∃ loops, e.advanced base = { base with loops := loops } := by
        unfold Engine.advanced
        rw [hout]
        exact e.track_eq base
      refine .above hbelow (hscopes.trans ?_) hcounted
      cases hmoves with
      | advanced => rw [hadvanced]
      | entered =>
        rw [hadvanced]
        exact List.suffix_cons _ _
    · have hstays : e.transitions.entersScope base.action = false := hc.enters_of_leaves hleaves
      have hnoLoop : e.entersLoop base.action = false := hc.loop_of_leaves hleaves
      cases hmoves with
      | entered henters =>
        rw [hstays] at henters
        cases henters
      | advanced =>
        have htrack : F.Within (fun _ _ => True) N caller (e.advanced base) :=
          hout.track hF fun _ _ => trivial
        rw [hbase.scopes, hown.scopes] at hscopes
        -- If the scope it leaves is the one that was entered from the layer, the item is back with
        -- the loops that were active then, and a return neither enters nor leaves the loop.
        obtain hwhole | hscopes := List.suffix_cons_iff.mp hscopes
        · rw [hbelow.scopes] at hwhole
          obtain ⟨rfl, houter⟩ := List.cons.inj hwhole
          have hhere : here = inner := hown.layer.symm.trans hbelow.layer
          have hcaller : caller = layer := by
            rw [← hF.layer_of_head (hown.lt.trans hbase.lt), ← houter]
            exact hF.layer_of_head (hbelow.lt.trans (hhere ▸ hbase.lt))
          subst hhere hcaller
          have hcurrent := htrack.currentLayer hF
          obtain ⟨loops, hshape⟩ := e.outside_eq base
          have hsameAction : (e.outside base).action = base.action := by rw [hshape]
          refine .here hcurrent (counted_track_other ?_ ?_ ?_ ?_)
          · rw [hout.loopDepth hF]
            exact hout.outer.length_le
          · intro hhead
            rw [hsameAction, haction] at hhead
            have henters := (hturns.plain (.inr hcurrent) hhead).2 hcurrent
            rw [← haction, hnoLoop] at henters
            cases henters
          · intro henters
            rw [hsameAction, hnoLoop] at henters
            cases henters
          · rw [hout.scopeLoops hF, hrestored]
            exact hcounted
        · refine .above hbelow ?_ hcounted
          rw [htrack.scopes]
          exact hscopes

omit [DecidableEq L] [DecidableEq A] [AbstractState S] in
/-- An item of the activation itself is not above it. -/
theorem not_above {inner : LayerId} {scope : Scope A S}
    (ha : F.Within (fun _ _ => True) N layer a)
    (hbelow : F.Below (fun _ _ => True) layer inner scope)
    (hscopes : (F inner).scopes <:+ a.scopes) : False := by
  have hlength := hscopes.length_le
  rw [ha.scopes, hbelow.scopes, List.length_cons] at hlength
  omega

/-- One step of a chain: departures from the head count. -/
theorem Rounds.step (hc : e.Coherent) (hF : F.WellFormed (fun _ _ => True) N)
    (ha : ∃ here, F.Within (fun _ _ => True) N here a)
    (hb : ∃ here, F.Within (fun _ _ => True) N here b) (hlinked : e.Linked a b)
    (hturns : e.Turns layer head outer a b) (hhead : head ∉ outer)
    (h : e.Rounds F layer head outer n a) :
    e.Rounds F layer head outer (n + if e.arrives layer head a then 1 else 0) b := by
  have harrives : a.currentLayer = layer → (e.arrives layer head a = true ↔
      e.transitions.target a.action = head) := by
    intro hlayer
    simp [arrives, hlayer]
  have hwithin : a.currentLayer = layer → F.Within (fun _ _ => True) N layer a := by
    rintro rfl
    obtain ⟨here, ha⟩ := ha
    rw [ha.currentLayer hF]
    exact ha
  obtain ⟨there, hb'⟩ := hb
  cases h with
  | arrived hn hlayer htarget hfirst =>
    simp only [harrives hlayer]
    exact rounds_of_here hF (hwithin hlayer) hb' hlinked hturns hhead
      (fun _ => .inl ⟨hfirst, hn⟩) fun hne => absurd htarget hne
  | here hlayer hcounted =>
    simp only [harrives hlayer]
    exact rounds_of_here hF (hwithin hlayer) hb' hlinked hturns hhead
      (fun _ => .inr hcounted) fun _ => hcounted
  | above hbelow hscopes hcounted =>
    have hnot : e.arrives layer head a = false := by
      rw [arrives, Bool.and_eq_false_iff, decide_eq_false_iff_not]
      exact .inl fun hlayer => not_above (hwithin hlayer) hbelow hscopes
    rw [hnot]
    exact rounds_of_above hc hF ha ⟨there, hb'⟩ hlinked hturns hbelow hscopes hcounted

/-- A whole chain: the counter of the loop is at least the number of arrivals. -/
theorem Rounds.run (hc : e.Coherent) (hF : F.WellFormed (fun _ _ => True) N)
    {last : Item L A S} (hhead : head ∉ outer) (segment : List (Item L A S))
    (hwithin : ∀ c ∈ segment ++ [last], ∃ here, F.Within (fun _ _ => True) N here c)
    (hlinked : (segment ++ [last]).IsChain e.Linked)
    (hturns : (segment ++ [last]).IsChain (e.Turns layer head outer))
    (h : ∀ c ∈ (segment ++ [last]).head?, e.Rounds F layer head outer n c) :
    e.Rounds F layer head outer (n + segment.countP (e.arrives layer head)) last := by
  induction segment generalizing n with
  | nil => exact h last rfl
  | cons c rest ih =>
    have hc' := h c rfl
    rw [List.countP_cons, ← Nat.add_assoc, Nat.add_right_comm]
    refine ih (fun x hx => hwithin x (List.mem_cons_of_mem c hx)) hlinked.tail hturns.tail
      fun next hnext => ?_
    have hmem : next ∈ rest ++ [last] := List.mem_of_mem_head? hnext
    exact hc'.step hc hF (hwithin c List.mem_cons_self)
      (hwithin next (List.mem_cons_of_mem c hmem)) (hlinked.rel_head? hnext)
      (hturns.rel_head? hnext) hhead

omit [DecidableEq A] [AbstractState S] in
theorem Rounds.counted (h : e.Rounds F layer head outer n a)
    (ha : F.Within (fun _ _ => True) N layer a) (hn : 0 < n) :
    Counted head outer n a.scopeLoops := by
  cases h with
  | arrived hzero =>
    rw [hzero] at hn
    cases hn
  | here _ hcounted => exact hcounted
  | above hbelow hscopes => exact (not_above ha hbelow hscopes).elim

end Step

/-! ## §4. Widening at loop heads. -/

variable {s t u : RunState L A S} {F : Contexts L A S} {layer : LayerId} {last : Item L A S}

/-- An item is the predecessor of another. -/
def Precedes (s : RunState L A S) (a b : Item L A S) : Prop :=
  ∃ p, b.predecessor = some p ∧ s.items.get p = .ok a

/-- Along a chain of predecessors, all items are linked and belong to activations. -/
theorem Chained.linked_chain (h : e.Chained s) (hF : e.Framed F (fun _ _ => True) s)
    (hlive : ∃ j i, s.items.get j = .ok i ∧ i.predecessor = last.predecessor)
    (hlast : ∀ a, Precedes s a last → e.Linked a last) (segment : List (Item L A S))
    (hchain : (segment ++ [last]).IsChain (Precedes s)) :
    (segment ++ [last]).IsChain e.Linked ∧
      (∀ c ∈ segment, ∃ here, F.Within (fun _ _ => True) s.layers.size here c) ∧
      ∀ c ∈ (segment ++ [last]).head?, c = last ∨ ∃ p, Anchored s p ∧ s.items.get p = .ok c := by
  induction segment with
  | nil =>
    refine ⟨List.isChain_singleton last, fun c hc => ?_, fun c hc => ?_⟩
    · cases hc
    · exact .inl (Option.some.inj hc).symm
  | cons c rest ih =>
    obtain ⟨hlinked, hwithin, hnext⟩ := ih hchain.tail
    obtain ⟨next, hhead⟩ : ∃ next, next ∈ (rest ++ [last]).head? := by
      cases rest with
      | nil => exact ⟨last, rfl⟩
      | cons next rest => exact ⟨next, rfl⟩
    obtain ⟨p, hp, hc⟩ := hchain.rel_head? hhead
    -- The next item is the last one, or the predecessor of one that is live; either way it shows
    -- that `c` is the predecessor of a live item.
    obtain ⟨hlink, j, i, hi, hsame⟩ : e.Linked c next ∧
        ∃ j i, s.items.get j = .ok i ∧ i.predecessor = some p := by
      obtain rfl | ⟨p', hanchored, hp'⟩ := hnext next hhead
      · rw [← hp]
        exact ⟨hlast c ⟨p, hp, hc⟩, hlive⟩
      · exact ⟨h.linked p' next p c hanchored hp' hp hc, p', next, hp', hp⟩
    refine ⟨hlinked.cons fun y hy => ?_, fun x hx => ?_, fun x hx => .inr ⟨p, ?_, ?_⟩⟩
    · cases Option.mem_unique hhead hy
      exact hlink
    · obtain rfl | hx := List.mem_cons.mp hx
      · exact hF.predecessors j i p x hi hsame hc
      · exact hwithin x hx
    · exact .inl ⟨j, i, hi, hsame⟩
    · rw [← Option.some.inj hx]
      exact hc

end Engine

/-- The heads of the loops of an item's scope that it entered before the loop at `head`. -/
def Item.loopsAround (item : Item L A S) (head : L) : List L :=
  (item.scopeLoops.takeWhile fun l => l.head ≠ head).map ActiveLoop.head

theorem Item.not_mem_loopsAround (item : Item L A S) (head : L) :
    head ∉ item.loopsAround head := by
  intro hmem
  obtain ⟨l, hl, hhead⟩ := List.mem_map.mp hmem
  have hne := List.mem_takeWhile_imp hl
  simp [hhead] at hne

namespace Engine

variable {T : Type} [DecidableEq A] [DecidableEq T] [AbstractState S]

/-- A segment of a chain of predecessors that arrives at the head of a loop and from then on visits,
within the same activation, only nodes of the loop. -/
structure Circles (e : Engine Nat (Transition T) S) (loop : NaturalLoop) (layer : LayerId)
    (head : Nat) (s : RunState Nat (Transition T) S) (segment : List (Item Nat (Transition T) S))
    (last : Item Nat (Transition T) S) : Prop where
  chain : (segment ++ [last]).IsChain (Precedes s)
  first : segment.head?.any (e.arrives layer head) = true
  inside : ∀ c ∈ segment ++ [last], c.currentLayer = layer → loop.contains c.action.tail = true
  stays : (segment ++ [last]).IsChain fun a b => a.currentLayer = layer →
    e.transitions.leavesScope b.action a.currentScope = false

/-- An item is processed that arrives at the head of a loop, after more arrivals than the loop may
be unwound.  The states after its action are neither bottom nor covered. -/
structure LateArrival (e : Engine Nat (Transition T) S) (loop : NaturalLoop) (layer : LayerId)
    (head : Nat) (segment : List (Item Nat (Transition T) S)) (id : ItemId)
    (item : Item Nat (Transition T) S) (post : Disjunction S)
    (s u : RunState Nat (Transition T) S) : Prop where
  processed : ∃ worklist t, s.worklist.pop = some (id, worklist) ∧
    e.takeUp id item (taken worklist s) = .ok post t ∧
    e.process id (taken worklist s) = .ok () u
  live : s.items.get id = .ok item
  feasible : post.isBottom = false
  uncovered : e.covers s.layers item post = .ok false
  within : e.transitions.entersScope item.action = false
  arrives : e.arrives layer head (e.advanced item) = true
  circles : e.Circles loop layer head s segment (e.advanced item)
  often : e.options.maxUnwindings < segment.countP (e.arrives layer head)

/-- A step that starts at the head of the loop in the given activation is no call and no return,
and a step there enters none of the loops in `outer`. -/
def Regular (e : Engine Nat (Transition T) S) (layer : LayerId) (head : Nat) (outer : List Nat)
    (a b : Item Nat (Transition T) S) : Prop :=
  (a.currentLayer = layer ∨ b.currentLayer = layer → b.action.head = head →
    b.action.isIntraprocedural = true) ∧
  (a.currentLayer = layer → e.entersLoop b.action = true → b.action.head ∉ outer)

theorem isChain_and {α : Type} {R R' : α → α → Prop} {l : List α} (h : l.IsChain R)
    (h' : l.IsChain R') : l.IsChain fun a b => R a b ∧ R' a b := by
  induction l with
  | nil => exact .nil
  | cons a l ih =>
    exact (ih h.tail h'.tail).cons fun b hb => ⟨h.rel_head? hb, h'.rel_head? hb⟩

/-- The items before the one at a position, oldest first, as many as asked for. -/
def ancestors (s : RunState L A S) : Nat → ItemId → List (Item L A S)
  | 0, _ => []
  | n + 1, id =>
    match (s.items.get id).toOption.bind Item.predecessor with
    | none => []
    | some p =>
      match s.items.get p with
      | .ok q => ancestors s n p ++ [q]
      | .error _ => []

instance [DecidableEq S] (s : RunState L A S) (a b : Item L A S) : Decidable (Precedes s a b) :=
  decidable_of_iff (b.predecessor.any fun p => (s.items.get p).toOption = some a) <| by
    rw [Option.any_eq_true]
    refine exists_congr fun p => and_congr Iff.rfl ?_
    rw [decide_eq_true_eq]
    cases s.items.get p with
    | ok q => simp [Except.toOption]
    | error cause => simp [Except.toOption]

instance (e : Engine Nat (Transition T) S) (layer : LayerId) (head : Nat) (outer : List Nat)
    (a b : Item Nat (Transition T) S) : Decidable (e.Regular layer head outer a b) :=
  inferInstanceAs (Decidable (_ ∧ _))

instance [DecidableEq S] (e : Engine Nat (Transition T) S) (loop : NaturalLoop) (layer : LayerId)
    (head : Nat) (s : RunState Nat (Transition T) S)
    (segment : List (Item Nat (Transition T) S)) (last : Item Nat (Transition T) S) :
    Decidable (e.Circles loop layer head s segment last) :=
  decidable_of_iff
    ((segment ++ [last]).IsChain (Precedes s) ∧
      segment.head?.any (e.arrives layer head) = true ∧
      (∀ c ∈ segment ++ [last], c.currentLayer = layer → loop.contains c.action.tail = true) ∧
      (segment ++ [last]).IsChain fun a b => a.currentLayer = layer →
        e.transitions.leavesScope b.action a.currentScope = false)
    ⟨fun ⟨hchain, hfirst, hinside, hstays⟩ => ⟨hchain, hfirst, hinside, hstays⟩,
      fun ⟨hchain, hfirst, hinside, hstays⟩ => ⟨hchain, hfirst, hinside, hstays⟩⟩

/-- Whether the next item arrives late at the head of a loop, `n` items after the loop was reached,
and satisfies a further condition. -/
def arrivesLate [DecidableEq S] (e : Engine Nat (Transition T) S) (loop : NaturalLoop)
    (layer : LayerId) (head n : Nat) (s : RunState Nat (Transition T) S)
    (condition : Item Nat (Transition T) S → List (Item Nat (Transition T) S) →
      RunState Nat (Transition T) S → Bool) : Bool :=
  match s.worklist.pop with
  | none => false
  | some (id, worklist) =>
    match s.items.get id with
    | .error _ => false
    | .ok item =>
      match e.takeUp id item (taken worklist s), e.process id (taken worklist s) with
      | .ok post _, .ok _ u =>
        !post.isBottom && (e.covers s.layers item post).toOption = some false &&
          !e.transitions.entersScope item.action && e.arrives layer head (e.advanced item) &&
          e.Circles loop layer head s (ancestors s n id) (e.advanced item) &&
          e.options.maxUnwindings < (ancestors s n id).countP (e.arrives layer head) &&
          condition item (ancestors s n id) u
      | _, _ => false

theorem exists_of_arrivesLate [DecidableEq S] {e : Engine Nat (Transition T) S}
    {loop : NaturalLoop} {layer : LayerId} {head n : Nat} {s : RunState Nat (Transition T) S}
    {condition : Item Nat (Transition T) S → List (Item Nat (Transition T) S) →
      RunState Nat (Transition T) S → Bool}
    (h : e.arrivesLate loop layer head n s condition = true) :
    ∃ segment id item post u, e.LateArrival loop layer head segment id item post s u ∧
      condition item segment u = true := by
  unfold arrivesLate at h
  split at h
  · cases h
  · rename_i id worklist hpop
    split at h
    · cases h
    · rename_i item hget
      split at h
      · rename_i post t _ u htake hprocess
        simp only [Bool.and_eq_true, Bool.not_eq_true', decide_eq_true_eq] at h
        obtain ⟨⟨⟨⟨⟨⟨hpost, hcovers⟩, hstays⟩, harrives⟩, hcircles⟩, hoften⟩, hcondition⟩ := h
        refine ⟨_, id, item, post, u, ⟨⟨worklist, t, hpop, htake, hprocess⟩, hget, hpost, ?_,
          hstays, harrives, hcircles, hoften⟩, hcondition⟩
        cases hc : e.covers s.layers item post with
        | ok b => simpa [hc, Except.toOption] using hcovers
        | error cause => simp [hc, Except.toOption] at hcovers
      · cases h

section Program

variable {p : Program T} {table : LoopTable} {e : Engine Nat (Transition T) S} {starts : List Nat}
variable {s u : RunState Nat (Transition T) S} {id : ItemId} {item : Item Nat (Transition T) S}
variable {post : Disjunction S} {loop : NaturalLoop} {layer : LayerId} {head : Nat}
variable {segment : List (Item Nat (Transition T) S)}

omit [DecidableEq T] [AbstractState S] in
/-- Where no step that leaves the head is hidden, and no loop around is entered again, the steps of
a segment that goes round a loop are counted. -/
theorem Circles.turns {outer : List Nat} {last : Item Nat (Transition T) S}
    (htransitions : e.transitions = p.transitions) (hloops : e.entersLoop = table.isEntered)
    (hloop : table.loops.find? head = some loop)
    (h : e.Circles loop layer head s segment last)
    (hregular : (segment ++ [last]).IsChain (e.Regular layer head outer)) :
    (segment ++ [last]).IsChain (e.Turns layer head outer) := by
  refine (isChain_and h.stays hregular).imp_of_mem_imp ?_
  rintro a b - hb ⟨hstays, hplain, hkeeps⟩
  refine ⟨hstays, fun hlayer hsource => ?_, ?_⟩
  · rw [htransitions] at hsource ⊢
    have hintra := hplain hlayer hsource
    constructor
    · unfold Transition.isIntraprocedural at hintra
      cases hkind : b.action.kind <;> simp_all [Program.transitions, Transition.isCall]
    · intro hlayer
      have hhead : b.action.head = head := hsource
      rw [hloops, LoopTable.isEntered, hintra, hhead, hloop]
      exact h.inside b hb hlayer
  · rw [htransitions]
    exact hkeeps

/-- The counter of a loop is larger than allowed when an item arrives at its head too late. -/
theorem LateArrival.counted (hp : p.Built) (htransitions : e.transitions = p.transitions)
    (hloops : e.entersLoop = table.isEntered) (hs : e.Reachable starts s)
    (hloop : table.loops.find? head = some loop)
    (h : e.LateArrival loop layer head segment id item post s u)
    (hregular : ∀ c ∈ segment.head?,
      (segment ++ [e.advanced item]).IsChain (e.Regular layer head (c.loopsAround head))) :
    ∃ counter snapshot, (e.advanced item).loopAt head = some (counter, snapshot) ∧
      e.options.maxUnwindings < counter := by
  have hc := hp.coherent htransitions hloops
  obtain ⟨hordered, hchained⟩ := hs.chained hc
  obtain ⟨F, hF⟩ := hchained.framed
  obtain ⟨worklist, t, hpop, -, -⟩ := h.processed
  have hid : id ∈ s.pending := Worklist.mem_of_pop hpop
  have hpredecessor : (e.advanced item).predecessor = item.predecessor := by
    obtain ⟨loops, hadvanced⟩ := e.advanced_eq item
    rw [hadvanced]
  obtain ⟨here, hlast⟩ := hF.advanced hid h.live (fun _ _ hl => hl) fun _ _ _ _ => trivial
  -- The items of the segment are linked, up to the last one after it was brought up to date.
  obtain ⟨hlinked, hwithin, -⟩ := hchained.linked_chain hF ⟨id, item, h.live, hpredecessor.symm⟩
    (fun a ⟨r, hr, ha⟩ => by
      rw [hpredecessor] at hr
      exact hF.linked hc hid h.live hr ha
        (fun hreturned => hchained.sources id item r a h.live (.inl hreturned) hr ha)
        (.advanced (n := 0)))
    segment h.circles.chain
  obtain ⟨c, hfirst, harrives⟩ := (Option.any_eq_true _ _).mp h.circles.first
  unfold Engine.arrives at harrives
  rw [Bool.and_eq_true, decide_eq_true_eq, decide_eq_true_eq] at harrives
  have hwithin' : ∀ x ∈ segment ++ [e.advanced item],
      ∃ here, F.Within (fun _ _ => True) s.layers.size here x := by
    intro x hx
    obtain hx | hx := List.mem_append.mp hx
    · exact hwithin x hx
    · rw [List.mem_singleton.mp hx]
      exact ⟨here, hlast⟩
  -- The first item has just arrived at the head, and no round is counted yet.
  have hstart : ∀ x ∈ (segment ++ [e.advanced item]).head?,
      e.Rounds F layer head (c.loopsAround head) 0 x := by
    intro x hx
    rw [List.head?_append, hfirst] at hx
    cases hx
    exact .arrived rfl harrives.1 harrives.2 rfl
  have hrounds := Rounds.run hc hF.wellFormed (c.not_mem_loopsAround head) segment hwithin' hlinked
    (h.circles.turns htransitions hloops hloop (hregular c hfirst)) hstart
  have hlayer : here = layer := by
    have harrives := h.arrives
    unfold Engine.arrives at harrives
    rw [Bool.and_eq_true, decide_eq_true_eq, hlast.currentLayer hF.wellFormed] at harrives
    exact harrives.1
  rw [hlayer] at hlast
  rw [Nat.zero_add] at hrounds
  obtain ⟨counter, snapshot, hloopAt, hcounter⟩ :=
    (hrounds.counted hlast (Nat.zero_lt_of_lt h.often)).loopAt
  exact ⟨counter, snapshot, hloopAt, h.often.trans_le hcounter⟩

/-- States that arrive at the head of a loop too late are widened before they are stored, if on the
way no step that leaves the head was a call or a return, and no loop around was entered again. -/
theorem widened_of_lateArrival (hp : p.Built) (htransitions : e.transitions = p.transitions)
    (hloops : e.entersLoop = table.isEntered) (hs : e.Reachable starts s)
    (hloop : table.loops.find? head = some loop)
    (h : e.LateArrival loop layer head segment id item post s u)
    (hregular : ∀ c ∈ segment.head?,
      (segment ++ [e.advanced item]).IsChain (e.Regular layer head (c.loopsAround head))) :
    ∃ counter snapshot widened, (e.advanced item).loopAt head = some (counter, snapshot) ∧
      e.options.maxUnwindings < counter ∧ snapshot.widen post e.domain = .ok widened ∧
      (widened.isEquivalent snapshot = true ∧ u.layers = s.layers ∨
        widened.isEquivalent snapshot = false ∧
          ∃ stored, s.layers.addState layer head widened = .ok (stored, u.layers)) := by
  have hc := hp.coherent htransitions hloops
  have hordered := (hs.chained hc).1
  obtain ⟨counter, snapshot, hloopAt, hcounter⟩ :=
    h.counted hp htransitions hloops hs hloop hregular
  have harrives := h.arrives
  unfold Engine.arrives at harrives
  rw [Bool.and_eq_true, decide_eq_true_eq, decide_eq_true_eq, advanced_action] at harrives
  have hagainst : e.widensAgainst (e.advanced item) = some snapshot := by
    unfold widensAgainst
    rw [advanced_action, h.within, harrives.2, hloopAt]
    simp [hcounter]
  obtain ⟨worklist, t, hpop, htake, hprocess⟩ := h.processed
  obtain ⟨item', post', t', htake', hprocessed⟩ := process_ok hprocess
  cases Except.ok.inj (hprocessed.1.symm.trans h.live)
  rw [htake] at htake'
  cases htake'
  obtain ⟨exits, summaries, handed, new, final, added, -, hpost, hend, -⟩ :=
    processed_parts hordered.tidy hpop hprocessed
  refine ⟨counter, snapshot, ?_⟩
  cases hend u.items with
  | infeasible hbottom =>
    rw [h.feasible] at hbottom
    cases hbottom
  | covered _ hcovered =>
    rw [h.uncovered] at hcovered
    cases hcovered
  | coveredCall _ hcovered =>
    rw [h.uncovered] at hcovered
    cases hcovered
  | entryFixpoint _ _ _ henters =>
    rw [h.within] at henters
    cases henters
  | loopFixpoint _ _ _ _ hagainst' hwiden hsame _ _ _ hlayers =>
    rw [hagainst] at hagainst'
    cases hagainst'
    exact ⟨_, hloopAt, hcounter, hwiden, .inl ⟨hsame, hlayers⟩⟩
  | stored _ _ _ hwiden henter _ hadd =>
    obtain ⟨rfl, rfl⟩ := henter.stays (by rw [advanced_action]; exact h.within)
    rw [harrives.1, harrives.2] at hadd
    obtain ⟨hnone, -⟩ | ⟨older, hagainst', hwiden, hchanged, -⟩ := hwiden
    · rw [hagainst] at hnone
      cases hnone
    · rw [hagainst] at hagainst'
      cases hagainst'
      exact ⟨_, hloopAt, hcounter, hwiden, .inr ⟨hchanged, _, hadd⟩⟩

/-- A loop that calls a procedure on each round. -/
def callingLoop : Program Statement := .ofAdditions
  [.procedure "main", .procedure "f", .node "main", .node "main", .node "main",
    .internal 0 4 (.assign "x" 0), .internal 4 5 (.assumeLessThan "x" 10), .call 5 6 "f" .nop,
    .internal 2 3 .nop, .internal 6 4 (.add "x" 1), .internal 4 1 (.assumeAtLeast "x" 10)]

/-- The interval analysis of a program with the loops that are found in it. -/
def loopIntervals (p : Program Statement) : Engine Nat (Transition Statement) IntervalState :=
  p.intervals (p.loopTable.toOption.getD ⟨.empty⟩) ⟨1, 1, .fifo, false, Nat.one_pos, Nat.one_pos⟩

/-- The interval analysis of the loop that calls a procedure. -/
def callingIntervals : Engine Nat (Transition Statement) IntervalState := loopIntervals callingLoop

set_option maxRecDepth 100000 in
/-- The thirteenth item of the analysis is the third to arrive at the head of the loop. -/
theorem widened_of_lateArrival_calling : ∃ table loop s segment id item post u,
    callingLoop.loopTable.toOption = some table ∧ table.loops.find? 4 = some loop ∧
    callingIntervals.stateAfter [0] 12 = some s ∧
    callingIntervals.LateArrival loop Layers.root 4 segment id item post s u ∧
    (∀ c ∈ segment.head?, (segment ++ [callingIntervals.advanced item]).IsChain
      (callingIntervals.Regular Layers.root 4 (c.loopsAround 4))) ∧
    ∃ counter snapshot widened,
      (callingIntervals.advanced item).loopAt 4 = some (counter, snapshot) ∧
      callingIntervals.options.maxUnwindings < counter ∧
      snapshot.widen post callingIntervals.domain = .ok widened ∧
      (widened.isEquivalent snapshot = true ∧ u.layers = s.layers ∨
        widened.isEquivalent snapshot = false ∧
          ∃ stored, s.layers.addState Layers.root 4 widened = .ok (stored, u.layers)) := by
  have hnext : (callingLoop.loopTable.toOption.any fun table =>
      (table.loops.find? 4).any fun loop =>
      (callingIntervals.stateAfter [0] 12).any fun s =>
        callingIntervals.arrivesLate loop Layers.root 4 10 s fun item segment _ =>
          segment.head?.all fun c => (segment ++ [callingIntervals.advanced item]).IsChain
            (callingIntervals.Regular Layers.root 4 (c.loopsAround 4))) = true := by
    decide +kernel
  obtain ⟨table, htable, hnext⟩ := (Option.any_eq_true _ _).mp hnext
  obtain ⟨loop, hloop, hnext⟩ := (Option.any_eq_true _ _).mp hnext
  obtain ⟨s, hs, hnext⟩ := (Option.any_eq_true _ _).mp hnext
  obtain ⟨segment, id, item, post, u, hlate, hregular⟩ := exists_of_arrivesLate hnext
  have hregular : ∀ c ∈ segment.head?, (segment ++ [callingIntervals.advanced item]).IsChain
      (callingIntervals.Regular Layers.root 4 (c.loopsAround 4)) := by
    intro c hc
    exact of_decide_eq_true ((Option.all_eq_true _ _).mp hregular c hc)
  have hloops : callingIntervals.entersLoop = table.isEntered := by
    unfold callingIntervals loopIntervals
    rw [htable]
    rfl
  exact ⟨table, loop, s, segment, id, item, post, u, htable, hloop, hs, hlate, hregular,
    widened_of_lateArrival (p := callingLoop) ⟨_, rfl⟩ rfl hloops (reachable_of_stateAfter hs) hloop
      hlate hregular⟩

/-- A loop whose head calls a procedure. -/
def callHeaded : Program Statement := .ofAdditions
  [.procedure "main", .procedure "f", .node "main", .node "main", .node "main",
    .internal 0 4 (.assign "x" 0), .call 4 5 "f" .nop, .internal 2 3 .nop,
    .internal 5 6 (.add "x" 1), .internal 5 1 .nop, .internal 6 4 (.assumeLessThan "x" 5)]

/-- The interval analysis of the loop whose head calls a procedure. -/
def callHeadedIntervals : Engine Nat (Transition Statement) IntervalState :=
  loopIntervals callHeaded

set_option maxRecDepth 100000 in
/-- A departure from the head of a loop that is a call is not counted: the fifth arrival at the head
is stored without ever having widened anything. -/
theorem not_widened_callHeaded : ∃ table loop s segment id item post u,
    callHeaded.loopTable.toOption = some table ∧ table.loops.find? 4 = some loop ∧
    callHeadedIntervals.stateAfter [0] 24 = some s ∧
    callHeadedIntervals.LateArrival loop Layers.root 4 segment id item post s u ∧
    (callHeadedIntervals.advanced item).loopAt 4 = none ∧ u.statistics.widenings = 0 := by
  have hnext : (callHeaded.loopTable.toOption.any fun table =>
      (table.loops.find? 4).any fun loop =>
      (callHeadedIntervals.stateAfter [0] 24).any fun s =>
        callHeadedIntervals.arrivesLate loop Layers.root 4 20 s fun item _ u =>
          (callHeadedIntervals.advanced item).loopAt 4 = none &&
            u.statistics.widenings = 0) = true := by
    decide +kernel
  obtain ⟨table, htable, hnext⟩ := (Option.any_eq_true _ _).mp hnext
  obtain ⟨loop, hloop, hnext⟩ := (Option.any_eq_true _ _).mp hnext
  obtain ⟨s, hs, hnext⟩ := (Option.any_eq_true _ _).mp hnext
  obtain ⟨segment, id, item, post, u, hlate, hunwidened⟩ := exists_of_arrivesLate hnext
  rw [Bool.and_eq_true, decide_eq_true_eq, decide_eq_true_eq] at hunwidened
  exact ⟨table, loop, s, segment, id, item, post, u, htable, hloop, hs, hlate, hunwidened⟩

/-- A loop inside another, and a way into the inner one that passes by the head of the outer. -/
def reentered : Program Statement := .ofAdditions
  [.procedure "main", .node "main", .node "main", .node "main", .node "main",
    .internal 0 4 .nop, .internal 4 2 .nop, .internal 2 3 .nop, .internal 3 2 .assumeFalse,
    .internal 3 4 (.add "x" 1), .internal 5 2 (.assign "x" 0)]

/-- The interval analysis of the loop that is entered from inside. -/
def reenteredIntervals : Engine Nat (Transition Statement) IntervalState := loopIntervals reentered

set_option maxRecDepth 100000 in
/-- Entering the inner loop again, which was entered first, forgets the counter of the outer one:
the third arrival at the head of the outer loop is not widened there. -/
theorem not_widened_reentered : ∃ table loop s segment id item post u,
    reentered.loopTable.toOption = some table ∧ table.loops.find? 4 = some loop ∧
    reenteredIntervals.stateAfter [5] 11 = some s ∧
    reenteredIntervals.LateArrival loop Layers.root 4 segment id item post s u ∧
    (reenteredIntervals.advanced item).loopAt 4 = none := by
  have hnext : (reentered.loopTable.toOption.any fun table =>
      (table.loops.find? 4).any fun loop =>
      (reenteredIntervals.stateAfter [5] 11).any fun s =>
        reenteredIntervals.arrivesLate loop Layers.root 4 6 s fun item _ _ =>
          (reenteredIntervals.advanced item).loopAt 4 = none) = true := by
    decide +kernel
  obtain ⟨table, htable, hnext⟩ := (Option.any_eq_true _ _).mp hnext
  obtain ⟨loop, hloop, hnext⟩ := (Option.any_eq_true _ _).mp hnext
  obtain ⟨s, hs, hnext⟩ := (Option.any_eq_true _ _).mp hnext
  obtain ⟨segment, id, item, post, u, hlate, hnone⟩ := exists_of_arrivesLate hnext
  exact ⟨table, loop, s, segment, id, item, post, u, htable, hloop, hs, hlate,
    of_decide_eq_true hnone⟩

end Program

end Engine

end Interproc
