/-
  Interproc.Proofs.Progress
  ─────────────────────────
  Progress is strict.  The state with which an item last entered a loop of its own
  scope is stored at the head of the loop, in the layer of the item.  So an item that
  is not covered has something to add:

    * widening at the head of a loop never comes to nothing;
    * merging always changes what is stored;
    * an item has successors only if it stored states where there were none, or
      states that are strictly above those stored before.

  Bottom need not be below all other states.  Merged states are therefore told to have
  no bottoms, and then nothing of them is lost.

  Main result: `Engine.progress_of_reachable`.
-/
import Mathlib
import Interproc.Proofs.Deliveries
import Interproc.Proofs.LoopCounts
import Interproc.Proofs.Origins
import Interproc.Proofs.Safety

namespace Interproc

variable {L A S : Type} [DecidableEq L] [AbstractState S]

namespace Engine

open Run

variable {e : Engine L A S} {s s' : RunState L A S} {id j : ItemId} {item final i : Item L A S}
variable {post widened : Disjunction S} {layer : LayerId} {F : Contexts L A S} {starts : List L}
variable {exits : Exits A S} {summaries : Summaries A S} {handed new : List (Item L A S)}

/-! ## §1. Snapshots are stored. -/

/-- The states with which an item last entered the loops of its own scope are stored at their
heads. -/
def SnapshotsStored (layers : Layers L A S) (item : Item L A S) : Prop :=
  ∀ l ∈ item.scopeLoops, Snapped layers item.currentLayer l

theorem SnapshotsStored.congr {layers : Layers L A S} (h : SnapshotsStored layers item)
    (hroot : i.rootLayer = item.rootLayer) (hscopes : i.scopes = item.scopes)
    (hloops : i.loops = item.loops) : SnapshotsStored layers i := by
  unfold SnapshotsStored Item.scopeLoops Item.loopDepth Item.currentLayer at *
  rw [hroot, hscopes, hloops]
  exact h

/-- An exit that is handed to a call starts outside of all loops of the activation. -/
theorem snapshotsStored_returning (layers : Layers L A S) (d : Disjunction S) (action : A)
    (predecessor : Option ItemId) (call : Item L A S) (layer : LayerId) :
    SnapshotsStored layers (.returning d action predecessor call layer) := by
  have hnone : (Item.returning d action predecessor call layer).scopeLoops = [] :=
    List.drop_length
  intro l hl
  rw [hnone] at hl
  cases hl

theorem snapshotsStored_of_within {layers : Layers L A S} {n : Nat}
    (hF : F.WellFormed (Snapped layers) n) (h : F.Within (Snapped layers) n layer item) :
    SnapshotsStored layers item := by
  unfold SnapshotsStored
  rw [h.currentLayer hF, h.scopeLoops hF]
  exact h.loops

section Grounded

variable [GroundedState S]

theorem SnapshotsStored.grown {layers layers' : Layers L A S} (h : SnapshotsStored layers item)
    (hgrown : layers.Grown layers') : SnapshotsStored layers' item :=
  fun l hl => (h l hl).grown hgrown

variable [DecidableEq A]

/-- The states that a pass merges have no bottoms, so nothing of them is lost. -/
theorem Pass.lasts (hclean : Clean s) (hpass : e.Pass id item post final s s') :
    e.Lasts item post final s s' := by
  intro widened hstores
  cases hpass with
  | intro _ _ _ hpost =>
    have hproper := hstores.proper (hpost.proper hclean)
    obtain ⟨-, -, layers, stored, -, hadd⟩ := hstores
    exact (Layers.addState_ok hadd).holds_of_proper hproper

/-- The item that was processed enters loops with states that are stored. -/
theorem Pass.snapshotsStored_final (hc : e.Coherent) (hF : e.Backed F s)
    (hpass : e.Pass id item post final s s') (hitem : SnapshotsStored s.layers item) :
    SnapshotsStored s'.layers final := by
  have hgrown := hpass.grown hF.proper
  cases hpass with
  | intro hpop hget _ _ hend =>
    have hid : id ∈ s.pending := Worklist.mem_of_pop hpop
    obtain ⟨hfinal, -⟩ | hmoves := hend.final_cases
    · rw [hfinal]
      exact hitem.grown hgrown
    · obtain ⟨hwell, -, hwithin⟩ := hF.framed.final_within hid hget (Snapped.grown hgrown)
        (hF.snaps hc hid hget hgrown) hend
      obtain ⟨layer, hwithin⟩ := hwithin (.inr hmoves)
      exact snapshotsStored_of_within hwell hwithin

/-- Every pass keeps snapshots stored. -/
theorem Pass.snapshotsStored (hc : e.Coherent) (hs : e.Orderly s) (hs' : e.Orderly s')
    (hF : e.Backed F s) (hpass : e.Pass id item post final s s')
    (h : ∀ j i, s.items.get j = .ok i → SnapshotsStored s.layers i) (hi : s'.items.get j = .ok i) :
    SnapshotsStored s'.layers i := by
  have hgrown := hpass.grown hF.proper
  have hfinal := hpass.snapshotsStored_final hc hF (h id item hpass.get)
  cases hpass.origin hs hs' hi with
  | returned => exact snapshotsStored_returning _ _ _ _ _ _
  | redone _ _ hq =>
    -- Items that are redone go on in the context of their predecessor.
    exact ((h _ _ hq).grown hgrown).congr rfl rfl rfl
  | @successor widened action _ _ =>
    obtain ⟨_, _, hshape⟩ := e.successorOf_eq s'.summaries id final widened action
    rw [hshape]
    exact hfinal.congr rfl rfl rfl
  | final => exact hfinal
  | old _ hold => exact (h j i hold).grown hgrown

/-- In every reachable state, items rest on what is stored, and so do their snapshots. -/
theorem Reachable.snapshotsStored (hc : e.Coherent) (h : e.Reachable starts s) :
    e.Orderly s ∧ Clean s ∧ (∃ F, e.Backed F s) ∧
      ∀ j i, s.items.get j = .ok i → SnapshotsStored s.layers i := by
  refine h.induct (P := fun s => Clean s ∧ (∃ F, e.Backed F s) ∧
    ∀ j i, s.items.get j = .ok i → SnapshotsStored s.layers i) ?_ ?_ ?_
  · exact ⟨.start, ⟨_, .start⟩, fun _ _ hi => by cases hi⟩
  · rintro location - action haction s s' hs hseed ⟨hclean, ⟨F, hF⟩, hsnapshots⟩
    refine ⟨hclean.seed hseed, ⟨F, hF.seed hc haction hseed⟩, fun j i hi => ?_⟩
    obtain ⟨state, stored, layers, id, -, hadd, hgrows⟩ := hseed
    obtain ⟨rfl, rfl⟩ | ⟨hold, -⟩ := hgrows.old_singleton hi
    · intro l hl
      cases hl
    · rw [hgrows.unmoved.layers]
      exact (hsnapshots j i hold).grown ((Layers.addState_ok hadd).grown hF.proper)
  · rintro s s' id item post final hs hs' hpass ⟨hclean, ⟨F, hF⟩, hsnapshots⟩
    exact ⟨hclean.pass hpass, ⟨_, hF.pass hc hs hs' hpass (hpass.lasts hclean)⟩,
      fun j i hi => hpass.snapshotsStored hc hs hs' hF hsnapshots hi⟩

/-! ## §2. The late checks. -/

/-- What was merged covers the states that were widened, if they have no bottoms. -/
theorem WidenedTo.isSubset_merged (hlaws : e.domain.Lawful) {stored : Disjunction S}
    {layers layers' : Layers L A S} {location : L} (hpost : post.isBottom = false)
    (hproper : post.Proper) (hwiden : e.WidenedTo item post widened s s')
    (hadd : layers.addState layer location widened = .ok (stored, layers')) :
    post.isSubset stored = true := by
  have hmerged := Layers.addState_ok hadd
  obtain ⟨d, hd, hsub⟩ := hmerged.holds_of_proper (hwiden.proper hpost hproper)
  rw [hmerged.stored_self] at hd
  cases hd
  exact Disjunction.isSubset_trans (hwiden.covers hlaws hpost).1 hsub

end Grounded

variable [DecidableEq A]

variable (e) in
/-- The next item of `s` is neither infeasible nor covered, it was brought up to date, and the
states after its action are about to be widened in `u`. -/
def ComesToWiden (s : RunState L A S) (id : ItemId) (item tracked : Item L A S)
    (post : Disjunction S) (u : RunState L A S) : Prop :=
  ∃ worklist t t' t'', s.worklist.pop = some (id, worklist) ∧ s.items.get id = .ok item ∧
    e.takeUp id item (taken worklist s) = .ok post t ∧ post.isBottom = false ∧
    e.isCovered item (e.leaves item) post t = .ok false t' ∧
    e.bookkeep id item (e.leaves item) post t' = .ok tracked t'' ∧
    e.reportError id tracked.action post t'' = .ok () u

variable (e) in
/-- Whether it comes to widening for the next item. -/
def widensNext (s : RunState L A S) : Bool :=
  match s.worklist.pop with
  | none => false
  | some (id, worklist) =>
    match s.items.get id with
    | .error _ => false
    | .ok item =>
      match e.takeUp id item (taken worklist s) with
      | .error _ _ => false
      | .ok post t =>
        match (do
          let covered ← e.isCovered item (e.leaves item) post
          let tracked ← e.bookkeep id item (e.leaves item) post
          e.reportError id tracked.action post
          return covered : Run L A S Bool) t with
        | .ok false _ => !post.isBottom
        | _ => false

theorem exists_of_widensNext (h : e.widensNext s = true) :
    ∃ id worklist item tracked post u, s.worklist.pop = some (id, worklist) ∧
      e.ComesToWiden s id item tracked post u := by
  unfold widensNext at h
  split at h
  · cases h
  · rename_i id worklist hpop
    split at h
    · cases h
    · rename_i item hget
      split at h
      · cases h
      · rename_i post t htake
        split at h
        · rename_i u hrun
          obtain ⟨covered, t', hask, hrun⟩ := bind_eq_ok.mp hrun
          obtain ⟨tracked, t'', hbook, hrun⟩ := bind_eq_ok.mp hrun
          obtain ⟨_, u', herror, hrun⟩ := bind_eq_ok.mp hrun
          obtain ⟨rfl, rfl⟩ := pure_eq_ok.mp hrun
          rw [Bool.not_eq_true'] at h
          exact ⟨id, worklist, item, tracked, post, u', hpop, worklist, t, t', t'', hpop, hget,
            htake, h, hask, hbook, herror⟩
        · cases h

/-- Until it comes to widening, nothing is stored. -/
theorem ComesToWiden.unstored {tracked : Item L A S} {u : RunState L A S} (hs : e.Orderly s)
    (hclean : Clean s) (h : e.ComesToWiden s id item tracked post u) :
    tracked = e.advanced item ∧ id ∈ s.pending ∧ s.items.get id = .ok item ∧ post.Proper ∧
      post.isBottom = false ∧ e.covers s.layers item post = .ok false ∧
      u.layers = s.layers := by
  obtain ⟨worklist, t, t', t'', hpop, hget, htake, hpost, hask, hbook, herror⟩ := h
  have hid : id ∈ s.pending := Worklist.mem_of_pop hpop
  obtain ⟨hcovered, rfl⟩ := isCovered_ok hask
  obtain ⟨rfl, hbooked⟩ := bookkeep_ok hbook
  obtain ⟨t₀, hexit, hcomputed⟩ := takeUp_ok htake
  have hstart := InFlight.start (taken_tidy hs.tidy hpop) hget
  obtain ⟨handed, -, hflight, hlayers₁, hsummaries, -⟩ := hstart.exitTaken hexit
  obtain ⟨hpart, hflight, hlayers₂, -⟩ := hflight.computed hsummaries hcomputed
  have hlayers : t.layers = s.layers := hlayers₂.trans hlayers₁
  rw [hlayers] at hcovered
  obtain ⟨new, -, -, -, -, hlayers₃, -⟩ := hflight.noted hget (hs.tidy.of_pending hid).2.2.2.2
    hpost hcovered hbooked (reportError_ok herror)
  have hproper : post.Proper := hpart.proper ⟨hclean.items, hclean.exits, hclean.posts⟩
  exact ⟨rfl, hid, hget, hproper, hpost, hcovered, hlayers₃.trans hlayers⟩

section Grounded

variable [GroundedState S] {tracked : Item L A S} {u v : RunState L A S}

/-- Widening at the head of a loop leaves something to be stored. -/
theorem Backed.widen_ne_none (hc : e.Coherent) (hlaws : e.domain.Lawful) (hs : e.Orderly s)
    (hclean : Clean s) (hF : e.Backed F s) (h : e.ComesToWiden s id item tracked post u)
    (hstays : e.transitions.entersScope item.action = false) :
    e.widen id tracked post u ≠ .ok none v := by
  intro hwiden
  obtain ⟨rfl, hid, hget, -, hpost, hcovered, -⟩ := h.unstored hs hclean
  cases widen_ok hwiden with
  | loopFixpoint _ hagainst hw hsame =>
    exact hF.no_loopFixpoint hc hlaws hid hget hpost hcovered hstays hagainst hw hsame
  | entryFixpoint henters =>
    rw [advanced_action, hstays] at henters
    cases henters

/-- Merging changes what is stored. -/
theorem ComesToWiden.store_ne_false (hlaws : e.domain.Lawful) (hs : e.Orderly s)
    (hclean : Clean s) (h : e.ComesToWiden s id item tracked post u) {inside : Item L A S}
    {w x : RunState L A S} (hwiden : e.widen id tracked post u = .ok (some widened) v)
    (henter : e.enterScope id tracked widened v = .ok inside w) :
    e.store inside widened w ≠ .ok false x := by
  intro hstore
  obtain ⟨rfl, hid, hget, hproper, hpost, hcovered, hlayers⟩ := h.unstored hs hclean
  obtain ⟨hwidened, hlayers'⟩ : e.WidenedTo (e.advanced item) post widened u v ∧
      v.layers = s.layers := by
    cases widen_ok hwiden with
    | kept hkept => exact ⟨.inl ⟨hkept, rfl⟩, hlayers⟩
    | widened hagainst hw hchanged hcount =>
      exact ⟨.inr ⟨_, hagainst, hw, hchanged, hcount⟩, hlayers⟩
  have henterPart : e.EnterPart (e.advanced item) widened s.layers inside w.layers := by
    rw [← hlayers']
    cases enterScope_ok henter with
    | stayed hstays => exact .stayed hstays
    | entered henters hcreate => exact .entered henters hcreate
  obtain ⟨previous, stored, layers, _, _, hprevious, hadd, hchanged, -⟩ := store_ok hstore
  have hsub := hwidened.isSubset_merged hlaws hpost hproper hadd
  rw [henterPart.action_eq, advanced_action] at hprevious
  rw [stored_changes hcovered henterPart hprevious hsub] at hchanged
  cases hchanged

end Grounded

/-! ## §3. Successors. -/

/-- What is stored at a location of a layer became strictly more, or there was nothing before. -/
def Enlarged (layers layers' : Layers L A S) (layer : LayerId) (location : L) : Prop :=
  ∃ d', layers'.stored? layer location = some d' ∧
    ∀ d, layers.stored? layer location = some d → d.isSubset d' = true ∧ d'.isSubset d = false

omit [DecidableEq L] in
/-- A pending item is the predecessor of no item, exit or item to be redone. -/
theorem Orderly.no_successor (hs : e.Orderly s) (hid : id ∈ s.pending)
    (hget : s.items.get id = .ok item) (hexit : e.ExitPart item s exits handed) :
    (∀ j i, s.items.get j = .ok i → i.predecessor ≠ some id) ∧
      (∀ layer, ∀ x ∈ (exits.activation layer).exits, x.predecessor ≠ some id) ∧
      ∀ j i, s.Redoes j i → i.predecessor ≠ some id := by
  have hlive : ∀ j i, s.items.get j = .ok i → i.predecessor ≠ some id :=
    fun j i hi hp => (hs.tidy.predecessor hi hp).1 hid
  refine ⟨hlive, fun layer x hx hp => ?_, fun j i hredoes => ?_⟩
  · obtain ⟨y, hy, -, hsame⟩ | ⟨-, -, -, -, hsame⟩ := hexit.exits_mem.2 layer x hx
    · have hheld := Exits.held_pos_of_exit hy (hsame.trans hp)
      exact hs.tidy.not_pending (by omega) hid
    · exact hlive id item hget (hsame.symm.trans hp)
  · obtain ⟨stale, p, q, hstale, hp, hq, -, rfl⟩ := hredoes
    show some p ≠ some id
    rw [← hp]
    exact hlive j stale hstale

/-- The item that was processed has a successor only if it was not covered and stored the states
after its action. -/
theorem Pass.stored_of_successor (hs : e.Orderly s) (hpass : e.Pass id item post final s s')
    (hi : s'.items.get j = .ok i) (hp : i.predecessor = some id) :
    i.currentLayer = final.currentLayer ∧ i.loops = final.loops ∧ post.isBottom = false ∧
      e.covers s.layers item post = .ok false ∧ ∃ widened stored layers previous,
        e.WidenedTo (e.advanced item) post widened s s' ∧
        e.EnterPart (e.advanced item) widened s.layers final layers ∧
        layers.state? final.currentLayer (e.transitions.target item.action) = .ok previous ∧
        layers.addState final.currentLayer (e.transitions.target item.action) widened
          = .ok (stored, s'.layers) := by
  cases hpass with
  | @intro worklist exits summaries handed new added hpop hget hexit _ hend hadded hframe =>
    obtain ⟨hlive, hexits, hredone⟩ := hs.no_successor (Worklist.mem_of_pop hpop) hget hexit
    -- Only a new item can be a successor.
    have hnew : i ∈ new := by
      obtain hhand | hnew | ⟨-, rfl⟩ | hold := hframe.live_cases hadded hi
      · obtain ⟨_, -, x, hx, _, -, rfl⟩ := hexit.handed_eq hhand
        exact absurd hp (hexits _ x hx)
      · exact hnew
      · obtain ⟨scopes, loops, hshape⟩ := hend.final_eq
        rw [hshape] at hp
        exact absurd hp (hlive id item hget)
      · exact absurd hp (hlive j i hold)
    have hredoes : ∀ {stale redone}, List.Forall₂ (fun k i => s.Redoes k i) stale redone →
        i ∉ redone := by
      intro stale redone hall hmem
      obtain ⟨k, -, hredoes⟩ := exists_of_forall₂ hall hmem
      exact hredone k i hredoes hp
    have hreturns : ∀ layer call, i ∉ (exits.activation layer).exits.map fun x =>
        Item.returning x.state x.action x.predecessor call layer := by
      intro layer call hmem
      obtain ⟨x, hx, rfl⟩ := List.mem_map.mp hmem
      exact hexits layer x hx hp
    cases hend with
    | infeasible _ _ hnone =>
      rw [hnone] at hnew
      cases hnew
    | covered _ _ _ _ hnone =>
      rw [hnone] at hnew
      cases hnew
    | coveredCall _ _ _ _ _ heq =>
      rw [heq] at hnew
      exact absurd hnew (hreturns _ _)
    | loopFixpoint _ _ _ _ _ _ _ _ _ hall => exact absurd hnew (hredoes hall)
    | entryFixpoint _ _ _ _ _ _ _ _ _ _ hall heq =>
      rw [heq] at hnew
      obtain hmem | hmem := List.mem_append.mp hnew
      · exact absurd hmem (hredoes hall)
      · exact absurd hmem (hreturns _ _)
    | stored hpost hcovered _ hwiden henter hprevious hadd _ hall heq =>
      rw [heq] at hnew
      obtain hmem | hmem := List.mem_append.mp hnew
      · exact absurd hmem (hredoes hall)
      · obtain ⟨hlayer, hloops⟩ : i.currentLayer = final.currentLayer ∧ i.loops = final.loops := by
          split at hmem
          · obtain ⟨action, -, rfl⟩ := List.mem_map.mp hmem
            obtain ⟨_, _, hshape⟩ := e.successorOf_eq s'.summaries id final _ action
            rw [hshape]
            exact ⟨rfl, rfl⟩
          · cases hmem
        exact ⟨hlayer, hloops, hpost, hcovered, _, _, _, _, hwiden, henter, hprevious, hadd⟩

/-- An item has successors only if it enlarged what is stored at its target. -/
theorem Pass.enlarged_of_successor [GroundedState S] (hlaws : e.domain.Lawful) (hs : e.Orderly s)
    (hclean : Clean s) (hF : e.Backed F s) (hpass : e.Pass id item post final s s')
    (hi : s'.items.get j = .ok i) (hp : i.predecessor = some id) :
    Enlarged s.layers s'.layers i.currentLayer (e.transitions.target item.action) := by
  obtain ⟨hlayer, -, hpost, hcovered, widened, stored, layers, previous, hwiden, henter, hprevious,
    hadd⟩ := hpass.stored_of_successor hs hi hp
  have hproper : post.Proper := by
    cases hpass with
    | intro _ _ _ hpart => exact hpart.proper hclean
  have hmerged := Layers.addState_ok hadd
  have hsub := hwiden.isSubset_merged hlaws hpost hproper hadd
  have hchanged := stored_changes hcovered henter hprevious hsub
  rw [hlayer]
  refine ⟨stored, hmerged.stored_self, fun d hd => ?_⟩
  obtain ⟨rfl, -⟩ := Layers.state?_eq_ok hprevious
  rw [← henter.stored_eq] at hd
  have hbelow : d.isSubset stored = true := by
    rw [hmerged.stored_def, hd]
    exact Disjunction.isSubset_merge_left ((henter.grown hF.proper).2 _ _ d hd) _ _
  rw [hd, Option.all_some, Bool.not_eq_true', Disjunction.isEquivalent, hbelow,
    Bool.and_true] at hchanged
  exact ⟨hbelow, hchanged⟩

/-- Progress is strict in every reachable state.  The states with which items last entered the loops
of their innermost scope are stored at the heads of the loops, in the current layers of the items.
So the next item, if it is neither infeasible nor covered, is not dropped because widening at the
head of a loop or merging changes nothing, and it has successors only if it stored states where
there were none or enlarged those stored before. -/
theorem progress_of_reachable [GroundedState S] {T : Type} [DecidableEq T] {p : Program T}
    (hp : p.Built) {table : LoopTable} {e : Engine Nat (Transition T) S}
    (htransitions : e.transitions = p.transitions) (hloops : e.entersLoop = table.isEntered)
    (hlaws : e.domain.Lawful) {starts : List Nat} {s : RunState Nat (Transition T) S}
    (hs : e.Reachable starts s) :
    (∀ j i, s.items.get j = .ok i → ∀ l ∈ i.scopeLoops, ∃ d,
      s.layers.stored? i.currentLayer l.head = some d ∧ l.snapshot.isSubset d = true) ∧
    (∀ id item tracked post u, e.ComesToWiden s id item tracked post u →
      (e.transitions.entersScope item.action = false →
        ∀ v, e.widen id tracked post u ≠ .ok none v) ∧
      ∀ widened inside v w x, e.widen id tracked post u = .ok (some widened) v →
        e.enterScope id tracked widened v = .ok inside w →
        e.store inside widened w ≠ .ok false x) ∧
    ∀ s' id worklist item j i, e.iterate s = .ok true s' →
      s.worklist.pop = some (id, worklist) → s.items.get id = .ok item →
      s'.items.get j = .ok i → i.predecessor = some id →
      Enlarged s.layers s'.layers i.currentLayer (e.transitions.target item.action) := by
  have hc := hp.coherent htransitions hloops
  obtain ⟨hordered, hclean, ⟨F, hF⟩, hsnapshots⟩ := hs.snapshotsStored hc
  refine ⟨hsnapshots, fun id item tracked post u hcomes => ⟨fun hstays v => ?_, ?_⟩, ?_⟩
  · exact hF.widen_ne_none hc hlaws hordered hclean hcomes hstays
  · intro widened inside v w x hwiden henter
    exact hcomes.store_ne_false hlaws hordered hclean hwiden henter
  · intro s' id worklist item j i hiterate hpop hget hi hpredecessor
    obtain ⟨-, id', item', post, final, hpass⟩ := hordered.pass hiterate
    have hpass' := hpass
    cases hpass with
    | intro hpop' hget' =>
      rw [hpop] at hpop'
      cases hpop'
      rw [hget] at hget'
      cases hget'
      exact hpass'.enlarged_of_successor hlaws hordered hclean hF hi hpredecessor

set_option maxRecDepth 100000 in
/-- The thirteenth item of the analysis of `callingLoop` is widened at the head of the loop, where
states were stored before, and has successors. -/
theorem progress_of_reachable_calling : ∃ s s' worklist item tracked post u next,
    callingIntervals.stateAfter [0] 12 = some s ∧ callingIntervals.iterate s = .ok true s' ∧
    s.worklist.pop = some (⟨10⟩, worklist) ∧ s.items.get ⟨10⟩ = .ok item ∧
    (∃ l ∈ item.scopeLoops, ∃ d, s.layers.stored? item.currentLayer l.head = some d ∧
      l.snapshot.isSubset d = true) ∧
    callingIntervals.ComesToWiden s ⟨10⟩ item tracked post u ∧
    callingIntervals.transitions.entersScope item.action = false ∧
    (∀ v, callingIntervals.widen ⟨10⟩ tracked post u ≠ .ok none v) ∧
    s'.items.get ⟨12⟩ = .ok next ∧ next.predecessor = some ⟨10⟩ ∧
    (s.layers.stored? next.currentLayer
      (callingIntervals.transitions.target item.action)).isSome ∧
    Enlarged s.layers s'.layers next.currentLayer
      (callingIntervals.transitions.target item.action) := by
  have hcheck : (callingIntervals.stateAfter [0] 13).any (fun s' =>
      (s'.items.get ⟨12⟩).toOption.any fun next => next.predecessor = some ⟨10⟩ &&
        next.currentLayer = Layers.root) = true := by
    decide +kernel
  have hbefore : (callingIntervals.stateAfter [0] 12).any (fun s =>
      s.worklist.pop.any (fun pair => pair.1 = ⟨10⟩) && callingIntervals.widensNext s &&
        (s.layers.stored? Layers.root 4).isSome &&
        (s.items.get ⟨10⟩).toOption.any fun item => !item.scopeLoops.isEmpty &&
          !callingIntervals.transitions.entersScope item.action &&
          callingIntervals.transitions.target item.action = 4) = true := by
    decide +kernel
  obtain ⟨s', hs', -, hcheck⟩ := exists_of_stateAfter hcheck
  obtain ⟨next, hnext, hcheck⟩ := exists_of_checkItem hcheck
  obtain ⟨s, hs, hiterate⟩ := iterate_of_stateAfter hs'
  rw [hs, Option.any_some] at hbefore
  simp only [Bool.and_eq_true, decide_eq_true_eq] at hcheck hbefore
  obtain ⟨hpredecessor, hlayer⟩ := hcheck
  obtain ⟨⟨⟨hpop, hwidens⟩, hstored⟩, hitem⟩ := hbefore
  obtain ⟨item, hget, hitem⟩ := exists_of_checkItem hitem
  simp only [Bool.and_eq_true, decide_eq_true_eq, Bool.not_eq_true', List.isEmpty_eq_false_iff]
    at hitem
  obtain ⟨⟨hloops, hstays⟩, htarget⟩ := hitem
  obtain ⟨id, worklist, item', tracked, post, u, hpop', hcomes⟩ := exists_of_widensNext hwidens
  rw [hpop', Option.any_some, decide_eq_true_eq] at hpop
  subst hpop
  have hsame : item' = item := by
    obtain ⟨_, _, _, _, -, hget', -⟩ := hcomes
    exact Except.ok.inj (hget'.symm.trans hget)
  subst hsame
  obtain ⟨l, hl⟩ := List.exists_mem_of_ne_nil _ hloops
  obtain ⟨hsnapshots, hlate, hsuccessors⟩ := progress_of_reachable (p := callingLoop) ⟨_, rfl⟩ rfl
    rfl IntervalState.domain_lawful (reachable_of_stateAfter hs)
  refine ⟨s, s', worklist, item', tracked, post, u, next, hs, hiterate, hpop', hget,
    ⟨l, hl, hsnapshots ⟨10⟩ item' hget l hl⟩, hcomes, hstays,
    (hlate _ _ _ _ _ hcomes).1 hstays, hnext, hpredecessor, ?_,
    hsuccessors s' ⟨10⟩ worklist item' ⟨12⟩ next hiterate hpop' hget hnext hpredecessor⟩
  rw [hlayer, htarget]
  exact hstored

end Engine

end Interproc
