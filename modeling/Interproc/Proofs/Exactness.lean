/-
  Interproc.Proofs.Exactness
  ──────────────────────────
  Computations that lose nothing.  Where no action enters or leaves a scope, no
  states are widened and no disjunction gets too wide, a computation does nothing
  but apply actions to states.  So what it stores are the ends of chains of states,
  each of which an action makes of the one before, and every such chain ends below
  something that is stored.  There is one exception: a fresh state that is bottom is
  not kept, so nothing is stored then, whatever actions would make of it.

  Main result: `Engine.chains_of_rootState`.
-/
import Mathlib
import Interproc.Proofs.Soundness
import Interproc.Proofs.Traces
import Interproc.Residue.Set

namespace Interproc

variable {L A S : Type}

variable [AbstractState S] in
/-- Actions make greater states of greater ones, and only bottom is below bottom. -/
structure Domain.Monotone (domain : Domain A S) : Prop where
  post_below : ∀ {s t a us vs u}, isBelow s t = true → domain.post s a = .ok us →
    domain.post t a = .ok vs → u ∈ us → isBottom u = false → ∃ v ∈ vs, isBelow u v = true
  bottom_of_below : ∀ {s t : S}, isBelow s t = true → isBottom t = true → isBottom s = true

theorem IntervalState.domain_monotone : IntervalState.domain.Monotone where
  post_below {s t a us vs u} hbelow hus hvs hu _ := by
    cases hus
    cases hvs
    exact IntervalState.post_mono hbelow hu
  bottom_of_below := GroundedState.bottom_of_below

instance : PreorderedState ResidueSet where
  below_self _ := SortedSet.isSubset_iff.mpr fun _ hx => hx
  below_of_below hst htu := SortedSet.isSubset_iff.mpr fun x hx =>
    SortedSet.isSubset_iff.mp htu x (SortedSet.isSubset_iff.mp hst x hx)

/-- Transfer functions make greater sets of residues of greater ones. -/
theorem ResidueSet.domain_monotone (transfer : A → Transfer) (widening : Widening) :
    (ResidueSet.domain transfer widening).Monotone where
  post_below {s t a us vs u} hbelow hus hvs hu _ := by
    have hmem := SortedSet.isSubset_iff.mp hbelow
    change (transfer a).apply s none = .ok us at hus
    change (transfer a).apply t none = .ok vs at hvs
    generalize transfer a = f at hus hvs
    cases f with
    | identity | restore | union =>
      cases hus
      cases hvs
      cases List.mem_singleton.mp hu
      exact ⟨t, List.mem_cons_self, hbelow⟩
    | add k =>
      cases hus
      cases hvs
      cases List.mem_singleton.mp hu
      refine ⟨_, List.mem_cons_self, SortedSet.isSubset_iff.mpr fun x hx => ?_⟩
      simp only [ofList, SortedSet.mem_ofList, List.mem_map] at hx ⊢
      obtain ⟨n, ⟨y, hy, hn⟩, hx⟩ := hx
      exact ⟨n, ⟨y, hmem y hy, hn⟩, hx⟩
    | keep kept =>
      cases hus
      cases hvs
      cases List.mem_singleton.mp hu
      refine ⟨_, List.mem_cons_self, SortedSet.isSubset_iff.mpr fun x hx => ?_⟩
      rw [SortedSet.mem_inter] at hx ⊢
      exact ⟨hmem x hx.1, hx.2⟩
    | const k =>
      cases hus
      cases hvs
      exact ⟨u, hu, below_self u⟩
    | split =>
      cases hus
      cases hvs
      obtain ⟨x, hx, rfl⟩ := List.mem_map.mp hu
      exact ⟨_, List.mem_map_of_mem (hmem x hx), below_self _⟩
    | fail reason => cases hus
  bottom_of_below {s t} hbelow ht := by
    have hempty : t.members.toList = [] := List.isEmpty_iff.mp ht
    refine List.isEmpty_iff.mpr (List.eq_nil_iff_forall_not_mem.mpr fun x hx => ?_)
    have hx' : x ∈ t.members.toList := SortedSet.isSubset_iff.mp hbelow x hx
    rw [hempty] at hx'
    cases hx'

/-! ## §1. Applying actions to disjunctions. -/

namespace Disjunction

variable [AbstractState S]
variable {d post : Disjunction S} {domain : Domain A S} {action : A} {width : Nat}
variable {posts : List (List S)}

theorem post_eq (hpost : d.post domain action width = .ok post)
    (hposts : d.states.mapM (fun s => domain.post s action) = .ok posts) :
    post = ofStates posts.flatten width := by
  obtain ⟨posts', hposts', hdef⟩ := except_bind_eq_ok.mp hpost
  rw [hposts] at hposts'
  cases hposts'
  exact (Except.ok.inj hdef).symm

/-- As long as the states after an action are few enough, they are what the action makes of the
states before it. -/
theorem mem_of_post (hpost : d.post domain action width = .ok post)
    (hposts : d.states.mapM (fun s => domain.post s action) = .ok posts)
    (hfew : (bottom.addAll posts.flatten).states.length ≤ max width 1) :
    ∀ t ∈ post.states, ∃ s ∈ d.states, ∃ ts, domain.post s action = .ok ts ∧ t ∈ ts := by
  intro t ht
  rw [post_eq hpost hposts, ofStates, reduce_of_length hfew] at ht
  obtain hnone | ht := mem_addAll ht
  · cases hnone
  · obtain ⟨ts, hts, ht⟩ := List.mem_flatten.mp ht
    obtain ⟨s, hs, happlied⟩ := Engine.exists_of_forall₂ (forall₂_of_mapM hposts) hts
    exact ⟨s, hs, ts, happlied, ht⟩

/-- As long as the states after an action are few enough, they cover all that the action makes of
the states before it. -/
theorem covers_of_post [PreorderedState S] (hpost : d.post domain action width = .ok post)
    (hposts : d.states.mapM (fun s => domain.post s action) = .ok posts)
    (hfew : (bottom.addAll posts.flatten).states.length ≤ max width 1) :
    ∀ s ∈ d.states, ∃ ts, domain.post s action = .ok ts ∧
      ∀ t ∈ ts, Interproc.isBottom t = false → post.Covers t := by
  intro s hs
  obtain ⟨ts, hts, happlied⟩ := Engine.exists_of_forall₂_left (forall₂_of_mapM hposts) hs
  refine ⟨ts, happlied, fun t ht hproper => ?_⟩
  rw [post_eq hpost hposts, ofStates, reduce_of_length hfew]
  exact covers_addAll_of_mem (List.mem_flatten.mpr ⟨ts, hts, ht⟩) hproper

end Disjunction

variable [DecidableEq L] [AbstractState S] in
theorem Layers.Keeps.of_below [PreorderedState S] {m : Layers L A S} {layer : LayerId} {l : L}
    {t u : S} (h : m.Keeps layer l u) (hbelow : isBelow t u = true) : m.Keeps layer l t := by
  obtain ⟨d, hd, hcovers⟩ := h
  exact ⟨d, hd, hcovers.of_below hbelow⟩

namespace Engine

variable {e : Engine L A S} {s s' : RunState L A S} {id : ItemId} {item final : Item L A S}
variable {post : Disjunction S} {starts : List L}

/-! ## §2. Chains of states. -/

section Chains

variable [AbstractState S]

variable (e) in
/-- States that are reached along a path: the last of a chain of states that starts with the fresh
one at a start, in which each other state is one of those that an action of the path makes of the
state before, and is not bottom. -/
inductive Unfolds (starts : List L) : L → S → Prop where
  | first {l : L} {a : A} {t : S} {ts : List S} (hl : l ∈ starts)
      (ha : a ∈ e.transitions.actionsFrom l) (hts : e.domain.post e.domain.fresh a = .ok ts)
      (ht : t ∈ ts) (hproper : isBottom t = false) : Unfolds starts (e.transitions.target a) t
  | next {l : L} {a : A} {s t : S} {ts : List S} (h : Unfolds starts l s)
      (ha : a ∈ e.transitions.actionsFrom l) (hts : e.domain.post s a = .ok ts) (ht : t ∈ ts)
      (hproper : isBottom t = false) : Unfolds starts (e.transitions.target a) t

variable (e) in
/-- A state is the fresh one at a start, or it is reached along a path.  Nothing arises from a fresh
state that is bottom. -/
structure Arises (starts : List L) (l : L) (t : S) : Prop where
  fresh : isBottom e.domain.fresh = false
  chain : t = e.domain.fresh ∧ l ∈ starts ∨ e.Unfolds starts l t

theorem Arises.next {l : L} {a : A} {s t : S} {ts : List S} (h : e.Arises starts l s)
    (ha : a ∈ e.transitions.actionsFrom l) (hts : e.domain.post s a = .ok ts) (ht : t ∈ ts)
    (hproper : isBottom t = false) : e.Arises starts (e.transitions.target a) t := by
  refine ⟨h.fresh, .inr ?_⟩
  obtain ⟨rfl, hl⟩ | h := h.chain
  · exact .first hl ha hts ht hproper
  · exact .next h ha hts ht hproper

variable [DecidableEq L] [DecidableEq A]

variable (e) in
/-- The disjunctions that are put together while the next item is processed, as they are before
they are bounded: the states after its action, and these with what is stored at its target.  (The
states before the action are bounded already.) -/
inductive Builds (s : RunState L A S) : Disjunction S → Prop where
  | post {id : ItemId} {worklist : Worklist} {item : Item L A S} {posts : List (List S)}
      (hpop : s.worklist.pop = some (id, worklist)) (hget : s.items.get id = .ok item)
      (hposts : item.pre.states.mapM (fun t => e.domain.post t item.action) = .ok posts) :
      Builds s (Disjunction.bottom.addAll posts.flatten)
  | stored {id : ItemId} {worklist : Worklist} {item : Item L A S} {post : Disjunction S}
      (hpop : s.worklist.pop = some (id, worklist)) (hget : s.items.get id = .ok item)
      (hpost : e.evaluate item = .ok post) (hcovered : e.covers s.layers item post = .ok false) :
      Builds s (((s.layers.stored? item.currentLayer (e.transitions.target item.action)).getD
        .bottom).addAll post.states)

variable (e) in
/-- No disjunction that is put together in a computation has to be bounded. -/
def Unbounded (starts : List L) : Prop :=
  ∀ n s, e.stateAfter starts n = some s → ∀ d, e.Builds s d →
    d.states.length ≤ e.options.maxParallelStates

end Chains

/-! ## §3. Computations without scopes. -/

variable (e) in
/-- All that is to be known about control flow without scopes: actions are interpreted where they
are, and every action that leaves a location follows every one that leads there. -/
structure Flat : Prop where
  enters : ∀ {l a}, a ∈ e.transitions.actionsFrom l → e.transitions.entersScope a = false
  direct : ∀ {l a}, a ∈ e.transitions.actionsFrom l → e.Direct a
  follows : ∀ {a b scope}, b ∈ e.transitions.following a scope →
    b ∈ e.transitions.actionsFrom (e.transitions.target a)
  goesOn : ∀ {a b}, b ∈ e.transitions.actionsFrom (e.transitions.target a) →
    b ∈ e.transitions.following a none

variable (e) in
/-- An item outside of any scope. -/
structure Shallow (item : Item L A S) : Prop where
  action : item.action ∈ e.transitions.actionsFrom (e.transitions.source item.action)
  scopes : item.scopes = []
  layer : item.rootLayer = Layers.root
  summary : item.summary = none

variable (e) in
/-- All items are outside of any scope, and no call waits for an exit. -/
structure Level (s : RunState L A S) : Prop where
  items : ∀ j i, s.items.get j = .ok i → e.Shallow i
  calls : ∀ layer, (s.exits.activation layer).calls = []

theorem Shallow.currentLayer (h : e.Shallow item) : item.currentLayer = Layers.root := by
  unfold Item.currentLayer
  rw [h.scopes, h.layer]
  rfl

theorem Shallow.landing (hflat : e.Flat) (h : e.Shallow item) :
    e.landing item = Layers.root := by
  have hstays : e.leaves item = false := (hflat.direct h.action).1 _
  unfold Engine.landing
  rw [hstays]
  exact h.currentLayer

variable [DecidableEq L]

theorem Shallow.advanced (h : e.Shallow item) : e.Shallow (e.advanced item) := by
  obtain ⟨loops, hadvanced⟩ := e.advanced_eq item
  rw [hadvanced]
  refine ⟨h.action, ?_, h.layer, h.summary⟩
  simp [h.scopes]

/-- Items outside of any scope go on along every action that leaves the target of theirs. -/
theorem Shallow.mem_goesOn (hflat : e.Flat) (h : e.Shallow item) {a : A}
    (ha : a ∈ e.transitions.actionsFrom (e.transitions.target item.action)) :
    a ∈ e.goesOn (e.advanced item) := by
  refine List.mem_filter.mpr ⟨?_, ?_⟩
  · unfold Item.currentScope
    rw [h.advanced.scopes, advanced_action]
    exact hflat.goesOn ha
  · rw [(hflat.direct ha).2]
    rfl

theorem Shallow.moves (hflat : e.Flat) (h : e.Shallow item) {n n' : Nat}
    (hmoves : e.Moves item n final n') : e.Shallow final := by
  cases hmoves with
  | advanced => exact h.advanced
  | entered henters =>
    rw [hflat.enters h.action] at henters
    cases henters

variable [DecidableEq A] [AbstractState S]

omit [DecidableEq L] in
/-- Items outside of any scope do not step over calls. -/
theorem Shallow.evaluate (h : e.Shallow item) {summaries : Summaries A S}
    (hpost : e.PostPart id item s post summaries) : e.evaluate item = .ok post := by
  cases hpost with
  | interpreted _ hevaluate => exact hevaluate
  | summarised hsummary =>
    rw [h.summary] at hsummary
    cases hsummary

theorem Level.pass (hc : e.Coherent) (hflat : e.Flat) (hs : e.Orderly s) (hs' : e.Orderly s')
    (h : e.Level s) (hpass : e.Pass id item post final s s') : e.Level s' := by
  have hitem := h.items id item hpass.get
  have hcalls : ∀ layer, (s'.exits.activation layer).calls = [] := by
    intro layer
    refine List.eq_nil_iff_forall_not_mem.mpr fun c hcall => ?_
    obtain ⟨call, hget⟩ := hs'.tidy.live_of_held (j := c) (by
      have := Exits.held_pos_of_call hcall
      omega)
    obtain ⟨hbefore, -⟩ | ⟨-, -, henters, -⟩ := hpass.call_cases hs hs' hcall hget
    · rw [h.calls layer] at hbefore
      cases hbefore
    · rw [hflat.enters hitem.action] at henters
      cases henters
  have hfinal : e.Shallow final := by
    cases hpass with
    | intro _ _ _ _ hend =>
      obtain ⟨rfl, -⟩ | hmoves := hend.final_cases
      · exact hitem
      · exact hitem.moves hflat hmoves
  refine ⟨fun j i hi => ?_, hcalls⟩
  cases hpass.origin hs hs' hi with
  | @returned layer x c call hexit hcall hget =>
    -- Exits go to calls that wait, and there are none.
    rw [hcalls layer] at hcall
    cases hcall
  | @redone k p stale q hstale _ _ hsummary =>
    rw [(h.items k stale hstale).summary] at hsummary
    cases hsummary
  | @successor widened action hstores hmem =>
    have hfollows := List.mem_of_mem_filter hmem
    have hleaves := hflat.follows hfollows
    rw [successorOf_of_stays (hflat.enters hleaves)]
    refine ⟨?_, hfinal.scopes, hfinal.layer, rfl⟩
    show action ∈ e.transitions.actionsFrom (e.transitions.source action)
    rw [hc.source_of_following hfollows]
    exact hleaves
  | final => exact hfinal
  | old _ hold => exact h.items j i hold

omit [DecidableEq A] in
theorem Level.seed (hc : e.Coherent) (h : e.Level s) {location : L} {action : A}
    (haction : action ∈ e.transitions.actionsFrom location)
    (hseed : e.SeedPart location action s s') : e.Level s' := by
  obtain ⟨state, stored, layers, id, -, -, hgrows⟩ := hseed
  refine ⟨fun j i hi => ?_, fun layer => ?_⟩
  · obtain ⟨rfl, rfl⟩ | ⟨hold, -⟩ := hgrows.old_singleton hi
    · refine ⟨?_, rfl, rfl, rfl⟩
      show action ∈ e.transitions.actionsFrom (e.transitions.source action)
      rw [hc.source_of_actionsFrom haction]
      exact haction
    · exact h.items j i hold
  · rw [hgrows.unmoved.exits]
    exact h.calls layer

theorem Reachable.level (hc : e.Coherent) (hflat : e.Flat) (h : e.Reachable starts s) :
    e.Level s :=
  (h.induct ⟨fun _ _ hi => (nomatch hi), fun _ => rfl⟩
    (fun _ _ _ ha _ _ _ hseed hs => hs.seed hc ha hseed)
    fun _ _ _ _ _ _ hs hs' hpass hlevel => hlevel.pass hc hflat hs hs' hpass).2

/-! ## §4. What one pass does. -/

variable (e) in
/-- The states after an item's action are what the action makes of the states before it. -/
structure Applied (item : Item L A S) (post : Disjunction S) : Prop where
  proper : post.Proper
  made : ∀ t ∈ post.states, ∃ s ∈ item.pre.states, ∃ ts,
    e.domain.post s item.action = .ok ts ∧ t ∈ ts
  covers : ∀ s ∈ item.pre.states, ∃ ts, e.domain.post s item.action = .ok ts ∧
    ∀ t ∈ ts, isBottom t = false → post.Covers t

theorem Pass.applied [PreorderedState S] (hflat : e.Flat) (hnone : e.declarations = .none)
    (hitem : e.Shallow item) (hpre : item.pre.Normal e.options.maxParallelStates)
    (hfew : ∀ d, e.Builds s d → d.states.length ≤ max e.options.maxParallelStates 1)
    (hpass : e.Pass id item post final s s') : e.Applied item post := by
  cases hpass with
  | intro hpop hget _ hpost =>
    have hevaluate := hitem.evaluate hpost
    have happly := post_of_evaluate hnone (hflat.direct hitem.action) hpre hevaluate
    obtain ⟨posts, hposts, -⟩ := except_bind_eq_ok.mp happly
    have hlength := hfew _ (.post hpop hget hposts)
    exact ⟨proper_of_evaluate hevaluate, Disjunction.mem_of_post happly hposts hlength,
      Disjunction.covers_of_post happly hposts hlength⟩

variable (e) in
/-- What a pass without scopes, widening and bounds does to what is stored: nothing, if it covers
the states after the action; or these are added, and carried along every action that follows. -/
inductive FlatPass (item : Item L A S) (post : Disjunction S) (s s' : RunState L A S) : Prop where
  | covered (hlayers : s'.layers = s.layers)
      (hcovered : ∀ t ∈ post.states,
        s.layers.Keeps Layers.root (e.transitions.target item.action) t)
  | added (hstored : ∀ l, s'.layers.stored? Layers.root l =
        if l = e.transitions.target item.action then
          some (((s.layers.stored? Layers.root l).getD .bottom).addAll post.states)
        else s.layers.stored? Layers.root l)
      (hgoes : ∀ a ∈ e.transitions.actionsFrom (e.transitions.target item.action), ∃ i,
        s'.Waits i ∧ i.action = a ∧ i.pre = post)

/-- Without bounds, states are added to what is stored. -/
theorem Pass.flat [PreorderedState S] (hflat : e.Flat) (hitem : e.Shallow item)
    (hproper : post.Proper) (hwidth : s.layers.width = e.options.maxParallelStates)
    (hunwidened : s'.statistics.widenings = 0)
    (hfew : ∀ d, e.Builds s d → d.states.length ≤ max e.options.maxParallelStates 1)
    (hpass : e.Pass id item post final s s') : e.FlatPass item post s s' := by
  have hstays := hflat.enters hitem.action
  have hlanding := hitem.landing hflat
  cases hpass with
  | intro hpop hget hexit hpost hend hadded hframe =>
    cases hend with
    | infeasible hbottom _ _ hlayers =>
      refine .covered hlayers fun t ht => ?_
      have hnot := Disjunction.isBottom_iff.mp hbottom t ht
      rw [hproper t ht] at hnot
      cases hnot
    | covered _ hcovered _ _ _ hlayers =>
      obtain ⟨d, hd, hsub⟩ := holds_of_covers hstays hcovered
      rw [hlanding] at hd
      exact .covered hlayers fun t ht => ⟨d, hd, Disjunction.isSubset_iff.mp hsub t ht⟩
    | coveredCall _ _ henters =>
      rw [hstays] at henters
      cases henters
    | loopFixpoint _ _ _ _ _ _ _ hcount => omega
    | entryFixpoint _ _ _ _ _ _ _ _ hcount => omega
    | @stored widened stored layers changed previous redone _ hcovered _ hwiden henter
        hprevious hadd hchanged _ hnew =>
      obtain ⟨-, rfl⟩ | ⟨_, -, -, -, hcount⟩ := hwiden
      · obtain ⟨rfl, rfl⟩ := henter.stays (by rw [advanced_action]; exact hstays)
        obtain ⟨rfl, -⟩ := Layers.state?_eq_ok hprevious
        rw [advanced_currentLayer, hlanding] at hadd hchanged
        have hmerged := Layers.addState_ok hadd
        -- The bound does nothing, so what is stored is what was put together.
        have hlength := hfew _ (.stored hpop hget (hitem.evaluate hpost) hcovered)
        rw [hitem.currentLayer] at hlength
        have hstored : stored = ((s.layers.stored? Layers.root
            (e.transitions.target item.action)).getD .bottom).addAll widened.states := by
          rw [hmerged.stored_def, hwidth]
          exact Disjunction.reduce_of_length hlength
        -- Not being covered, the states change what is stored, so items follow.
        have hgrows : changed = true := by
          rw [hchanged]
          cases hold : s.layers.stored? Layers.root (e.transitions.target item.action) with
          | none => rfl
          | some previous =>
            have hsub : widened.isSubset stored = true := by
              rw [hstored]
              exact Disjunction.isSubset_iff.mpr fun t ht =>
                Disjunction.covers_addAll_of_mem ht (hproper t ht)
            rw [Option.all_some, not_isEquivalent_of_covers hstays hcovered (hlanding ▸ hold) hsub]
            rfl
        refine .added (fun l => ?_) fun a ha => ?_
        · rw [hmerged.stored_eq, hstored]
          by_cases hl : l = e.transitions.target item.action
          · simp [hl]
          · simp [hl]
        · refine ⟨.successor widened a id (e.advanced item),
            hframe.waits_of_mem hadded (List.mem_append_right _ ?_), rfl, rfl⟩
          rw [hnew, hgrows, if_pos rfl, ← successorOf_of_stays (hflat.enters ha)]
          exact List.mem_append_right _ (List.mem_map_of_mem (hitem.mem_goesOn hflat ha))
      · omega

/-! ## §5. Nothing is made up, and nothing is left out. -/

omit [DecidableEq A] in
theorem FlatPass.keeps [PreorderedState S] (h : e.FlatPass item post s s') {l : L} {t : S}
    (ht : s.layers.Keeps Layers.root l t) : s'.layers.Keeps Layers.root l t := by
  cases h with
  | covered hlayers => rwa [hlayers]
  | added hstored =>
    obtain ⟨d, hd, hcovers⟩ := ht
    unfold Layers.Keeps
    rw [hstored, hd]
    split
    · exact ⟨_, rfl, Disjunction.covers_addAll_of_covers _ hcovers⟩
    · exact ⟨d, rfl, hcovers⟩

omit [DecidableEq A] in
theorem FlatPass.keeps_post [PreorderedState S] (h : e.FlatPass item post s s')
    (hproper : post.Proper) {t : S} (ht : t ∈ post.states) :
    s'.layers.Keeps Layers.root (e.transitions.target item.action) t := by
  cases h with
  | covered hlayers hcovered =>
    rw [hlayers]
    exact hcovered t ht
  | added hstored =>
    unfold Layers.Keeps
    rw [hstored, if_pos rfl]
    exact ⟨_, rfl, Disjunction.covers_addAll_of_mem ht (hproper t ht)⟩

variable (e) in
/-- A state was passed on along an action: some item is about to do so, or the states after the
action are stored. -/
def PassesOn (s : RunState L A S) (a : A) (t : S) : Prop :=
  (∃ i, s.Waits i ∧ i.action = a ∧ t ∈ i.pre.states) ∨
    ∃ ts, e.domain.post t a = .ok ts ∧ ∀ u ∈ ts, isBottom u = false →
      s.layers.Keeps Layers.root (e.transitions.target a) u

theorem PassesOn.pass [PreorderedState S] {a : A} {t : S} (h : e.PassesOn s a t)
    (happlied : e.Applied item post) (hflat : e.FlatPass item post s s')
    (hpass : e.Pass id item post final s s') : e.PassesOn s' a t := by
  obtain ⟨i, ⟨j, hj, hi⟩, ha, ht⟩ | ⟨ts, hts, hkept⟩ := h
  · cases hpass with
    | intro _ hget _ _ _ _ hframe =>
      by_cases hid : j = id
      · -- The item that is processed now: what it leads to is stored afterwards.
        subst hid
        rw [hget] at hi
        cases hi
        subst ha
        obtain ⟨ts, hts, hcovers⟩ := happlied.covers t ht
        refine .inr ⟨ts, hts, fun u hu hproper => ?_⟩
        obtain ⟨v, hv, hbelow⟩ := hcovers u hu hproper
        exact (hflat.keeps_post happlied.proper hv).of_below hbelow
      · refine .inl ⟨i, ⟨j, (hframe.mem_pending j).mpr (.inl ⟨hj, hid⟩), ?_⟩, ha, ht⟩
        exact hframe.kept j i hj hid hi
  · exact .inr ⟨ts, hts, fun u hu hproper => hflat.keeps (hkept u hu hproper)⟩

variable (e) in
/-- All states before actions and all stored states are reached along paths, and all of them are
passed on along all actions. -/
structure Faithful (starts : List L) (s : RunState L A S) : Prop where
  items : ∀ j i, s.items.get j = .ok i → ∀ t ∈ i.pre.states,
    e.Arises starts (e.transitions.source i.action) t
  stored : ∀ l d, s.layers.stored? Layers.root l = some d → ∀ t ∈ d.states, e.Arises starts l t
  first : isBottom e.domain.fresh = false → ∀ l ∈ starts, ∀ a ∈ e.transitions.actionsFrom l,
    e.PassesOn s a e.domain.fresh
  passed : ∀ l d, s.layers.stored? Layers.root l = some d → ∀ t ∈ d.states,
    ∀ a ∈ e.transitions.actionsFrom l, e.PassesOn s a t

omit [DecidableEq A] in
/-- What is stored after a pass was stored before, or the action of the item led to it. -/
theorem FlatPass.mem_cases (h : e.FlatPass item post s s') {l : L} {d : Disjunction S} {t : S}
    (hd : s'.layers.stored? Layers.root l = some d) (ht : t ∈ d.states) :
    (∃ d', s.layers.stored? Layers.root l = some d' ∧ t ∈ d'.states) ∨
      l = e.transitions.target item.action ∧ t ∈ post.states ∧
        ∀ a ∈ e.transitions.actionsFrom l, ∃ i, s'.Waits i ∧ i.action = a ∧ i.pre = post := by
  cases h with
  | covered hlayers =>
    rw [hlayers] at hd
    exact .inl ⟨d, hd, ht⟩
  | added hstored hgoes =>
    rw [hstored] at hd
    split at hd
    · rename_i hl
      cases hd
      obtain hbefore | hmem := Disjunction.mem_addAll ht
      · cases hold : s.layers.stored? Layers.root l with
        | none =>
          rw [hold] at hbefore
          cases hbefore
        | some d' =>
          rw [hold] at hbefore
          exact .inl ⟨d', rfl, hbefore⟩
      · exact .inr ⟨hl, hmem, hl ▸ hgoes⟩
    · exact .inl ⟨d, hd, ht⟩

theorem Faithful.pass [PreorderedState S] (hc : e.Coherent) (hflat : e.Flat) (hs : e.Orderly s)
    (hs' : e.Orderly s') (hlevel : e.Level s') (hitem : e.Shallow item)
    (happlied : e.Applied item post) (hpart : e.FlatPass item post s s')
    (hunwidened : s'.statistics.widenings = 0) (h : e.Faithful starts s)
    (hpass : e.Pass id item post final s s') : e.Faithful starts s' := by
  have harises : ∀ t ∈ post.states, e.Arises starts (e.transitions.target item.action) t := by
    intro t ht
    obtain ⟨u, hu, ts, hts, hmem⟩ := happlied.made t ht
    exact (h.items id item hpass.get u hu).next hitem.action hts hmem (happlied.proper t ht)
  obtain ⟨⟨scopes, loops, hshape⟩, -⟩ := hpass.live
  refine ⟨fun j i hi t ht => ?_, fun l d hd t ht => ?_, fun hfresh l hl a ha => ?_,
    fun l d hd t ht a ha => ?_⟩
  · cases hpass.origin hs hs' hi with
    | @returned layer x c call hexit hcall hget =>
      rw [hlevel.calls layer] at hcall
      cases hcall
    | redone hstale => exact h.items _ _ hstale t ht
    | @successor widened action hstores hmem =>
      have hfollows := List.mem_of_mem_filter hmem
      rw [successorOf_of_stays (hflat.enters (hflat.follows hfollows))] at ht ⊢
      -- Nothing is widened, so the successor starts from the states after the action.
      obtain ⟨-, rfl⟩ | ⟨_, -, -, -, hcount⟩ := hstores.2.1
      · show e.Arises starts (e.transitions.source action) t
        rw [hc.source_of_following hfollows, hshape]
        exact harises t ht
      · omega
    | final =>
      rw [hshape] at ht ⊢
      exact h.items id item hpass.get t ht
    | old _ hold => exact h.items j i hold t ht
  · obtain ⟨d', hd', ht⟩ | ⟨rfl, ht, -⟩ := hpart.mem_cases hd ht
    · exact h.stored l d' hd' t ht
    · exact harises t ht
  · exact (h.first hfresh l hl a ha).pass happlied hpart hpass
  · obtain ⟨d', hd', ht⟩ | ⟨rfl, ht, hgoes⟩ := hpart.mem_cases hd ht
    · exact (h.passed l d' hd' t ht a ha).pass happlied hpart hpass
    · obtain ⟨i, hi, haction, hpre⟩ := hgoes a ha
      exact .inl ⟨i, hi, haction, hpre ▸ ht⟩

/-- Seeding stores the fresh state at starts, and nothing else. -/
structure Sown (e : Engine L A S) (starts : List L) (s : RunState L A S) : Prop where
  items : ∀ j i, s.items.get j = .ok i →
    i.pre = .single e.domain.fresh ∧ e.transitions.source i.action ∈ starts
  stored : ∀ l d, s.layers.stored? Layers.root l = some d →
    d = .single e.domain.fresh ∧ l ∈ starts

theorem Sown.seed [PreorderedState S] (hc : e.Coherent) (hnone : e.declarations = .none)
    (h : e.Sown starts s) {location : L} {action : A} (hlocation : location ∈ starts)
    (haction : action ∈ e.transitions.actionsFrom location)
    (hseed : e.SeedPart location action s s') : e.Sown starts s' := by
  obtain ⟨state, stored, layers, id, hstate, hadd, hgrows⟩ := hseed
  rw [hnone] at hstate
  obtain rfl : e.domain.fresh = state := Except.ok.inj hstate
  refine ⟨fun j i hi => ?_, fun l d hd => ?_⟩
  · obtain ⟨rfl, rfl⟩ | ⟨hold, -⟩ := hgrows.old_singleton hi
    · refine ⟨rfl, ?_⟩
      show e.transitions.source action ∈ starts
      rw [hc.source_of_actionsFrom haction]
      exact hlocation
    · exact h.items j i hold
  · have hmerged := Layers.addState_ok hadd
    rw [hgrows.unmoved.layers, hmerged.stored_eq] at hd
    split at hd
    · rename_i hl
      refine ⟨?_, hl.2 ▸ hlocation⟩
      cases hd
      rw [hmerged.stored_def]
      -- The fresh state is all that may be stored there already.
      cases hold : s.layers.stored? Layers.root location with
      | none =>
        have hnormal : (Disjunction.single e.domain.fresh).Normal s.layers.width :=
          Disjunction.normal_single _
        exact hnormal.ofStates_states
      | some d =>
        obtain ⟨rfl, -⟩ := h.stored location d hold
        exact Disjunction.merge_self (le_max_of_le_right (Disjunction.length_single _))
    · exact h.stored l d hd

theorem faithful_of_seed [PreorderedState S] (hc : e.Coherent) (hnone : e.declarations = .none)
    (h : e.seed starts (.start e.options) = .ok () s) : e.Faithful starts s := by
  have hsown : e.Sown starts s := (seed_induct
    ⟨fun _ _ hi => (nomatch hi), fun l d hd => by
      rw [show (RunState.start e.options : RunState L A S).layers.stored? Layers.root l = none from
        Layers.stored?_empty _] at hd
      cases hd⟩
    (fun l hl a ha s s' _ hseed hs => hs.seed hc hnone hl ha hseed) h).2
  have hfirst : isBottom e.domain.fresh = false → ∀ l ∈ starts,
      ∀ a ∈ e.transitions.actionsFrom l, e.PassesOn s a e.domain.fresh := by
    intro hfresh l hl a ha
    obtain ⟨state, hstate, hwaits⟩ := started_of_seed h l hl a ha
    rw [hnone] at hstate
    cases hstate
    refine .inl ⟨_, hwaits, rfl, ?_⟩
    show e.domain.fresh ∈ (Disjunction.single e.domain.fresh).states
    simp [Disjunction.single, Disjunction.add, Disjunction.bottom, hfresh]
  -- If the fresh state is bottom, there is no disjunct to speak of.
  have hmem : ∀ t ∈ (Disjunction.single e.domain.fresh).states,
      isBottom e.domain.fresh = false ∧ t = e.domain.fresh := by
    intro t ht
    have hproper := Disjunction.proper_single _ t ht
    rw [Disjunction.eq_of_mem_single ht] at hproper ⊢
    exact ⟨hproper, rfl⟩
  refine ⟨fun j i hi t ht => ?_, fun l d hd t ht => ?_, hfirst, fun l d hd t ht a ha => ?_⟩
  · obtain ⟨hpre, hstart⟩ := hsown.items j i hi
    rw [hpre] at ht
    obtain ⟨hfresh, rfl⟩ := hmem t ht
    exact ⟨hfresh, .inl ⟨rfl, hstart⟩⟩
  · obtain ⟨rfl, hl⟩ := hsown.stored l d hd
    obtain ⟨hfresh, rfl⟩ := hmem t ht
    exact ⟨hfresh, .inl ⟨rfl, hl⟩⟩
  · obtain ⟨rfl, hl⟩ := hsown.stored l d hd
    obtain ⟨hfresh, rfl⟩ := hmem t ht
    exact hfirst hfresh l hl a ha

/-- As long as nothing is widened and nothing has to be bounded, a computation is faithful. -/
theorem faithful_of_stateAfter [PreorderedState S] (hc : e.Coherent) (hflat : e.Flat)
    (hnone : e.declarations = .none) (hfew : e.Unbounded starts) {n : Nat}
    (h : e.stateAfter starts n = some s) (hunwidened : s.statistics.widenings = 0) :
    e.Faithful starts s := by
  induction n generalizing s with
  | zero => exact faithful_of_seed hc hnone (stateAfter_zero.mp h)
  | succ n ih =>
    obtain ⟨t, ht, hiterate⟩ := iterate_of_stateAfter h
    have hreachable := reachable_of_stateAfter ht
    obtain ⟨hs', id, item, post, final, hpass⟩ := hreachable.orderly.pass hiterate
    have hcount : t.statistics.widenings ≤ s.statistics.widenings := by
      cases hpass
      assumption
    have hnormal := hreachable.sustained e.sustains_normal
    have hitem := (hreachable.level hc hflat).items id item hpass.get
    have hpre := (hnormal.items id item hpass.get).pre
    have hwidth := fun d (hd : e.Builds t d) => (hfew n t ht d hd).trans (le_max_left _ 1)
    have happlied := hpass.applied hflat hnone hitem hpre hwidth
    have hpart := hpass.flat hflat hitem happlied.proper hnormal.width hunwidened hwidth
    exact (ih ht (by omega)).pass hc hflat hreachable.orderly hs'
      ((hreachable.iterated hiterate).level hc hflat) hitem happlied hpart hunwidened hpass

/-! ## §6. Programs. -/

omit [DecidableEq A] in
/-- Where no item is left, everything that is reached along a path is below something stored, as
long as the fresh state is not bottom. -/
theorem Faithful.keeps [PreorderedState S] (hmono : e.domain.Monotone)
    (h : e.Faithful starts s) (hpending : s.pending = [])
    (hfresh : isBottom e.domain.fresh = false) {l : L} {t : S} (ht : e.Unfolds starts l t) :
    s.layers.Keeps Layers.root l t := by
  -- No item waits any more, so whatever was to be passed on is stored.
  have hdone : ∀ {a t}, e.PassesOn s a t → ∃ ts, e.domain.post t a = .ok ts ∧
      ∀ u ∈ ts, isBottom u = false → s.layers.Keeps Layers.root (e.transitions.target a) u := by
    intro a t hpasses
    obtain ⟨i, ⟨j, hj, -⟩, -⟩ | hstored := hpasses
    · rw [hpending] at hj
      cases hj
    · exact hstored
  induction ht with
  | @first l a t ts hl ha hts ht hproper =>
    obtain ⟨ts', hts', hkeeps⟩ := hdone (h.first hfresh l hl a ha)
    rw [hts] at hts'
    cases hts'
    exact hkeeps t ht hproper
  | @next l a s t ts _ ha hts ht hproper ih =>
    -- The chain may have been cut short by a greater state; the action makes more of that one.
    obtain ⟨d, hd, u, hu, hbelow⟩ := ih
    obtain ⟨us, hus, hkeeps⟩ := hdone (h.passed l d hd u hu a ha)
    obtain ⟨v, hv, htv⟩ := hmono.post_below hbelow hts hus ht hproper
    have hv' : isBottom v = false := by
      by_contra hbottom
      rw [hmono.bottom_of_below htv (Bool.not_eq_false _ ▸ hbottom)] at hproper
      cases hproper
    exact (hkeeps v hv hv').of_below htv

omit [DecidableEq L] [DecidableEq A] [AbstractState S] in
theorem flat_of_kind {T : Type} [DecidableEq T] {p : Program T} {e : Engine Nat (Transition T) S}
    (htransitions : e.transitions = p.transitions)
    (hkinds : ∀ t ∈ p.allTransitions, t.kind = .internal ∨ t.kind = .summary false) : e.Flat := by
  have hkind : ∀ {l a}, a ∈ e.transitions.actionsFrom l →
      a.kind = .internal ∨ a.kind = .summary false := by
    intro l a ha
    rw [htransitions] at ha
    exact hkinds a (Program.mem_allTransitions ha)
  refine ⟨fun ha => ?_, fun ha => ?_, fun {a b scope} hb => ?_, fun {a b} hb => ?_⟩
  · rw [htransitions]
    obtain hkind | hkind := hkind ha
    · simp [Program.transitions, Transition.isCall, hkind]
    · simp [Program.transitions, Transition.isCall, hkind]
  · refine direct_of_kind htransitions (fun callSite hret => ?_) fun hsummary => ?_
    · obtain hkind | hkind := hkind ha
      · rw [hkind] at hret
        cases hret
      · rw [hkind] at hret
        cases hret
    · obtain hkind | hkind := hkind ha
      · rw [hkind] at hsummary
        cases hsummary
      · rw [hkind] at hsummary
        cases hsummary
  · rw [htransitions] at hb ⊢
    exact List.mem_of_mem_filter hb
  · have hb' := hkind hb
    rw [htransitions] at hb ⊢
    refine List.mem_filter.mpr ⟨hb, ?_⟩
    obtain hkind | hkind := hb'
    · rw [hkind]
    · rw [hkind]

/-- Where a computation over a program without calls and returns ends without widening, and without
bounding any disjunction, the states stored for a location are the fresh one, if it is a start, and
ends of chains of states along paths from a start to it.  If the fresh state is not bottom, every
such chain ends below one of them; if it is bottom, no states are stored anywhere. -/
theorem chains_of_rootState {T : Type} [DecidableEq T] [PreorderedState S] {p : Program T}
    (hp : p.Built) {table : LoopTable} {e : Engine Nat (Transition T) S}
    (htransitions : e.transitions = p.transitions) (hloops : e.entersLoop = table.isEntered)
    (hkinds : ∀ t ∈ p.allTransitions, t.kind = .internal ∨ t.kind = .summary false)
    (hnone : e.declarations = .none) (hmono : e.domain.Monotone) {budget : Nat}
    {starts : List Nat} {answer : Answer Nat (Transition T) S} {s : RunState Nat (Transition T) S}
    (hrun : e.run budget starts = .ok answer s) (hunwidened : answer.statistics.widenings = 0)
    (hfew : e.Unbounded starts) (l : Nat) :
    (∀ d, answer.rootState l = some d → ∀ t ∈ d.states,
      t = e.domain.fresh ∧ l ∈ starts ∨ e.Unfolds starts l t) ∧
    (isBottom e.domain.fresh = false → ∀ t, e.Unfolds starts l t →
      ∃ d, answer.rootState l = some d ∧ ∃ u ∈ d.states, isBelow t u = true) ∧
    (isBottom e.domain.fresh = true → ∀ d, answer.rootState l = some d → d.states = []) := by
  obtain ⟨_, n, s, -, -, hn, hpending, rfl⟩ := stateAfter_of_run hrun
  have hfaithful := faithful_of_stateAfter (hp.coherent htransitions hloops)
    (flat_of_kind htransitions hkinds) hnone hfew hn hunwidened
  refine ⟨fun d hd t ht => (hfaithful.stored l d hd t ht).chain,
    fun hfresh t ht => hfaithful.keeps hmono hpending hfresh ht, fun hbottom d hd => ?_⟩
  refine List.eq_nil_iff_forall_not_mem.mpr fun t ht => ?_
  rw [(hfaithful.stored l d hd t ht).fresh] at hbottom
  cases hbottom

variable (e) in
/-- Whether nothing that is put together while the next item is processed is too wide. -/
def nextFits (s : RunState L A S) : Bool :=
  match s.worklist.pop with
  | none => true
  | some (id, _) =>
    match s.items.get id with
    | .error _ => true
    | .ok item =>
      (match item.pre.states.mapM fun t => e.domain.post t item.action with
        | .error _ => true
        | .ok posts => decide ((Disjunction.bottom.addAll posts.flatten).states.length
            ≤ e.options.maxParallelStates)) &&
      match e.evaluate item with
      | .error _ => true
      | .ok post => decide ((((s.layers.stored? item.currentLayer
          (e.transitions.target item.action)).getD .bottom).addAll post.states).states.length
            ≤ e.options.maxParallelStates)

theorem le_of_nextFits (h : e.nextFits s = true) {d : Disjunction S} (hd : e.Builds s d) :
    d.states.length ≤ e.options.maxParallelStates := by
  unfold nextFits at h
  cases hd with
  | post hpop hget hposts =>
    simp only [hpop, hget, hposts, Bool.and_eq_true, decide_eq_true_eq] at h
    exact h.1
  | stored hpop hget hpost =>
    simp only [hpop, hget, hpost, Bool.and_eq_true, decide_eq_true_eq] at h
    exact h.2

theorem unbounded_of_nextFits {budget : Nat}
    (h : e.holdsThroughout (fun _ => e.nextFits) budget starts = true) : e.Unbounded starts := by
  intro n s hs d hd
  obtain ⟨_, -, hnext⟩ := check_of_holdsThroughout h hs
  exact le_of_nextFits hnext hd

/-- A loop that is left after two rounds. -/
def counting : Program Statement := .ofAdditions
  [.procedure "main", .node "main", .node "main", .internal 0 2 (.assign "x" 0),
    .internal 2 3 (.assumeLessThan "x" 2), .internal 3 2 (.add "x" 1),
    .internal 2 1 (.assumeAtLeast "x" 2)]

/-- The interval analysis of `counting`, which unwinds the loop often enough. -/
def countingIntervals : Engine Nat (Transition Statement) IntervalState :=
  counting.intervals (counting.loopTable.toOption.getD ⟨.empty⟩)
    ⟨3, 3, .fifo, false, Nat.succ_pos 2, Nat.succ_pos 2⟩

set_option maxRecDepth 100000 in
/-- The three values that the variable has at the head of the loop are told apart. -/
theorem chains_of_rootState_counting : ∃ answer s d,
    isBottom countingIntervals.domain.fresh = false ∧
    countingIntervals.run 40 [0] = .ok answer s ∧ answer.statistics.widenings = 0 ∧
    countingIntervals.Unbounded [0] ∧ answer.rootState 2 = some d ∧ d.states.length = 3 ∧
    (∀ t ∈ d.states, t = .unconstrained ∧ 2 ∈ [0] ∨ countingIntervals.Unfolds [0] 2 t) ∧
    ∀ t, countingIntervals.Unfolds [0] 2 t → ∃ u ∈ d.states, isBelow t u = true := by
  have hanswers : countingIntervals.answers 40 [0] (fun answer =>
      decide (answer.statistics.widenings = 0) &&
        (answer.rootState 2).any fun d => decide (d.states.length = 3)) = true := by
    decide +kernel
  have hcheck : countingIntervals.holdsThroughout (fun _ => countingIntervals.nextFits) 40 [0]
      = true := by decide +kernel
  have hfew := unbounded_of_nextFits hcheck
  obtain ⟨answer, s, hrun, hanswer⟩ := exists_of_answers hanswers
  rw [Bool.and_eq_true, decide_eq_true_eq] at hanswer
  obtain ⟨d, hd, hlength⟩ := (Option.any_eq_true _ _).mp hanswer.2
  have hloops : countingIntervals.entersLoop =
    (counting.loopTable.toOption.getD ⟨.empty⟩).isEntered := rfl
  obtain ⟨harise, hbelow, -⟩ := chains_of_rootState (p := counting) ⟨_, rfl⟩ rfl hloops
    (by decide +kernel) rfl IntervalState.domain_monotone hrun hanswer.1 hfew 2
  refine ⟨answer, s, d, rfl, hrun, hanswer.1, hfew, hd, of_decide_eq_true hlength, harise d hd,
    fun t ht => ?_⟩
  obtain ⟨d', hd', hu⟩ := hbelow rfl t ht
  rw [hd] at hd'
  cases hd'
  exact hu

/-- A program of one transition, which leaves a single residue, whatever is there before it. -/
def constant : Program ResidueSet.Transfer := .ofAdditions
  [.procedure "main", .internal 0 1 (.const 1)]

/-- The analysis of `constant` by sets of residues that starts from the empty set, which is
bottom. -/
def constantResidues : Engine Nat (Transition ResidueSet.Transfer) ResidueSet where
  transitions := constant.transitions
  domain := { ResidueSet.domain Transition.statement .standard with fresh := .ofList [] }
  declarations := .none
  entersLoop := (constant.loopTable.toOption.getD ⟨.empty⟩).isEntered
  options := ⟨1, 1, .fifo, false, Nat.one_pos, Nat.one_pos⟩
  timer := .unbounded

set_option maxRecDepth 100000 in
/-- The transition makes a residue of the empty set, but nothing is stored where it leads: as a
bottom, the fresh state is dropped before the transition is applied to it. -/
theorem not_chains_of_rootState_constant : constant.Built ∧
    (∀ t ∈ constant.allTransitions, t.kind = .internal ∨ t.kind = .summary false) ∧
    constantResidues.domain.Monotone ∧ ∃ answer s,
      constantResidues.run 40 [0] = .ok answer s ∧ answer.statistics.widenings = 0 ∧
      constantResidues.Unbounded [0] ∧ constantResidues.Unfolds [0] 1 (.ofList [1]) ∧
      answer.rootState 1 = none := by
  have hanswers : constantResidues.answers 40 [0] (fun answer =>
      decide (answer.statistics.widenings = 0) && (answer.rootState 1).isNone) = true := by
    decide +kernel
  have hcheck : constantResidues.holdsThroughout (fun _ => constantResidues.nextFits) 40 [0]
      = true := by decide +kernel
  obtain ⟨answer, s, hrun, hanswer⟩ := exists_of_answers hanswers
  rw [Bool.and_eq_true, decide_eq_true_eq, Option.isNone_iff_eq_none] at hanswer
  -- Where computations start does not matter for monotonicity.
  have hmono := ResidueSet.domain_monotone (Transition.statement (T := ResidueSet.Transfer))
    .standard
  have hleaves : (⟨0, 1, .internal, .const 1⟩ : Transition ResidueSet.Transfer) ∈
      constantResidues.transitions.actionsFrom 0 := by decide +kernel
  have hpost : constantResidues.domain.post constantResidues.domain.fresh
      ⟨0, 1, .internal, .const 1⟩ = .ok [.ofList [1]] := rfl
  exact ⟨⟨_, rfl⟩, by decide +kernel, ⟨hmono.post_below, hmono.bottom_of_below⟩, answer, s, hrun,
    hanswer.1, unbounded_of_nextFits hcheck,
    .first List.mem_cons_self hleaves hpost List.mem_cons_self rfl, hanswer.2⟩

end Engine

end Interproc
