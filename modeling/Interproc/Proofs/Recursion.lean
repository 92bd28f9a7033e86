/-
  Interproc.Proofs.Recursion
  ──────────────────────────
  Fixpoints of recursive calls.  Once widening the entry state of a call changes
  nothing, the state that it was widened against is recorded for the call in the
  layer of its caller, and the call waits for the activation with that entry state.
  A later call in the same layer that the recorded state covers looks for its
  activation on its own stack.  Both mean the same activation, since a layer
  determines its stack.

  Main result: `Engine.entry_of_scopeFixpoint`.
-/
import Mathlib
import Interproc.Proofs.Activations
import Interproc.Proofs.Intervals
import Interproc.Proofs.Summaries

namespace Interproc

variable {L A S : Type} [DecidableEq L] [DecidableEq A] [AbstractState S]

namespace Engine

variable {e : Engine L A S} {s s' : RunState L A S} {id : ItemId} {item final : Item L A S}
variable {post widened : Disjunction S} {layer : LayerId}
variable {exits : Exits A S} {summaries : Summaries A S} {new : List (Item L A S)}
variable {F : Contexts L A S} {K : LayerId → ActiveLoop L S → Prop} {starts : List L}

/-! ## §1. Widths. -/

/-- The states after an action, as the domain computes them, are few enough. -/
theorem length_of_evaluate (h : e.evaluate item = .ok post) :
    post.states.length ≤ max e.options.maxParallelStates 1 :=
  (normal_of_evaluate h).length

/-- The states after an action are few enough, also if they are taken from a summary. -/
theorem length_of_postPart (h : e.PostPart id item s post summaries)
    (hposts : s.summaries.AllPosts fun d =>
      d.states.length ≤ max e.options.maxParallelStates 1) :
    post.states.length ≤ max e.options.maxParallelStates 1 := by
  cases h with
  | interpreted _ hpost => exact length_of_evaluate hpost
  | summarised _ hpost => exact hposts.post? hpost

omit [AbstractState S] in
theorem EnterPart.fixpoint_eq {inside : Item L A S} {layers layers' : Layers L A S}
    (h : e.EnterPart item widened layers inside layers') (j : LayerId) (a : A) :
    layers'.fixpoint? j a = layers.fixpoint? j a := by
  cases h with
  | stayed => rfl
  | entered _ hcreate => exact (Layers.create_ok hcreate).fixpoint_eq j a

omit [AbstractState S] in
theorem EnterPart.stored_eq {inside : Item L A S} {layers layers' : Layers L A S}
    (h : e.EnterPart item widened layers inside layers') (j : LayerId) (l : L) :
    layers'.stored? j l = layers.stored? j l := by
  cases h with
  | stayed => rfl
  | entered _ hcreate => exact (Layers.create_ok hcreate).stored_eq j l

omit [AbstractState S] in
theorem EnterPart.width_eq {inside : Item L A S} {layers layers' : Layers L A S}
    (h : e.EnterPart item widened layers inside layers') : layers'.width = layers.width := by
  cases h with
  | stayed => rfl
  | entered _ hcreate => exact (Layers.create_ok hcreate).width_eq

theorem EndPart.width_eq (h : e.EndPart id item post s exits summaries final new s') :
    s'.layers.width = s.layers.width := by
  obtain hlayers | ⟨_, _, -, -, hlayers, -⟩ | ⟨_, -, -, _, _, henter, hadd⟩ := h.layers_cases
  · rw [hlayers]
  · exact (Layers.addScopeFixpoint_ok hlayers).width_eq
  · rw [(Layers.addState_ok hadd).width_eq, henter.width_eq]

/-! ## §2. Recorded fixpoints. -/

variable (e) in
/-- Fixpoints recorded for calls are the entry states of the innermost activations of these calls,
and entry states have few enough disjuncts. -/
structure Recorded (F : Contexts L A S) (s : RunState L A S) : Prop where
  width : s.layers.width = e.options.maxParallelStates
  entries : ∀ layer : LayerId, layer.index < s.layers.size → ∀ scope ∈ (F layer).scopes,
    scope.entry.states.length ≤ max e.options.maxParallelStates 1
  fixpoints : ∀ layer action d, s.layers.fixpoint? layer action = some d →
    ∃ scope, (F layer).scopes.find? (fun scope => scope.action = action) = some scope ∧
      scope.entry = d

namespace Recorded

/-- The entry state of a new scope has few enough disjuncts. -/
theorem entry_length (hsep : e.transitions.Separate) (hF : e.Framed F K s) (h : e.Recorded F s)
    (hid : id ∈ s.pending) (hget : s.items.get id = .ok item)
    (henters : e.transitions.entersScope item.action = true)
    (hlength : post.states.length ≤ max e.options.maxParallelStates 1)
    (hwiden : e.WidenedTo (e.advanced item) post widened s s') :
    widened.states.length ≤ max e.options.maxParallelStates 1 := by
  obtain ⟨-, rfl⟩ | ⟨older, hagainst, hwiden, -, -⟩ := hwiden
  · exact hlength
  · -- Calls are widened against the entry state of a scope that is open.
    obtain ⟨-, layer, hwithin⟩ := hF.within_of_enters hsep hid hget henters
    unfold widensAgainst at hagainst
    rw [advanced_action, henters, if_pos rfl] at hagainst
    split at hagainst
    · obtain ⟨⟨layer', entry⟩, hentry, rfl⟩ := Option.map_eq_some_iff.mp hagainst
      obtain ⟨own, hown, hpair⟩ := Option.map_eq_some_iff.mp hentry
      cases hpair
      have hmem := List.mem_of_find?_eq_some hown
      rw [advanced_scopes_of_enters hsep henters, hwithin.scopes] at hmem
      exact Disjunction.length_widen hwiden (h.entries layer hwithin.lt own hmem) hlength
    · cases hagainst

/-- The entry states of all activations have few enough disjuncts after a pass. -/
theorem entries_pass (hsep : e.transitions.Separate) (hF : e.Framed F K s) (h : e.Recorded F s)
    (hid : id ∈ s.pending) (hget : s.items.get id = .ok item)
    (hlength : e.transitions.entersScope item.action = true →
      post.states.length ≤ max e.options.maxParallelStates 1)
    (hend : e.EndPart id item post s exits summaries final new s') (layer : LayerId)
    (hlayer : layer.index < s'.layers.size) :
    ∀ scope ∈ (F.extend s.layers.size ⟨final.scopes, final.loops⟩ layer).scopes,
      scope.entry.states.length ≤ max e.options.maxParallelStates 1 := by
  by_cases hold : layer.index < s.layers.size
  · rw [Contexts.extend_of_lt hold]
    exact h.entries layer hold
  · obtain ⟨rfl, henters, widened, ⟨-, hwiden, -⟩, hfinal⟩ := hend.new_layer hold hlayer
    obtain ⟨-, layer', hwithin⟩ := hF.within_of_enters hsep hid hget henters
    rw [Contexts.extend_self]
    intro scope hscope
    have hscopes : final.scopes = ⟨item.action, ⟨s.layers.size⟩, item.pre, widened,
        (e.advanced item).loops.length⟩ :: (e.advanced item).scopes := by
      rw [hfinal]
      rfl
    rw [hscopes, advanced_scopes_of_enters hsep henters, hwithin.scopes] at hscope
    obtain rfl | hscope := List.mem_cons.mp hscope
    · exact h.entry_length hsep hF hid hget henters (hlength henters) hwiden
    · exact h.entries layer' hwithin.lt scope hscope

variable [OrderedState S]

/-- A fixpoint recorded for a call is the entry state of the innermost activation of that call. -/
theorem fixpoints_pass (hsep : e.transitions.Separate) (hF : e.Framed F K s) (h : e.Recorded F s)
    (hid : id ∈ s.pending) (hget : s.items.get id = .ok item)
    (hend : e.EndPart id item post s exits summaries final new s') (layer : LayerId) (action : A)
    (d : Disjunction S) (hd : s'.layers.fixpoint? layer action = some d) :
    ∃ scope, (F.extend s.layers.size ⟨final.scopes, final.loops⟩ layer).scopes.find?
      (fun scope => scope.action = action) = some scope ∧ scope.entry = d := by
  have hold : s.layers.fixpoint? layer action = some d →
      ∃ scope, (F.extend s.layers.size ⟨final.scopes, final.loops⟩ layer).scopes.find?
        (fun scope => scope.action = action) = some scope ∧ scope.entry = d := by
    intro hd
    rw [Contexts.extend_of_lt (Layers.lt_size_of_fixpoint hd)]
    exact h.fixpoints layer action d hd
  obtain hlayers | ⟨activation, older, henters, hentry, hlayers, -⟩ |
    ⟨_, -, -, _, _, henter, hadd⟩ := hend.layers_cases
  · rw [hlayers] at hd
    exact hold hd
  · rw [(Layers.addScopeFixpoint_ok hlayers).fixpoint_eq] at hd
    split at hd
    · rename_i hsame
      obtain ⟨rfl, rfl⟩ := hsame
      obtain ⟨-, layer, hwithin⟩ := hF.within_of_enters hsep hid hget henters
      have hlayer : (e.advanced item).currentLayer = layer := by
        rw [advanced_currentLayer, landing_of_enters hsep henters,
          hwithin.currentLayer hF.wellFormed]
      rw [hlayer] at hd ⊢
      obtain ⟨own, hown, hpair⟩ := Option.map_eq_some_iff.mp hentry
      cases hpair
      rw [advanced_scopes_of_enters hsep henters, hwithin.scopes] at hown
      rw [Contexts.extend_of_lt hwithin.lt]
      refine ⟨own, hown, ?_⟩
      cases hprevious : s.layers.fixpoint? layer item.action with
      | none =>
        rw [hprevious] at hd
        exact Option.some.inj hd
      | some previous =>
        -- The fixpoint recorded before is the same entry state, so merging changes nothing.
        obtain ⟨scope, hscope, hentry'⟩ := h.fixpoints layer item.action previous hprevious
        rw [hown] at hscope
        cases hscope
        rw [hprevious, ← hentry', h.width] at hd
        have hmerge := Disjunction.merge_self
          (h.entries layer hwithin.lt own (List.mem_of_find?_eq_some hown))
        simp only [Option.map_some, Option.getD_some, hmerge] at hd
        exact Option.some.inj hd
    · exact hold hd
  · rw [(Layers.addState_ok hadd).fixpoint_eq, henter.fixpoint_eq] at hd
    exact hold hd

theorem pass (hsep : e.transitions.Separate) (hF : e.Framed F K s) (h : e.Recorded F s)
    (hid : id ∈ s.pending) (hget : s.items.get id = .ok item)
    (hlength : e.transitions.entersScope item.action = true →
      post.states.length ≤ max e.options.maxParallelStates 1)
    (hend : e.EndPart id item post s exits summaries final new s') :
    e.Recorded (F.extend s.layers.size ⟨final.scopes, final.loops⟩) s' where
  width := hend.width_eq.trans h.width
  entries := h.entries_pass hsep hF hid hget hlength hend
  fixpoints := h.fixpoints_pass hsep hF hid hget hend

omit [DecidableEq L] [AbstractState S] [OrderedState S] in
theorem start : e.Recorded (fun _ => ⟨[], []⟩) (.start e.options) where
  width := rfl
  entries := fun _ _ scope hscope => by cases hscope
  fixpoints := fun layer action d hd => by
    cases (Layers.fixpoint?_empty e.options.maxParallelStates).symm.trans hd

omit [OrderedState S] in
theorem seed (h : e.Recorded F s) {location : L} {action : A}
    (hseed : e.SeedPart location action s s') : e.Recorded F s' := by
  obtain ⟨state, stored, layers, id, -, hadd, hgrows⟩ := hseed
  have hlayers : s'.layers = layers := hgrows.unmoved.layers
  have hmerged := Layers.addState_ok hadd
  rw [← hlayers] at hmerged
  constructor
  · rw [hmerged.width_eq, h.width]
  · rw [hmerged.size_eq]
    exact h.entries
  · intro layer action d hd
    rw [hmerged.fixpoint_eq] at hd
    exact h.fixpoints layer action d hd

omit [OrderedState S] in
/-- A call that a recorded fixpoint covers is covered by the entry state of the innermost
activation of the same call. -/
theorem covered_call (hsep : e.transitions.Separate) (hF : e.Framed F K s) (h : e.Recorded F s)
    (hid : id ∈ s.pending) (hget : s.items.get id = .ok item)
    (henters : e.transitions.entersScope item.action = true)
    (hcovered : e.covers s.layers item post = .ok true) :
    ∃ layer entry, item.latestEntry item.action = some (layer, entry) ∧
      post.isSubset entry = true := by
  obtain ⟨-, layer, hwithin⟩ := hF.within_of_enters hsep hid hget henters
  unfold covers at hcovered
  rw [if_pos henters, hwithin.currentLayer hF.wellFormed] at hcovered
  obtain ⟨d, hd, hsub⟩ := (Option.any_eq_true _ _).mp (Layers.isScopeFixpoint_eq_ok hcovered).symm
  obtain ⟨scope, hscope, rfl⟩ := h.fixpoints layer item.action d hd
  rw [← hwithin.scopes] at hscope
  refine ⟨scope.layer, scope.entry, ?_, hsub⟩
  unfold Item.latestEntry
  rw [hscope]
  rfl

end Recorded

/-! ## §3. Calls that a fixpoint was recorded for. -/

/-- Where a fixpoint is recorded, there is a call that it was recorded for, and that waits. -/
def Kept (s : RunState L A S) : Prop :=
  ∀ m a d, s.layers.fixpoint? m a = some d →
    ∃ layer, ∃ c ∈ (s.exits.activation layer).calls, ∃ call, s.items.get c = .ok call ∧
      call.returned = false ∧ call.currentLayer = m ∧ call.action = a

theorem Kept.seed (h : Kept s) {location : L} {action : A}
    (hseed : e.SeedPart location action s s') : Kept s' := by
  have hseed' := hseed
  obtain ⟨state, stored, layers, id, -, hadd, hgrows⟩ := hseed
  intro m a d hd
  rw [hgrows.unmoved.layers, (Layers.addState_ok hadd).fixpoint_eq] at hd
  obtain ⟨layer, c, hc, call, hcall, hfacts⟩ := h m a d hd
  obtain ⟨hc', hcall'⟩ := hseed'.get_call hc hcall
  exact ⟨layer, c, hc', call, hcall', hfacts⟩

theorem Kept.pass (hsep : e.transitions.Separate) (hs : e.Orderly s) (hs' : e.Orderly s')
    (hF : e.Framed F K s) (h : Kept s) (hpass : e.Pass id item post final s s') : Kept s' := by
  have hpass' := hpass
  intro m a d hd
  have hold : s.layers.fixpoint? m a = some d →
      ∃ layer, ∃ c ∈ (s'.exits.activation layer).calls, ∃ call, s'.items.get c = .ok call ∧
        call.returned = false ∧ call.currentLayer = m ∧ call.action = a := by
    intro hd
    obtain ⟨layer, c, hc, call, hcall, hfacts⟩ := h m a d hd
    exact ⟨layer, c, hpass'.calls_mono hc, call, hpass'.get_call hs hs' hc hcall, hfacts⟩
  cases hpass with
  | intro hpop hget _ _ hend =>
    obtain hlayers | ⟨layer, older, henters, -, hlayers, hfinal, hcall⟩ |
      ⟨_, -, -, _, _, henter, hadd⟩ := hend.layers_cases
    · rw [hlayers] at hd
      exact hold hd
    · rw [(Layers.addScopeFixpoint_ok hlayers).fixpoint_eq] at hd
      split at hd
      · rename_i hsame
        obtain ⟨rfl, rfl⟩ := hsame
        have hid : id ∈ s.pending := Worklist.mem_of_pop hpop
        have hreturned := (hF.within_of_enters hsep hid hget henters).1
        refine ⟨layer, id, hcall, final, hpass'.get_waiting hs' hcall, ?_, ?_, ?_⟩
        · rw [hfinal, advanced_returned]
          exact hreturned
        · rw [hfinal]
        · rw [hfinal, advanced_action]
      · exact hold hd
    · rw [(Layers.addState_ok hadd).fixpoint_eq, henter.fixpoint_eq] at hd
      exact hold hd

/-! ## §4. Reachable states. -/

variable (e) in
/-- Computations are inside their activations, and fixpoints belong to activations. -/
structure Recursive (s : RunState L A S) : Prop where
  framed : ∃ F, e.Framed F (fun _ _ => True) s ∧ e.Recorded F s
  kept : Kept s
  posts : s.summaries.AllPosts fun d => d.states.length ≤ max e.options.maxParallelStates 1

variable [OrderedState S]

theorem Recursive.pass (hsep : e.transitions.Separate) (hs : e.Orderly s) (hs' : e.Orderly s')
    (h : e.Recursive s) (hpass : e.Pass id item post final s s') : e.Recursive s' := by
  obtain ⟨⟨F, hF, hrecorded⟩, hkept, hposts⟩ := h
  have hkept' := hkept.pass hsep hs hs' hF hpass
  have hF' := hF.pass hsep hs hs' hpass (fun _ _ hl => hl) fun _ _ _ _ => trivial
  cases hpass with
  | intro hpop hget hexit hpost hend =>
    have hid : id ∈ s.pending := Worklist.mem_of_pop hpop
    have hlength := length_of_postPart hpost hposts
    refine ⟨⟨_, hF', hrecorded.pass hsep hF hid hget (fun _ => hlength) hend⟩, hkept', ?_⟩
    exact allPosts_pass hpost hend (fun _ _ _ _ => Disjunction.length_reduce _ _) hposts hlength

omit [OrderedState S] in
theorem Recursive.seed (h : e.Recursive s) {location : L} {action : A}
    (hseed : e.SeedPart location action s s') : e.Recursive s' := by
  obtain ⟨⟨F, hF, hrecorded⟩, hkept, hposts⟩ := h
  refine ⟨⟨F, hF.seed hseed fun _ _ hl => hl, hrecorded.seed hseed⟩, hkept.seed hseed, ?_⟩
  obtain ⟨_, _, _, _, -, -, hgrows⟩ := hseed
  rw [hgrows.unmoved.summaries]
  exact hposts

theorem Reachable.recursive (hsep : e.transitions.Separate) (h : e.Reachable starts s) :
    e.Orderly s ∧ e.Recursive s := by
  refine h.induct ⟨⟨_, Framed.start, Recorded.start⟩, ?_, ?_⟩
    (fun _ _ _ _ _ _ _ hseed hs => hs.seed hseed)
    fun _ _ _ _ _ _ hs hs' hpass hrecursive => hrecursive.pass hsep hs hs' hpass
  · intro m a d hd
    cases (Layers.fixpoint?_empty e.options.maxParallelStates).symm.trans hd
  · intro call summary hsummary
    cases hsummary

/-- Fixpoints of calls and activations.  A fixpoint recorded for a call in a layer is the entry
state of the innermost activation of that call on the stack of the layer, which is the stack of
every item there.  So a call that a recorded fixpoint covers finds that activation on its own
stack, waits for it, and is covered by its entry state. -/
theorem entry_of_scopeFixpoint (hsep : e.transitions.Separate) (h : e.Reachable starts s) :
    (∀ m a d, s.layers.fixpoint? m a = some d →
      (∃ c call, s.items.get c = .ok call ∧ call.returned = false ∧ call.currentLayer = m) ∧
      ∀ j i, s.items.get j = .ok i → i.returned = false → i.currentLayer = m →
        ∃ scope, i.scopes.find? (fun scope => scope.action = a) = some scope ∧
          scope.entry = d ∧ d.isEquivalent scope.entry = true) ∧
    ∀ id worklist item post t u, s.worklist.pop = some (id, worklist) →
      s.items.get id = .ok item → e.transitions.entersScope item.action = true →
      e.takeUp id item (taken worklist s) = .ok post t → post.isBottom = false →
      s.layers.isScopeFixpoint item.currentLayer item.action post = .ok true →
      e.process id (taken worklist s) = .ok () u →
      ∃ layer entry, item.latestEntry item.action = some (layer, entry) ∧
        id ∈ (u.exits.activation layer).calls ∧ post.isSubset entry = true := by
  obtain ⟨hordered, ⟨F, hF, hrecorded⟩, hkept, -⟩ := h.recursive hsep
  refine ⟨fun m a d hd => ⟨?_, fun j i hi hreturned hlayer => ?_⟩, ?_⟩
  · obtain ⟨_, c, -, call, hcall, hreturned, hlayer, -⟩ := hkept m a d hd
    exact ⟨c, call, hcall, hreturned, hlayer⟩
  · obtain ⟨layer, hwithin⟩ := hF.live j i hi hreturned
    rw [hwithin.currentLayer hF.wellFormed] at hlayer
    subst hlayer
    obtain ⟨scope, hscope, rfl⟩ := hrecorded.fixpoints layer a d hd
    refine ⟨scope, by rw [hwithin.scopes, hscope], rfl, ?_⟩
    unfold Disjunction.isEquivalent
    rw [Disjunction.isSubset_refl]
    rfl
  · intro id worklist item post t u hpop hget henters htake hbottom hfixpoint hprocess
    have hid : id ∈ s.pending := (Worklist.perm_of_pop hpop).mem_iff.mpr List.mem_cons_self
    have hcovers : e.covers s.layers item post = .ok true := by
      unfold covers
      rw [if_pos henters]
      exact hfixpoint
    obtain ⟨layer, entry, hentry, hsub⟩ := hrecorded.covered_call hsep hF hid hget henters hcovers
    refine ⟨layer, entry, hentry, ?_, hsub⟩
    obtain ⟨_, _, _, _, _, -, -, hend⟩ :=
      parts_of_process hordered.tidy hpop hget htake hprocess
    cases hend with
    | infeasible hpost =>
      rw [hbottom] at hpost
      cases hpost
    | covered _ _ hnone =>
      rw [henters, hentry] at hnone
      obtain hnone | hnone := hnone <;> cases hnone
    | coveredCall _ _ _ hentry' _ _ _ hexits =>
      rw [hentry] at hentry'
      cases hentry'
      rw [hexits]
      exact Exits.mem_calls_subscribe
    | loopFixpoint _ hcovered => cases hcovers.symm.trans hcovered
    | entryFixpoint _ hcovered => cases hcovers.symm.trans hcovered
    | stored _ hcovered => cases hcovers.symm.trans hcovered

/-- A procedure that calls itself after two branches, with states of different precision. -/
def branching : Program Statement := .ofAdditions
  [.procedure "f", .node "f", .node "f", .internal 0 2 (.assign "x" 1), .internal 0 3 .nop,
    .internal 3 2 .nop, .call 2 1 "f" .nop]

/-- The interval analysis of `branching`, which has no loops. -/
def branchingIntervals : Engine Nat (Transition Statement) IntervalState :=
  branching.intervals ⟨.empty⟩ ⟨1, 1, .fifo, false, Nat.one_pos, Nat.one_pos⟩

set_option maxRecDepth 100000 in
/-- The first branch records a fixpoint for the call, which covers the call of the second. -/
theorem entry_of_scopeFixpoint_branching : branchingIntervals.transitions.Separate ∧
    ∃ s id worklist item post t u d scope layer entry,
      branchingIntervals.stateAfter [2] 6 = some s ∧ s.worklist.pop = some (id, worklist) ∧
      s.items.get id = .ok item ∧ s.layers.fixpoint? item.currentLayer item.action = some d ∧
      item.scopes.find? (fun scope => scope.action = item.action) = some scope ∧
      scope.entry = d ∧
      branchingIntervals.takeUp id item (taken worklist s) = .ok post t ∧
      s.layers.isScopeFixpoint item.currentLayer item.action post = .ok true ∧
      branchingIntervals.process id (taken worklist s) = .ok () u ∧
      item.latestEntry item.action = some (layer, entry) ∧
      id ∈ (u.exits.activation layer).calls ∧ post.isSubset entry = true := by
  have hcoherent : branchingIntervals.Coherent :=
    Program.Built.coherent (p := branching) ⟨_, rfl⟩ rfl rfl
  have hsep := hcoherent.separate
  have hcheck : (branchingIntervals.stateAfter [2] 6).any (fun s =>
      branchingIntervals.processesNext (fun item post =>
        item.returned = false ∧ branchingIntervals.transitions.entersScope item.action = true ∧
        post.isBottom = false ∧ (s.layers.fixpoint? item.currentLayer item.action).isSome ∧
        (s.layers.isScopeFixpoint item.currentLayer item.action post).toOption = some true)
      s) = true := by
    decide +kernel
  obtain ⟨s, hs, hreachable, hnext⟩ := exists_of_stateAfter hcheck
  obtain ⟨id, worklist, item, post, t, u, hpop, hget, htake, hprocess, hfacts⟩ :=
    exists_of_processesNext hnext
  rw [decide_eq_true_iff] at hfacts
  obtain ⟨hreturned, henters, hbottom, hsome, hcovered⟩ := hfacts
  obtain ⟨d, hd⟩ := Option.isSome_iff_exists.mp hsome
  have hfixpoint : s.layers.isScopeFixpoint item.currentLayer item.action post = .ok true := by
    cases hresult : s.layers.isScopeFixpoint item.currentLayer item.action post with
    | error _ =>
      rw [hresult] at hcovered
      cases hcovered
    | ok covered =>
      rw [hresult] at hcovered
      cases hcovered
      rfl
  obtain ⟨hstacks, hcalls⟩ := entry_of_scopeFixpoint hsep hreachable
  obtain ⟨scope, hscope, hentry, -⟩ := (hstacks _ _ d hd).2 id item hget hreturned rfl
  obtain ⟨layer, entry, hlatest, hwaits, hsub⟩ :=
    hcalls id worklist item post t u hpop hget henters htake hbottom hfixpoint hprocess
  exact ⟨hsep, s, id, worklist, item, post, t, u, d, scope, layer, entry, hs, hpop, hget, hd,
    hscope, hentry, htake, hfixpoint, hprocess, hlatest, hwaits, hsub⟩

end Engine

end Interproc
