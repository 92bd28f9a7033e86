/-
  Interproc.Proofs.Reports
  ────────────────────────
  Which errors are reported.  An action that reaches an error location is reported
  once, right before its states are stored there or found to add nothing to what
  they are widened against.  In the latter case the location is the head of an
  active loop or the entry of an active call, so it was visited before.

  Main result: `Engine.reported_iff_stored` — an error location that is no start
  has a state in some layer exactly if an action that leads there is reported, and
  no action is reported twice.
-/
import Mathlib
import Interproc.Proofs.Origins

namespace Interproc

variable {L A S : Type} [DecidableEq L]

/-! ## §1. Visited locations. -/

namespace Layers

/-- Some layer has a state for a location. -/
def Visits (m : Layers L A S) (l : L) : Prop := ∃ layer d, m.stored? layer l = some d

/-- A location is a start, or some layer has a state for it. -/
def Knows (m : Layers L A S) (starts : List L) (l : L) : Prop := l ∈ starts ∨ m.Visits l

variable [DecidableEq A] [AbstractState S]

theorem Merged.visits {m m' : Layers L A S} {id : LayerId} {location l : L}
    {d stored : Disjunction S} (h : Merged m id location d stored m') (hl : m.Visits l) :
    m'.Visits l := by
  obtain ⟨layer, before, hbefore⟩ := hl
  have hstored := h.stored_eq layer l
  split at hstored
  · exact ⟨layer, stored, hstored⟩
  · exact ⟨layer, before, hstored.trans hbefore⟩

end Layers

namespace Engine

variable {e : Engine L A S} {s s' : RunState L A S} {id j : ItemId} {item final i : Item L A S}
variable {post widened : Disjunction S} {layer : LayerId} {starts : List L} {layers : Layers L A S}
variable {exits : Exits A S} {summaries : Summaries A S} {handed new : List (Item L A S)}

section Visiting

variable [DecidableEq A] [AbstractState S]

theorem Stores.stored_mono (h : e.Stores item post final widened s s') {l : L}
    (hl : s.layers.Visits l) : s'.layers.Visits l := by
  obtain ⟨layer, d, hd⟩ := hl
  obtain ⟨-, -, layers, stored, henter, hadd⟩ := h
  exact (Layers.addState_ok hadd).visits ⟨layer, d, (henter.stored_eq layer l).trans hd⟩

/-- States are stored at the target of the item's action. -/
theorem Stores.visits (h : e.Stores item post final widened s s') :
    s'.layers.Visits (e.transitions.target item.action) := by
  obtain ⟨-, -, layers, stored, -, hadd⟩ := h
  exact ⟨final.currentLayer, stored, (Layers.addState_ok hadd).stored_self⟩

/-- What was visited stays visited. -/
theorem Pass.visits (hpass : e.Pass id item post final s s') {l : L} (hl : s.layers.Visits l) :
    s'.layers.Visits l := by
  cases hpass with
  | intro _ _ _ _ hend =>
    obtain hsame | ⟨_, _, -, -, hadd, -⟩ | ⟨widened, hstores⟩ := hend.layers_cases
    · rw [hsame]
      exact hl
    · obtain ⟨layer, d, hd⟩ := hl
      exact ⟨layer, d, by rw [(Layers.addScopeFixpoint_ok hadd).stored_eq]; exact hd⟩
    · exact hstores.stored_mono hl

theorem Pass.knows (hpass : e.Pass id item post final s s') {l : L}
    (hl : s.layers.Knows starts l) : s'.layers.Knows starts l :=
  hl.imp_right hpass.visits

end Visiting

/-! ## §2. Items rest on visited locations. -/

variable (e) in
/-- An item starts at a known location, its loops have known heads, and the scopes that it entered
have visited entries. -/
structure Rests (starts : List L) (layers : Layers L A S) (item : Item L A S) : Prop where
  source : layers.Knows starts (e.transitions.source item.action)
  loops : ∀ l ∈ item.loops, layers.Knows starts l.head
  scopes : ∀ scope ∈ item.scopes, layers.Visits (e.transitions.target scope.action)

namespace Rests

theorem mono {layers' : Layers L A S} (h : e.Rests starts layers item)
    (hlayers : ∀ l, layers.Visits l → layers'.Visits l) : e.Rests starts layers' item :=
  ⟨h.source.imp_right (hlayers _), fun l hl => (h.loops l hl).imp_right (hlayers _),
    fun scope hscope => hlayers _ (h.scopes scope hscope)⟩

theorem advanced (h : e.Rests starts layers item) : e.Rests starts layers (e.advanced item) := by
  refine ⟨?_, fun l hl => ?_, fun scope hscope => h.scopes scope (mem_scopes_advanced hscope)⟩
  · rw [advanced_action]
    exact h.source
  · obtain hold | ⟨hhead, -⟩ := mem_loops_advanced hl
    · exact h.loops l hold
    · rw [hhead]
      exact h.source

theorem enterScope (h : e.Rests starts layers item) {action : A} {before entry : Disjunction S}
    (haction : layers.Visits (e.transitions.target action)) :
    e.Rests starts layers (item.enterScope action layer before entry) := by
  refine ⟨h.source, h.loops, fun scope hscope => ?_⟩
  obtain rfl | hscope := List.mem_cons.mp hscope
  · exact haction
  · exact h.scopes scope hscope

theorem moves {n n' : Nat} (h : e.Rests starts layers item) (hmoves : e.Moves item n final n')
    (hvisits : e.transitions.entersScope item.action = true → n < n' →
      layers.Visits (e.transitions.target item.action)) : e.Rests starts layers final := by
  cases hmoves with
  | advanced => exact h.advanced
  | entered henters => exact h.advanced.enterScope (hvisits henters (Nat.lt_succ_self n))

variable [DecidableEq A]

/-- A scope that an item entered by an action tells that the target of the action was visited. -/
theorem of_latestEntry (h : e.Rests starts layers item) {action : A} {entry : Disjunction S}
    (hentry : item.latestEntry action = some (layer, entry)) :
    layers.Visits (e.transitions.target action) := by
  obtain ⟨scope, hscope, haction, -⟩ := Item.latestEntry_mem hentry
  rw [← haction]
  exact h.scopes scope hscope

end Rests

variable (e) in
/-- All items rest on known locations, and so do exits and the calls that wait for them. -/
structure Founded (starts : List L) (s : RunState L A S) : Prop where
  items : ∀ j i, s.items.get j = .ok i → e.Rests starts s.layers i
  exits : ∀ layer, ∀ x ∈ (s.exits.activation layer).exits,
    s.layers.Knows starts (e.transitions.source x.action)
  calls : ∀ layer, ∀ c ∈ (s.exits.activation layer).calls, ∀ i, s.items.get c = .ok i →
    s.layers.Visits (e.transitions.target i.action)

variable [DecidableEq A] [AbstractState S]

/-- The item that was processed rests on what is known after the pass. -/
theorem Founded.rests_final (h : e.Founded starts s) (hpass : e.Pass id item post final s s') :
    e.Rests starts s'.layers final := by
  have hitem := (h.items id item hpass.get).mono fun l => hpass.visits
  cases hpass with
  | intro _ _ _ _ hend =>
    obtain ⟨rfl, -⟩ | hmoves := hend.final_cases
    · exact hitem
    · -- A scope is entered only where its entry state is stored in the new layer.
      refine hitem.moves hmoves fun henters hlt => ?_
      have hnew : ¬ (⟨s.layers.size⟩ : LayerId).index < s.layers.size := lt_irrefl _
      obtain ⟨-, -, widened, hstores, -⟩ := hend.new_layer hnew hlt
      exact hstores.visits

theorem Founded.pass (hc : e.Coherent) (hs : e.Orderly s) (hs' : e.Orderly s')
    (h : e.Founded starts s) (hpass : e.Pass id item post final s s') :
    e.Founded starts s' := by
  have hfinal := h.rests_final hpass
  have haction : final.action = item.action := by
    obtain ⟨⟨scopes, loops, hshape⟩, -⟩ := hpass.live
    rw [hshape]
  have hold : ∀ j i, s.items.get j = .ok i → e.Rests starts s'.layers i :=
    fun j i hi => (h.items j i hi).mono fun l => hpass.visits
  have hexits : ∀ layer, ∀ x ∈ (s'.exits.activation layer).exits,
      s'.layers.Knows starts (e.transitions.source x.action) := by
    intro layer x hx
    cases hpass.exit_origin hx with
    | kept hx => exact hpass.knows (h.exits layer x hx)
    | first => exact (hold id item hpass.get).source
    | grown _ _ hy _ _ hgrow =>
      rw [(Exits.grow_ok hgrow).2.1]
      exact hpass.knows (h.exits layer _ hy)
  have hcalls : ∀ layer, ∀ c ∈ (s'.exits.activation layer).calls, ∀ i, s'.items.get c = .ok i →
      s'.layers.Visits (e.transitions.target i.action) := by
    intro layer c hcall i hi
    obtain ⟨hcall, hi⟩ | ⟨-, rfl, -, entry, hentry⟩ := hpass.call_cases hs hs' hcall hi
    · exact hpass.visits (h.calls layer c hcall i hi)
    · rw [haction]
      exact hfinal.of_latestEntry hentry
  refine ⟨fun j i hi => ?_, hexits, hcalls⟩
  cases hpass.origin hs hs' hi with
  | @returned layer x c call hexit hcall hget =>
    -- The item goes on from the exit, but with the loops and scopes of the call.
    have hrests : e.Rests starts s'.layers call := by
      obtain ⟨-, hbefore⟩ | ⟨-, rfl, -⟩ := hpass.call_cases hs hs' hcall hget
      · exact hold c call hbefore
      · exact hfinal
    refine Rests.enterScope ?_ (hcalls layer c hcall call hget)
    exact ⟨hexits layer x hexit, hrests.loops, hrests.scopes⟩
  | redone hstale _ hq =>
    exact ⟨(hold _ _ hstale).source, (hold _ _ hq).loops, (hold _ _ hq).scopes⟩
  | @successor widened action hstores hmem =>
    have hsource : e.transitions.source (e.successorOf s'.summaries id final widened action).action
        = e.transitions.target final.action := source_successorOf hc hmem
    obtain ⟨action', summary, hshape⟩ := e.successorOf_eq s'.summaries id final widened action
    rw [hshape] at hsource ⊢
    refine ⟨.inr ?_, hfinal.loops, hfinal.scopes⟩
    rw [hsource, haction]
    exact hstores.visits
  | final => exact hfinal
  | old _ hbefore => exact hold j i hbefore

theorem Founded.seed (hc : e.Coherent) (h : e.Founded starts s) {location : L} {action : A}
    (hlocation : location ∈ starts) (haction : action ∈ e.transitions.actionsFrom location)
    (hseed : e.SeedPart location action s s') : e.Founded starts s' := by
  have hseed' := hseed
  obtain ⟨state, stored, layers, id, -, hadd, hgrows⟩ := hseed
  have hlayers : s'.layers = layers := hgrows.unmoved.layers
  have hexits : s'.exits = s.exits := hgrows.unmoved.exits
  have hvisits : ∀ l, s.layers.Visits l → s'.layers.Visits l := by
    intro l hl
    rw [hlayers]
    exact (Layers.addState_ok hadd).visits hl
  refine ⟨fun j i hi => ?_, fun layer x hx => ?_, fun layer c hcall i hi => ?_⟩
  · obtain ⟨rfl, rfl⟩ | ⟨hold, -⟩ := hgrows.old_singleton hi
    · refine ⟨.inl ?_, fun l hl => (nomatch hl), fun scope hscope => (nomatch hscope)⟩
      show e.transitions.source action ∈ starts
      rw [hc.source_of_actionsFrom haction]
      exact hlocation
    · exact (h.items j i hold).mono hvisits
  · rw [hexits] at hx
    exact (h.exits layer x hx).imp_right (hvisits _)
  · rw [hexits] at hcall
    obtain hnew | ⟨hold, -⟩ := hgrows.old c i hi
    · -- The seeded item is pending, which no waiting call is.
      have hpending := hgrows.mem_pending_of_new hnew
      have hheld := Exits.held_pos_of_call (hexits ▸ hcall : c ∈ (s'.exits.activation layer).calls)
      exact absurd hpending (hgrows.tidy.not_pending (by omega))
    · exact hvisits _ (h.calls layer c hcall i hold)

omit [DecidableEq A] [AbstractState S] in
theorem Founded.start : e.Founded starts (.start e.options) :=
  ⟨fun _ _ hi => (nomatch hi), fun _ _ hx => (nomatch hx), fun _ _ hcall => (nomatch hcall)⟩

/-! ## §3. Reports. -/

variable (e) in
/-- Each counterexample belongs to an action that was reported, no action was reported twice, what
is stored for an error location that is no start was reported, and what was reported leads to
known locations. -/
structure Reported (starts : List L) (s : RunState L A S) : Prop where
  examples : s.counterexamples.map Counterexample.errorAction = s.reachedErrors
  distinct : s.reachedErrors.Nodup
  stored : ∀ l, s.layers.Visits l → l ∉ starts → e.transitions.isError l = true →
    ∃ a ∈ s.reachedErrors, e.transitions.target a = l
  known : ∀ a ∈ s.reachedErrors, s.layers.Knows starts (e.transitions.target a)

theorem Pass.reached_mono (hpass : e.Pass id item post final s s') {a : A}
    (ha : a ∈ s.reachedErrors) : a ∈ s'.reachedErrors := by
  cases hpass with
  | intro _ _ _ _ _ _ _ herrors =>
    cases herrors with
    | silent hreached =>
      rw [hreached]
      exact ha
    | reported _ _ _ _ _ _ hreached =>
      rw [hreached]
      exact List.mem_append_left _ ha

/-- Where new states at the target of an item's action are reported, the target is known. -/
theorem EndPart.knows_target (hrests : e.Rests starts s.layers item)
    (hvisits : ∀ l, s.layers.Visits l → s'.layers.Visits l) (hpost : post.isBottom = false)
    (hcovered : e.covers s.layers item post = .ok false)
    (hend : e.EndPart id item post s exits summaries final new s') :
    s'.layers.Knows starts (e.transitions.target item.action) := by
  cases hend with
  | infeasible hbottom => rw [hpost] at hbottom; cases hbottom
  | covered _ hcovered' => rw [hcovered] at hcovered'; cases hcovered'
  | coveredCall _ hcovered' => rw [hcovered] at hcovered'; cases hcovered'
  | loopFixpoint _ _ _ henters hagainst =>
    -- The target is the head of an active loop, and heads are known.
    obtain ⟨l, hl, hhead, -⟩ := widensAgainst_loop (by rw [advanced_action]; exact henters) hagainst
    rw [advanced_action] at hhead
    rw [← hhead]
    exact (hrests.advanced.loops l (List.mem_of_mem_drop hl)).imp_right (hvisits _)
  | entryFixpoint _ _ _ _ hentry =>
    exact .inr (hvisits _ (hrests.advanced.of_latestEntry hentry))
  | stored hbottom _ _ hwiden henter _ hadd =>
    have hstores : e.Stores item post final _ s s' := ⟨hbottom, hwiden, _, _, henter, hadd⟩
    exact .inr hstores.visits

/-- What is visited after a pass was visited before, or is the target of the item's action, which
is reported if it is an error. -/
theorem EndPart.visits_cases (h : e.EndPart id item post s exits summaries final new s') {l : L}
    (hl : s'.layers.Visits l) : s.layers.Visits l ∨ l = e.transitions.target item.action ∧
      (e.transitions.isError l = true → item.action ∈ s'.reachedErrors) := by
  obtain ⟨layer, d, hd⟩ := hl
  cases h with
  | infeasible _ _ _ hlayers => exact .inl ⟨layer, d, by rw [← hlayers]; exact hd⟩
  | covered _ _ _ _ _ hlayers => exact .inl ⟨layer, d, by rw [← hlayers]; exact hd⟩
  | coveredCall _ _ _ _ _ _ hlayers => exact .inl ⟨layer, d, by rw [← hlayers]; exact hd⟩
  | loopFixpoint _ _ _ _ _ _ _ _ _ _ hlayers =>
    exact .inl ⟨layer, d, by rw [← hlayers]; exact hd⟩
  | entryFixpoint _ _ _ _ _ _ _ _ _ _ _ _ hlayers =>
    rw [(Layers.addScopeFixpoint_ok hlayers).stored_eq] at hd
    exact .inl ⟨layer, d, hd⟩
  | stored _ _ hnoted _ henter _ hadd =>
    rw [(Layers.addState_ok hadd).stored_eq] at hd
    split at hd
    · rename_i hsame
      rw [hsame.2]
      exact .inr ⟨rfl, hnoted⟩
    · rw [henter.stored_eq] at hd
      exact .inl ⟨layer, d, hd⟩

theorem Reported.pass (h : e.Reported starts s) (hfounded : e.Founded starts s)
    (hpass : e.Pass id item post final s s') : e.Reported starts s' := by
  have hrests := hfounded.items id item hpass.get
  have hvisits := fun l => hpass.visits (l := l)
  have hknown : ∀ a ∈ s.reachedErrors, s'.layers.Knows starts (e.transitions.target a) :=
    fun a ha => hpass.knows (h.known a ha)
  have hstored : ∀ l, s'.layers.Visits l → l ∉ starts → e.transitions.isError l = true →
      ∃ a ∈ s'.reachedErrors, e.transitions.target a = l := by
    intro l hl hstart herror
    have hmono := fun a => hpass.reached_mono (a := a)
    cases hpass with
    | intro _ _ _ _ hend =>
      obtain hold | ⟨htarget, hnoted⟩ := hend.visits_cases hl
      · obtain ⟨a, ha, htarget⟩ := h.stored l hold hstart herror
        exact ⟨a, hmono a ha, htarget⟩
      · exact ⟨item.action, hnoted herror, htarget.symm⟩
  cases hpass with
  | intro _ _ _ _ hend _ _ herrors =>
    cases herrors with
    | silent hreached hexamples =>
      refine ⟨by rw [hexamples, hreached]; exact h.examples, by rw [hreached]; exact h.distinct,
        hstored, by rw [hreached]; exact hknown⟩
    | reported _ hpost hcovered hfirst haction _ hreached hexamples =>
      refine ⟨?_, ?_, hstored, ?_⟩
      · rw [hexamples, hreached, List.map_append, h.examples, List.map_singleton, haction]
      · rw [hreached]
        exact h.distinct.append (List.nodup_singleton _) (by simpa using hfirst)
      · intro a ha
        rw [hreached] at ha
        obtain ha | ha := List.mem_append.mp ha
        · exact hknown a ha
        · rw [List.mem_singleton.mp ha]
          exact hend.knows_target hrests hvisits hpost hcovered

theorem Reported.seed (h : e.Reported starts s) {location : L} {action : A}
    (hlocation : location ∈ starts) (hseed : e.SeedPart location action s s') :
    e.Reported starts s' := by
  obtain ⟨_, _, layers, _, -, hadd, hgrows⟩ := hseed
  have hlayers : s'.layers = layers := hgrows.unmoved.layers
  have hreached : s'.reachedErrors = s.reachedErrors := hgrows.unmoved.reachedErrors
  have hexamples : s'.counterexamples = s.counterexamples := hgrows.unmoved.counterexamples
  have hmerged := Layers.addState_ok hadd
  rw [← hlayers] at hmerged
  refine ⟨by rw [hreached, hexamples]; exact h.examples, by rw [hreached]; exact h.distinct, ?_, ?_⟩
  · rintro l ⟨layer, d, hd⟩ hl herror
    rw [hmerged.stored_eq] at hd
    rw [hreached]
    split at hd
    · rename_i hsame
      exact absurd hlocation (hsame.2 ▸ hl)
    · exact h.stored l ⟨layer, d, hd⟩ hl herror
  · intro a ha
    rw [hreached] at ha
    exact (h.known a ha).imp_right hmerged.visits

omit [DecidableEq A] [AbstractState S] in
theorem Reported.start : e.Reported starts (.start e.options) := by
  refine ⟨rfl, List.nodup_nil, ?_, fun a ha => (nomatch ha)⟩
  rintro l ⟨layer, d, hd⟩
  cases (Layers.stored?_empty e.options.maxParallelStates).symm.trans hd

theorem Reachable.reported (hc : e.Coherent) (h : e.Reachable starts s) :
    e.Reported starts s :=
  (h.induct (P := fun s => e.Founded starts s ∧ e.Reported starts s) ⟨.start, .start⟩
    (fun _ hl _ ha _ _ _ hseed hs => ⟨hs.1.seed hc hl ha hseed, hs.2.seed hl hseed⟩)
    fun _ _ _ _ _ _ hs hs' hpass h => ⟨h.1.pass hc hs hs' hpass, h.2.pass h.1 hpass⟩).2.2

end Engine

/-! ## §4. Answers. -/

namespace Answer

variable {answer : Answer L A S} {l : L}

theorem exists_mem_statesAt {layer : LayerId} {d : Disjunction S}
    (h : answer.layers.stored? layer l = some d) : ∃ q ∈ answer.statesAt l, q.2 = d := by
  unfold Layers.stored? at h
  obtain ⟨found, hfound, hstate⟩ := Option.bind_eq_some_iff.mp h
  refine ⟨(found.id, d), List.mem_filterMap.mpr ⟨found, ?_, ?_⟩, rfl⟩
  · exact Array.mem_toList_iff.mpr (Array.mem_of_getElem? hfound)
  · rw [hstate]
    rfl

/-- A location has states in an answer exactly if some layer has a state for it. -/
theorem statesAt_ne_nil_iff : answer.statesAt l ≠ [] ↔ answer.layers.Visits l := by
  constructor
  · intro h
    obtain ⟨q, hq⟩ := List.exists_mem_of_ne_nil _ h
    obtain ⟨found, hfound, hstate⟩ := List.mem_filterMap.mp hq
    obtain ⟨d, hd, -⟩ := Option.map_eq_some_iff.mp hstate
    obtain ⟨n, hn⟩ := Array.mem_iff_getElem?.mp (Array.mem_toList_iff.mp hfound)
    exact ⟨⟨n⟩, d, by rw [Layers.stored?, hn]; exact hd⟩
  · rintro ⟨layer, d, hd⟩
    obtain ⟨q, hq, -⟩ := exists_mem_statesAt hd
    exact List.ne_nil_of_mem hq

end Answer

namespace Engine

variable [AbstractState S]

/-- When a computation over a program ends, no action was reported twice, and an error location
that is no start has a state in some layer exactly if an action that leads there was reported. -/
theorem reported_iff_stored {T : Type} [DecidableEq T] {p : Program T} (hp : p.Built)
    {table : LoopTable} {e : Engine Nat (Transition T) S}
    (htransitions : e.transitions = p.transitions) (hloops : e.entersLoop = table.isEntered)
    {budget : Nat} {starts : List Nat} {answer : Answer Nat (Transition T) S}
    {s : RunState Nat (Transition T) S} (hrun : e.run budget starts = .ok answer s) :
    (answer.counterexamples.map Counterexample.errorAction).Nodup ∧
      ∀ l, p.isErrorLocation l = true → l ∉ starts →
        (answer.statesAt l ≠ [] ↔ ∃ c ∈ answer.counterexamples, c.errorAction.tail = l) := by
  obtain ⟨s₀, s₁, hseed, hlater, -, rfl⟩ := run_ok hrun
  have hreachable : e.Reachable starts s₁ := hlater.reachable (.seeded hseed)
  have hreported := hreachable.reported (hp.coherent htransitions hloops)
  have htarget : ∀ a, e.transitions.target a = a.tail := by
    rw [htransitions]
    exact fun _ => rfl
  refine ⟨by rw [hreported.examples]; exact hreported.distinct, fun l herror hl => ?_⟩
  rw [Answer.statesAt_ne_nil_iff]
  constructor
  · intro hvisits
    obtain ⟨a, ha, rfl⟩ := hreported.stored l hvisits hl (by rw [htransitions]; exact herror)
    rw [← hreported.examples] at ha
    obtain ⟨c, hc, rfl⟩ := List.mem_map.mp ha
    exact ⟨c, hc, (htarget _).symm⟩
  · rintro ⟨c, hc, rfl⟩
    have ha : c.errorAction ∈ s₁.reachedErrors := by
      rw [← hreported.examples]
      exact List.mem_map_of_mem hc
    obtain hstart | hvisits := hreported.known _ ha
    · rw [htarget] at hstart
      exact absurd hstart hl
    · rw [htarget] at hvisits
      exact hvisits

/-- A program with two error locations: one is reached directly and after a call, the other never
is. -/
def pitfalls : Program Statement := .ofAdditions
  [.procedure "main", .errorNode "main", .errorNode "main", .procedure "f", .node "main",
    .node "main", .internal 0 7 .nop, .call 7 6 "f" .nop, .internal 4 5 (.assign "x" 3),
    .internal 6 2 (.assumeAtLeast "x" 1), .internal 0 2 (.assign "x" 1),
    .internal 6 3 (.assumeAtLeast "x" 7)]

/-- The interval analysis of `pitfalls`, which has no loops. -/
def pitfallsIntervals : Engine Nat (Transition Statement) IntervalState :=
  pitfalls.intervals ⟨.empty⟩ ⟨1, 1, .fifo, false, Nat.one_pos, Nat.one_pos⟩

set_option maxRecDepth 100000 in
/-- Two actions that lead to the same error location are both reported. -/
theorem reported_iff_stored_pitfalls : ∃ answer s, pitfallsIntervals.run 40 [0] = .ok answer s ∧
    pitfalls.isErrorLocation 2 = true ∧ pitfalls.isErrorLocation 3 = true ∧
    answer.counterexamples.length = 2 ∧
    (answer.counterexamples.map Counterexample.errorAction).Nodup ∧
    answer.statesAt 2 ≠ [] ∧ (∃ c ∈ answer.counterexamples, c.errorAction.tail = 2) ∧
    answer.statesAt 3 = [] ∧ ¬∃ c ∈ answer.counterexamples, c.errorAction.tail = 3 := by
  have hanswers : pitfallsIntervals.answers 40 [0] (fun answer =>
      decide (answer.counterexamples.length = 2) && !(answer.statesAt 2).isEmpty &&
        (answer.statesAt 3).isEmpty) = true := by decide +kernel
  obtain ⟨answer, s, hrun, hcheck⟩ := exists_of_answers hanswers
  simp only [Bool.and_eq_true, Bool.not_eq_true', List.isEmpty_eq_false_iff, List.isEmpty_iff,
    decide_eq_true_eq] at hcheck
  obtain ⟨⟨hlength, htwo⟩, hthree⟩ := hcheck
  have hloops : pitfallsIntervals.entersLoop = LoopTable.isEntered ⟨.empty⟩ := rfl
  obtain ⟨hnodup, hiff⟩ := reported_iff_stored (p := pitfalls) ⟨_, rfl⟩ rfl hloops hrun
  have htwo' : pitfalls.isErrorLocation 2 = true := by decide +kernel
  have hthree' : pitfalls.isErrorLocation 3 = true := by decide +kernel
  exact ⟨answer, s, hrun, htwo', hthree', hlength, hnodup, htwo,
    (hiff 2 htwo' (by decide)).mp htwo, hthree,
    fun hc => (hiff 3 hthree' (by decide)).mpr hc hthree⟩

end Engine

end Interproc
