/-
  Interproc.Proofs.Substitution
  ─────────────────────────────
  Stepping over calls by what is known about them.  A summary belongs to a call that
  was interpreted, and an item that steps over a call uses a summary for more states
  than it starts from.  Whenever the summary grows, the item does so once more.  So if
  all returns get into the summary, then an item that steps over a call delivers all
  states with which the call returns.

  Returns are recorded unless they are dropped, because what is stored where the call
  came from covers them.  For these, it has to be asked for that the summary has them
  in the end, if there is one.

  Main result: `Engine.TellsAll.describes_of_walk`.
-/
import Mathlib
import Interproc.Proofs.Soundness

namespace Interproc

variable {L A S : Type}

/-! ## §1. Scopes and summaries belong to calls. -/

/-- A call was interpreted from a state. -/
def HasCall (W : Set (Item L A S)) (action : A) (before : Disjunction S) : Prop :=
  ∃ c ∈ W, c.summary = none ∧ c.returned = false ∧ c.action = action ∧ c.pre = before

theorem HasCall.mono {W W' : Set (Item L A S)} {action : A} {before : Disjunction S}
    (h : HasCall W action before) (hW : W ⊆ W') : HasCall W' action before := by
  obtain ⟨c, hc, hcall⟩ := h
  exact ⟨c, hW hc, hcall⟩

namespace Engine

variable [DecidableEq L] [DecidableEq A] [AbstractState S]
variable {e : Engine L A S} {s s' : RunState L A S} {id : ItemId} {item final : Item L A S}
variable {post : Disjunction S} {exits : Exits A S} {summaries : Summaries A S}
variable {new : List (Item L A S)} {F : Contexts L A S} {W W' : Set (Item L A S)}
variable {D D' : Set (Item L A S × Disjunction S)}

/-- Scopes were entered by calls that were interpreted, calls that wait were, and summaries are of
such calls. -/
structure Called (W : Set (Item L A S)) (s : RunState L A S) : Prop where
  scopes : ∀ j i, s.items.get j = .ok i → ∀ scope ∈ i.scopes, HasCall W scope.action scope.before
  waiting : ∀ layer, ∀ k ∈ (s.exits.activation layer).calls, ∀ c, s.items.get k = .ok c →
    HasCall W c.action c.pre
  entries : ∀ call, ∀ m ∈ s.summaries.ofCall call, HasCall W call m.pre

/-- The scopes that a pass leaves behind were there before, except for the one that it enters. -/
theorem EndPart.scopes_final (h : e.EndPart id item post s exits summaries final new s')
    {scope : Scope A S} (hscope : scope ∈ final.scopes) : scope ∈ item.scopes ∨
      e.transitions.entersScope item.action = true ∧ scope.action = item.action ∧
        scope.before = item.pre := by
  obtain ⟨loops, hadvanced⟩ := e.advanced_eq item
  have hold : ∀ scope ∈ (e.advanced item).scopes, scope ∈ item.scopes := by
    intro scope hscope
    rw [hadvanced] at hscope
    dsimp only at hscope
    split at hscope
    · exact List.mem_of_mem_tail hscope
    · exact hscope
  cases h with
  | infeasible _ hfinal => exact .inl (hfinal ▸ hscope)
  | covered _ _ _ hfinal => exact .inl (hfinal ▸ hscope)
  | coveredCall _ _ _ _ hfinal => exact .inl (hfinal ▸ hscope)
  | loopFixpoint _ _ _ _ _ _ _ _ hfinal => exact .inl (hold scope (hfinal ▸ hscope))
  | entryFixpoint _ _ _ _ _ _ _ _ _ hfinal => exact .inl (hold scope (hfinal ▸ hscope))
  | stored _ _ _ _ henter =>
    generalize s.layers = layers at henter
    cases henter with
    | stayed => exact .inl (hold scope hscope)
    | entered henters =>
      rw [advanced_action] at henters
      obtain rfl | hscope := List.mem_cons.mp hscope
      · refine .inr ⟨henters, advanced_action item, ?_⟩
        rw [hadvanced]
      · exact .inl (hold scope hscope)

/-- A call that is processed is interpreted. -/
theorem Covering.hasCall (hc : e.Coherent) (hs : e.Orderly s) (h : e.Covering F W s)
    (hid : id ∈ s.pending) (hget : s.items.get id = .ok item)
    (henters : e.transitions.entersScope item.action = true) :
    HasCall W item.action item.pre := by
  refine ⟨item, h.waits item ⟨id, hid, hget⟩, ?_,
    (h.backed.framed.within_of_enters hc.separate hid hget henters).1, rfl, rfl⟩
  cases hsummary : item.summary with
  | none => rfl
  | some r =>
    rw [hc.standIn_enters (hs.standing id item r hget hsummary)] at henters
    cases henters

namespace Called

theorem scopes_final (hc : e.Coherent) (hs : e.Orderly s) (hcovering : e.Covering F W s)
    (h : Called W s) (hid : id ∈ s.pending) (hget : s.items.get id = .ok item)
    (hend : e.EndPart id item post s exits summaries final new s') {scope : Scope A S}
    (hscope : scope ∈ final.scopes) : HasCall W scope.action scope.before := by
  obtain hold | ⟨henters, haction, hbefore⟩ := hend.scopes_final hscope
  · exact h.scopes id item hget scope hold
  · rw [haction, hbefore]
    exact hcovering.hasCall hc hs hid hget henters

/-- A call that the end of a pass makes wait is one that was processed. -/
theorem hasCall_final (hc : e.Coherent) (hs : e.Orderly s) (hcovering : e.Covering F W s)
    (hid : id ∈ s.pending) (hget : s.items.get id = .ok item)
    (hend : e.EndPart id item post s exits summaries final new s')
    (henters : e.transitions.entersScope item.action = true) :
    HasCall W final.action final.pre := by
  have hcall := hcovering.hasCall hc hs hid hget henters
  obtain ⟨_, _, hshape⟩ := hend.final_eq
  rw [hshape]
  exact hcall

theorem scopes_pass {handed : List (Item L A S)} {added : List (ItemId × Item L A S)}
    (hc : e.Coherent) (hs : e.Orderly s) (hcovering : e.Covering F W s) (h : Called W s)
    (hid : id ∈ s.pending) (hget : s.items.get id = .ok item)
    (hexit : e.ExitPart item s exits handed)
    (hend : e.EndPart id item post s exits summaries final new s')
    (hadded : added.map Prod.snd = handed ++ new) (hframe : Frame id final added s s')
    {j : ItemId} {i : Item L A S} (hi : s'.items.get j = .ok i) {scope : Scope A S}
    (hscope : scope ∈ i.scopes) : HasCall W scope.action scope.before := by
  have hfinal := fun scope (hscope : scope ∈ final.scopes) =>
    h.scopes_final hc hs hcovering hid hget hend hscope
  obtain hmem | hmem | ⟨-, rfl⟩ | hold := hframe.live_cases hadded hi
  · obtain ⟨k, hk, x, -, c, hgetc, rfl⟩ := hexit.handed_eq hmem
    rw [hexit.exits_mem.1] at hk
    obtain rfl | hscope := List.mem_cons.mp hscope
    · exact h.waiting _ k hk c hgetc
    · exact h.scopes k c hgetc scope hscope
  · obtain ⟨k, stale, p, q, -, -, hq, -, rfl⟩ | ⟨layer, x, entry, -, henters, -, -, rfl⟩ |
      ⟨widened, -, action, -, rfl⟩ := hend.mem_new hmem
    · exact h.scopes p q hq scope hscope
    · obtain rfl | hscope := List.mem_cons.mp hscope
      · exact hasCall_final hc hs hcovering hid hget hend henters
      · exact hfinal scope hscope
    · obtain ⟨action', summary, hshape⟩ := e.successorOf_eq s'.summaries id final widened action
      rw [hshape] at hscope
      exact hfinal scope hscope
  · exact hfinal scope hscope
  · exact h.scopes j i hold scope hscope

theorem entries_pass (h : Called W s) (hget : s.items.get id = .ok item)
    (hpost : e.PostPart id item s post summaries)
    (hend : e.EndPart id item post s exits summaries final new s') {call : A} {m : Summary S}
    (hm : m ∈ s'.summaries.ofCall call) : HasCall W call m.pre := by
  have hpre := List.mem_map_of_mem (f := Summary.pre) hm
  have hold : m.pre ∈ (s.summaries.ofCall call).map Summary.pre → HasCall W call m.pre := by
    intro hold
    obtain ⟨m', hm', hsame⟩ := List.mem_map.mp hold
    rw [← hsame]
    exact h.entries call m' hm'
  obtain hsame | ⟨scope, hscope, rfl, -, hlast⟩ := pres_pass hpost hend call
  · exact hold (hsame ▸ hpre)
  · rw [hlast] at hpre
    obtain hpre | hpre := List.mem_append.mp hpre
    · exact hold hpre
    · rw [List.mem_singleton.mp hpre]
      exact h.scopes id item hget scope (List.mem_of_mem_head? hscope)

/-- Every pass keeps that scopes were entered by calls that were interpreted. -/
theorem pass (hc : e.Coherent) (hs : e.Orderly s) (hs' : e.Orderly s')
    (hcovering : e.Covering F W s) (h : Called W s) (hpass : e.Pass id item post final s s')
    (hW : W ⊆ W') : Called W' s' := by
  have hpass' := hpass
  cases hpass with
  | @intro worklist exits summaries handed new added hpop hget hexit hpost hend hadded hframe =>
    have hid : id ∈ s.pending := Worklist.mem_of_pop hpop
    refine ⟨fun j i hi scope hscope => HasCall.mono ?_ hW,
      fun layer k hk c hget' => HasCall.mono ?_ hW, fun call m hm => HasCall.mono ?_ hW⟩
    · exact h.scopes_pass hc hs hcovering hid hget hexit hend hadded hframe hi hscope
    · obtain hold | ⟨rfl, henters, -⟩ := hend.calls_mem.2 layer k hk
      · rw [hexit.exits_mem.1] at hold
        have hheld := Exits.held_pos_of_call hold
        obtain ⟨c', hc'⟩ := hs.tidy.live_of_held (j := k) (by omega)
        rw [hpass'.get_call hs hs' hold hc'] at hget'
        cases hget'
        exact h.waiting layer k hold c hc'
      · rw [hpass'.get_waiting hs' hk] at hget'
        cases hget'
        exact hasCall_final hc hs hcovering hid hget hend henters
    · exact h.entries_pass hget hpost hend hm

end Called

/-! ## §2. Using summaries. -/

/-- What is known about the call of an item's scope covers a state with which the scope is left. -/
def Knows (m : Summaries A S) (item : Item L A S) (post : Disjunction S) : Prop :=
  ∃ scope, item.scopes.head? = some scope ∧ ∃ k ∈ m.ofCall scope.action,
    k.pre.isEquivalent scope.before = true ∧ post.isSubset k.post = true

variable (e) in
/-- An item that steps over a call uses the summary, and delivers the states that the summary has
after the return. -/
def StepsOver (W : Set (Item L A S)) (s : RunState L A S) (o : Item L A S) (r : SummaryRef A) :
    Prop :=
  ∃ m, s.summaries.summaryAt? r = some m ∧ (∃ k ∈ m.uses, s.Redoes k o) ∧
    e.Delivered W s.layers (e.landing o) o.action (e.advanced o).currentScope m.post

variable (e) in
/-- There is one summary for each state before a call, items use summaries for more states than
theirs, all returns are known except for those in `D`, and what the summaries have is delivered. -/
structure Filed (W : Set (Item L A S)) (D : Set (Item L A S × Disjunction S))
    (s : RunState L A S) : Prop where
  distinct : ∀ call, ((s.summaries.ofCall call).map Summary.pre).Pairwise fun d d' =>
    d.isEquivalent d' = false
  live : ∀ j i r, s.items.get j = .ok i → i.summary = some r →
    ∃ m, s.summaries.summaryAt? r = some m ∧ i.pre.isSubset m.pre = true
  seen : ∀ i ∈ W, ∀ r, i.summary = some r →
    ∃ m, s.summaries.summaryAt? r = some m ∧ i.pre.isSubset m.pre = true
  knows : ∀ j ∈ W, e.leaves j = true → s.Waits j ∨
    ∃ post, e.evaluate j = .ok post ∧
      (post.isBottom = true ∨ Knows s.summaries j post ∨ (j, post) ∈ D)
  stepped : ∀ o ∈ W, ∀ r, o.summary = some r → s.Waits o ∨ e.StepsOver W s o r

section Knowing

variable [LawfulState S]

theorem Knows.pass (hproper : s.summaries.AllPosts Disjunction.Proper)
    (hpost : e.PostPart id item s post summaries)
    (hend : e.EndPart id item post s exits summaries final new s') {j : Item L A S}
    {d : Disjunction S} (h : Knows s.summaries j d) : Knows s'.summaries j d := by
  obtain ⟨scope, hscope, k, hk, hpre, hsub⟩ := h
  obtain ⟨i, hi⟩ := List.getElem?_of_mem hk
  obtain ⟨k', hk', hsame, hgrown, -⟩ :=
    entry_pass hproper hpost hend (r := ⟨scope.action, i⟩) hi
  exact ⟨scope, hscope, k', List.mem_of_getElem? hk', hsame ▸ hpre,
    Disjunction.isSubset_trans hsub hgrown⟩

/-- A return that is not dropped gets known. -/
theorem knows_of_recorded (hc : e.Coherent)
    (hend : e.EndPart id item post s exits summaries final new s')
    (hleaves : e.leaves item = true) (hpost : post.isBottom = false)
    (hcovered : e.covers s.layers item post ≠ .ok true) : Knows s'.summaries item post := by
  obtain ⟨-, hdropped⟩ | ⟨hsummaries, -⟩ := hend.summaries_cases
  · obtain hbottom | hdropped := hdropped
    · rw [hpost] at hbottom
      cases hbottom
    · exact absurd hdropped hcovered
  · obtain ⟨hnone, -⟩ | ⟨-, scope, hscope, hrecord⟩ := e.summarise_cases item post summaries
    · obtain hnone | hnone := hnone
      · rw [hleaves] at hnone
        cases hnone
      · -- There is a scope to leave.
        unfold leaves Item.currentScope at hleaves
        rw [hnone, List.head?_nil, Option.map_none, hc.leaves_none] at hleaves
        cases hleaves
    · refine ⟨scope, hscope, ?_⟩
      rw [hsummaries, hrecord, Summaries.ofCall_record, if_pos rfl]
      exact Summaries.recorded_recordIn hpost _ _ _

end Knowing

/-- Items that use a summary are kept, and so is what they would do once more. -/
theorem Pass.redoes (hs : e.Orderly s) (hs' : e.Orderly s')
    (hpass : e.Pass id item post final s s') {k : ItemId} {o : Item L A S}
    (hk : 0 < s.summaries.held k) (hk' : 0 < s'.summaries.held k) (h : s.Redoes k o) :
    s'.Redoes k o := by
  cases hpass with
  | intro hpop _ _ _ _ _ hframe =>
    have hid : id ∈ s.pending := Worklist.mem_of_pop hpop
    obtain ⟨stale, p, q, hstale, hp, hq, hsome, rfl⟩ := h
    have hne : k ≠ id := fun hkid => hs.tidy.not_pending (j := k) (by omega) (hkid ▸ hid)
    obtain ⟨stale', hstale'⟩ := hs'.tidy.live_of_held (j := k) (by omega)
    have hsame := hframe.get_settled (hs'.tidy.not_pending (by omega)) hne hstale'
    rw [hstale] at hsame
    cases hsame
    have hpne : p ≠ id := fun hpid => (hs.tidy.predecessor hstale hp).1 (hpid ▸ hid)
    obtain ⟨hnot, q', hq'⟩ := hs'.tidy.predecessor hstale' hp
    have hsame := hframe.get_settled hnot hpne hq'
    rw [hq] at hsame
    cases hsame
    exact ⟨stale, p, q, hstale', hp, hq', hsome, rfl⟩

/-- What an item that used a summary would do once more is what it did. -/
theorem Pass.redoes_self (hc : e.Coherent) (hs : e.Orderly s) (hs' : e.Orderly s')
    (hcovering : e.Covering F W s) (hpass : e.Pass id item post final s s') {r : SummaryRef A}
    (hsummary : item.summary = some r) (hheld : 0 < s'.summaries.held id) :
    s'.Redoes id item := by
  cases hpass with
  | intro hpop hget _ _ hend _ hframe =>
    have hid : id ∈ s.pending := Worklist.mem_of_pop hpop
    have hstands := hs.standing id item r hget hsummary
    obtain ⟨hreturned, layer, hwithin⟩ | ⟨-, layer, hreturning⟩ :=
      hcovering.backed.framed.item_cases hid hget
    · obtain ⟨p, hp⟩ := Option.isSome_iff_exists.mp
        (hs.tidy.linked id item hget (by rw [hsummary]; rfl))
      obtain ⟨hnot, q, hq⟩ := hs.tidy.predecessor hget hp
      obtain ⟨hscopes, hloops⟩ :=
        hcovering.backed.framed.follows id hid item p q hget hreturned hp hq
      obtain ⟨_, hq_within⟩ := hcovering.backed.framed.predecessors id item p q hget hp hq
      obtain ⟨final', hfinal'⟩ := hs'.tidy.live_of_held (j := id) (by omega)
      have hsame := hframe.get_final (hs'.tidy.not_pending (by omega)) hfinal'
      obtain ⟨scopes, loops, hshape⟩ := hend.final_eq
      rw [hsame, hshape] at hfinal'
      obtain ⟨hnot', q', hq'⟩ := hs'.tidy.predecessor hfinal' hp
      have hpne : p ≠ id := fun hpid => hnot (hpid ▸ hid)
      have hold := hframe.get_settled hnot' hpne hq'
      rw [hq] at hold
      cases hold
      refine ⟨_, p, q, hfinal', hp, hq', by rw [hsummary]; rfl, ?_⟩
      obtain ⟨action, pre, predecessor, rootLayer, itemScopes, itemLoops, summary, returned⟩ := item
      have hroot : rootLayer = q.rootLayer := hwithin.root.trans hq_within.root.symm
      simp only at hp hscopes hloops hreturned
      simp only [Item.successor, hp, hscopes, hloops, hreturned, hroot]
    · have hleaves := hreturning.leaves
      rw [leaves, hc.standIn_leaves hstands] at hleaves
      cases hleaves

variable (e) in
/-- The item leaves a scope with a state, and is dropped because what is stored covers it. -/
def DropsReturn (layers : Layers L A S) (item : Item L A S) (post : Disjunction S) : Prop :=
  e.leaves item = true ∧ post.isBottom = false ∧ e.covers layers item post = .ok true

omit [DecidableEq L] in
theorem matches_of_successorOf {widened : Disjunction S} {action : A} {r : SummaryRef A}
    (h : (e.successorOf summaries id final widened action).summary = some r) :
    ∃ m, summaries.summaryAt? r = some m ∧
      (e.successorOf summaries id final widened action).pre.isSubset m.pre = true := by
  unfold successorOf at h ⊢
  dsimp only at h ⊢
  split at h
  · rename_i hknown _
    cases h
    split at hknown
    · exact Summaries.matches_of_lookup hknown
    · cases hknown
  · cases h

namespace Filed

theorem distinct_pass (h : e.Filed W D s) (hpost : e.PostPart id item s post summaries)
    (hend : e.EndPart id item post s exits summaries final new s') (call : A) :
    ((s'.summaries.ofCall call).map Summary.pre).Pairwise fun d d' =>
      d.isEquivalent d' = false := by
  obtain hsame | ⟨scope, -, -, hnew, hlast⟩ := pres_pass hpost hend call
  · rw [hsame]
    exact h.distinct call
  · rw [hlast]
    refine List.pairwise_append.mpr ⟨h.distinct call, List.pairwise_singleton _ _, ?_⟩
    intro d hd d' hd'
    rw [List.mem_singleton.mp hd']
    exact hnew d hd

variable [LawfulState S]

theorem live_pass (h : e.Filed W D s) (hclean : Clean s) (hpass : e.Pass id item post final s s')
    (j : ItemId) (i : Item L A S) (r : SummaryRef A) (hi : s'.items.get j = .ok i)
    (hsummary : i.summary = some r) :
    ∃ m, s'.summaries.summaryAt? r = some m ∧ i.pre.isSubset m.pre = true := by
  cases hpass with
  | @intro worklist exits summaries handed new added hpop hget hexit hpost hend hadded hframe =>
    have hkept : ∀ j i', s.items.get j = .ok i' → i'.summary = i.summary → i'.pre = i.pre →
        ∃ m, s'.summaries.summaryAt? r = some m ∧ i.pre.isSubset m.pre = true := by
      intro j i' hi' hsame hpre
      obtain ⟨m, hm, hsub⟩ := h.live j i' r hi' (hsame.trans hsummary)
      obtain ⟨m', hm', hmpre, -⟩ := entry_pass hclean.posts hpost hend hm
      exact ⟨m', hm', by rw [hmpre, ← hpre]; exact hsub⟩
    obtain hmem | hmem | ⟨-, rfl⟩ | hold := hframe.live_cases hadded hi
    · obtain ⟨_, -, _, -, _, -, rfl⟩ := hexit.handed_eq hmem
      cases hsummary
    · obtain ⟨k, stale, _, _, hstale, -, -, -, rfl⟩ | ⟨_, _, _, -, -, -, -, rfl⟩ |
        ⟨widened, -, action, -, rfl⟩ := hend.mem_new hmem
      · exact hkept k stale hstale rfl rfl
      · cases hsummary
      · exact matches_of_successorOf hsummary
    · obtain ⟨scopes, loops, rfl⟩ := hend.final_eq
      exact hkept id item hget rfl rfl
    · exact hkept j i hold rfl rfl

theorem knows_pass (hc : e.Coherent) (hs : e.Orderly s) (h : e.Filed W D s) (hclean : Clean s)
    (hpass : e.Pass id item post final s s') (hD : D ⊆ D')
    (hdropped : e.DropsReturn s.layers item post → (item, post) ∈ D') {j : Item L A S}
    (hj : j ∈ W) (hleaves : e.leaves j = true) : s'.Waits j ∨
      ∃ post, e.evaluate j = .ok post ∧
        (post.isBottom = true ∨ Knows s'.summaries j post ∨ (j, post) ∈ D') := by
  cases hpass with
  | @intro worklist exits summaries handed new added hpop hget hexit hpost hend hadded hframe =>
    -- A return that waited is processed now, or waits still; one that is done is known for good.
    obtain ⟨k, hk, hgetk⟩ | ⟨d, hevaluate, hknown⟩ := h.knows j hj hleaves
    · by_cases hne : k = id
      · subst hne
        rw [hget] at hgetk
        cases hgetk
        right
        have hevaluate : e.evaluate item = .ok post := by
          cases hpost with
          | interpreted _ hevaluate => exact hevaluate
          | summarised hsummary =>
            rw [leaves, hc.standIn_leaves (hs.standing k item _ hget hsummary)] at hleaves
            cases hleaves
        refine ⟨post, hevaluate, ?_⟩
        cases hbottom : post.isBottom with
        | true => exact .inl rfl
        | false =>
          right
          by_cases hcovered : e.covers s.layers item post = .ok true
          · exact .inr (hdropped ⟨hleaves, hbottom, hcovered⟩)
          · exact .inl (knows_of_recorded hc hend hleaves hbottom hcovered)
      · exact .inl ⟨k, (hframe.mem_pending k).mpr (.inl ⟨hk, hne⟩), hframe.kept k j hk hne hgetk⟩
    · refine .inr ⟨d, hevaluate, ?_⟩
      obtain hbottom | hknown | hmem := hknown
      · exact .inl hbottom
      · exact .inr (.inl (hknown.pass hclean.posts hpost hend))
      · exact .inr (.inr (hD hmem))

/-- An item that used a summary before a pass uses it still, or waits to do so once more. -/
theorem stepsOver_pass (hs : e.Orderly s) (hs' : e.Orderly s') (hcovering : e.Covering F W s)
    (hclean : Clean s) (hpass : e.Pass id item post final s s') (hW : W ⊆ W')
    {o : Item L A S} {r : SummaryRef A} (h : e.StepsOver W s o r) :
    s'.Waits o ∨ e.StepsOver W' s' o r := by
  have hgrown := hpass.grown hcovering.backed.proper
  have hpass' := hpass
  cases hpass with
  | @intro worklist exits summaries handed new added hpop hget hexit hpost hend hadded hframe =>
    obtain ⟨m, hm, ⟨k, hk, hredoes⟩, hdelivered⟩ := h
    obtain ⟨m', hm', -, -, hcases⟩ := entry_pass hclean.posts hpost hend hm
    obtain ⟨hsame, huses⟩ | hredone := hcases
    · have hheld := Summaries.held_pos_of_use (List.mem_of_getElem? hm) hk
      have hheld' := Summaries.held_pos_of_use (List.mem_of_getElem? hm') (huses k hk)
      refine .inr ⟨m', hm', ⟨k, huses k hk, hpass'.redoes hs hs' hheld hheld' hredoes⟩, ?_⟩
      rw [hsame]
      exact hdelivered.mono hW hgrown
    · -- The summary has grown, so the item was put on the worklist.
      obtain ⟨i, hi, hredoes'⟩ := hredone k hk
      obtain ⟨stale, p, q, hstale, hp, hq, -, rfl⟩ := hredoes
      obtain ⟨stale', p', q', hstale', hp', hq', -, rfl⟩ := hredoes'
      rw [hstale] at hstale'
      cases hstale'
      rw [hp] at hp'
      cases hp'
      rw [hq] at hq'
      cases hq'
      exact .inl (hframe.waits_of_mem hadded (List.mem_append_right _ hi))

/-- An item that steps over a call in a pass uses its summary, and delivers what that has. -/
theorem stepsOver_self (hc : e.Coherent) (hlaws : e.domain.Lawful) (hs : e.Orderly s)
    (hs' : e.Orderly s') (hcovering : e.Covering F W s)
    (hpass : e.Pass id item post final s s') (hfree : e.DropsFreely W s.layers item post)
    (hW : W ⊆ W') (hnew : ∀ i, s'.Waits i → i ∈ W') {r : SummaryRef A}
    (hsummary : item.summary = some r) : e.StepsOver W' s' item r := by
  have hgrown := hpass.grown hcovering.backed.proper
  have hpass' := hpass
  cases hpass with
  | @intro worklist exits summaries handed new added hpop hget hexit hpost hend hadded hframe =>
    have hid : id ∈ s.pending := Worklist.mem_of_pop hpop
    have hstands := hs.standing id item r hget hsummary
    have hleaves : e.leaves item = false := hc.standIn_leaves hstands
    cases hpost with
    | interpreted hnone =>
      rw [hsummary] at hnone
      cases hnone
    | summarised hsome hpost hsummaries =>
      rw [hsummary] at hsome
      cases hsome
      obtain ⟨m, hm, rfl⟩ := Option.map_eq_some_iff.mp hpost
      -- Items that step over a call leave no scope, so nothing is recorded.
      have hunchanged : s'.summaries = summaries := by
        obtain ⟨hsame, -⟩ | ⟨hsame, -⟩ := hend.summaries_cases
        · exact hsame
        · obtain ⟨-, hnone⟩ | ⟨hsome, -⟩ := e.summarise_cases item m.post summaries
          · rw [hsame, hnone]
          · rw [hleaves] at hsome
            cases hsome
      have hentry : s'.summaries.summaryAt? r = some { m with uses := m.uses ++ [id] } := by
        rw [hunchanged, hsummaries, Summaries.summaryAt?_addUse]
        unfold Summaries.summaryAt?
        rw [hm, Option.map_some, if_pos rfl]
      have huse : id ∈ m.uses ++ [id] := List.mem_append_right _ (List.mem_singleton_self id)
      have hheld := Summaries.held_pos_of_use (List.mem_of_getElem? hentry) huse
      refine ⟨_, hentry, ⟨id, huse,
        hpass'.redoes_self hc hs hs' hcovering hsummary hheld⟩, ?_⟩
      refine (hcovering.backed.outcome hc hlaws hid hget hend).delivered hlaws hgrown
        (hc.standIn_enters hstands) hW (fun i hi => ?_) hfree
      exact hnew i (hframe.waits_of_mem hadded (List.mem_append_right _ hi))

theorem stepped_pass (hc : e.Coherent) (hlaws : e.domain.Lawful) (hs : e.Orderly s)
    (hs' : e.Orderly s') (hcovering : e.Covering F W s) (h : e.Filed W D s) (hclean : Clean s)
    (hpass : e.Pass id item post final s s') (hfree : e.DropsFreely W s.layers item post)
    (hW : W ⊆ W') (hnew : ∀ i, s'.Waits i → i ∈ W') {o : Item L A S} (ho : o ∈ W)
    {r : SummaryRef A} (hsummary : o.summary = some r) :
    s'.Waits o ∨ e.StepsOver W' s' o r := by
  obtain ⟨k, hk, hgetk⟩ | hover := h.stepped o ho r hsummary
  · have hget := hpass.get
    by_cases hne : k = id
    · subst hne
      rw [hget] at hgetk
      cases hgetk
      exact .inr (stepsOver_self hc hlaws hs hs' hcovering hpass hfree hW hnew hsummary)
    · cases hpass with
      | intro _ _ _ _ _ _ hframe =>
        exact .inl ⟨k, (hframe.mem_pending k).mpr (.inl ⟨hk, hne⟩), hframe.kept k o hk hne hgetk⟩
  · exact stepsOver_pass hs hs' hcovering hclean hpass hW hover

/-- Every pass keeps the summaries in order, if it drops items freely. -/
theorem pass (hc : e.Coherent) (hlaws : e.domain.Lawful) (hs : e.Orderly s)
    (hs' : e.Orderly s') (hcovering : e.Covering F W s) (h : e.Filed W D s) (hclean : Clean s)
    (hpass : e.Pass id item post final s s') (hfree : e.DropsFreely W s.layers item post)
    (hW : W ⊆ W') (hnew : ∀ i, s'.Waits i → i ∈ W') (honly : ∀ i ∈ W', i ∈ W ∨ s'.Waits i)
    (hD : D ⊆ D') (hdropped : e.DropsReturn s.layers item post → (item, post) ∈ D') :
    e.Filed W' D' s' := by
  have hlive := h.live_pass hclean hpass
  refine ⟨?_, hlive, ?_, ?_, ?_⟩
  · cases hpass with
    | intro _ _ _ hpost hend => exact h.distinct_pass hpost hend
  · intro i hi r hsummary
    obtain hi | ⟨j, -, hi⟩ := honly i hi
    · obtain ⟨m, hm, hsub⟩ := h.seen i hi r hsummary
      cases hpass with
      | intro _ _ _ hpost hend =>
        obtain ⟨m', hm', hpre, -⟩ := entry_pass hclean.posts hpost hend hm
        exact ⟨m', hm', hpre ▸ hsub⟩
    · exact hlive j i r hi hsummary
  · intro j hj hleaves
    obtain hj | hwaits := honly j hj
    · exact h.knows_pass hc hs hclean hpass hD hdropped hj hleaves
    · exact .inl hwaits
  · intro o ho r hsummary
    obtain ho | hwaits := honly o ho
    · exact h.stepped_pass hc hlaws hs hs' hcovering hclean hpass hfree hW hnew ho hsummary
    · exact .inl hwaits

end Filed

/-! ## §3. Whole computations. -/

variable {starts : List L} {n : Nat}

variable (e) in
/-- The returns that were dropped during the first `n` passes. -/
def droppedReturns (starts : List L) (n : Nat) : Set (Item L A S × Disjunction S) :=
  { q | ∃ m < n, ∃ s, e.stateAfter starts m = some s ∧ e.TakesUp s q.1 q.2 ∧
    e.DropsReturn s.layers q.1 q.2 }

theorem droppedReturns_mono {m : Nat} (h : m ≤ n) :
    e.droppedReturns starts m ⊆ e.droppedReturns starts n := by
  rintro q ⟨k, hk, hdropped⟩
  exact ⟨k, lt_of_lt_of_le hk h, hdropped⟩

/-- If there is a summary for the call of an item's scope, then it covers a state with which the
scope is left. -/
def Told (m : Summaries A S) (item : Item L A S) (post : Disjunction S) : Prop :=
  ∀ scope ∈ item.scopes.head?, ∀ k ∈ m.ofCall scope.action,
    k.pre.isEquivalent scope.before = true → post.isSubset k.post = true

variable (e) in
/-- In the end, the summaries of calls cover all returns that were dropped. -/
def TellsAll (starts : List L) : Prop :=
  ∀ n s, e.stateAfter starts n = some s → s.pending = [] →
    ∀ q ∈ e.droppedReturns starts n, Told s.summaries q.1 q.2

/-- Before the first pass there are neither scopes nor summaries. -/
theorem called_of_seed (hseed : e.seed starts (.start e.options) = .ok () s) : Called W s := by
  have hpristine := pristine_of_seed hseed
  have hinitial := initial_of_seed hseed
  refine ⟨fun j i hi scope hscope => ?_, fun layer k hk => ?_, fun call m hm => ?_⟩
  · obtain ⟨action, pre, rfl⟩ := hinitial j i hi
    cases hscope
  · rw [hpristine.exits] at hk
    cases hk
  · rw [hpristine.summaries] at hm
    cases hm

theorem filed_of_seed (hseed : e.seed starts (.start e.options) = .ok () s)
    (hwaits : ∀ i ∈ W, s.Waits i) : e.Filed W D s := by
  have hpristine := pristine_of_seed hseed
  have hinitial := initial_of_seed hseed
  have hnone : ∀ i, s.Waits i → ∀ r, i.summary ≠ some r := by
    rintro i ⟨j, -, hi⟩ r hsome
    obtain ⟨action, pre, rfl⟩ := hinitial j i hi
    cases hsome
  refine ⟨fun call => ?_, fun j i r hi hsome => ?_, fun i hi r hsome => ?_,
    fun j hj _ => .inl (hwaits j hj), fun o ho r _ => .inl (hwaits o ho)⟩
  · rw [hpristine.summaries]
    exact List.Pairwise.nil
  · obtain ⟨action, pre, rfl⟩ := hinitial j i hi
    cases hsome
  · exact absurd hsome (hnone i (hwaits i hi) r)

variable [LawfulState S]

/-- The summaries are in order throughout a computation that is free of losses. -/
theorem LossFree.filed (hc : e.Coherent) (hlaws : e.domain.Lawful) (hfree : e.LossFree starts)
    (hs : e.stateAfter starts n = some s) :
    Called (e.seen starts n) s ∧ e.Filed (e.seen starts n) (e.droppedReturns starts n) s := by
  induction n generalizing s with
  | zero =>
    have hseed := stateAfter_zero.mp hs
    refine ⟨called_of_seed hseed, filed_of_seed hseed ?_⟩
    rintro i ⟨m, hm, t, ht, hwaits⟩
    rw [Nat.le_zero.mp hm, hs] at ht
    cases ht
    exact hwaits
  | succ n ih =>
    have hs' := hs
    obtain ⟨t, ht, hiterate⟩ := iterate_of_stateAfter hs
    obtain ⟨hcalled, hfiled⟩ := ih ht
    obtain ⟨hordered, F, hcovering⟩ := hfree.covering hc hlaws ht
    obtain ⟨hordered', id, item, post, final, hpass⟩ := hordered.pass hiterate
    have hW := e.seen_mono starts n
    exact ⟨hcalled.pass hc hordered hordered' hcovering hpass hW,
      hfiled.pass hc hlaws hordered hordered' hcovering (reachable_of_stateAfter ht).clean hpass
        (hfree n t item post ht hpass.takesUp) hW
        (fun i hwaits => ⟨n + 1, le_rfl, s, hs', hwaits⟩) (fun i => seen_cases hs')
        (droppedReturns_mono (Nat.le_succ n))
        fun hdrops => ⟨n, Nat.lt_succ_self n, t, ht, hpass.takesUp, hdrops⟩⟩

/-! ## §4. Finished computations. -/

variable {X : Type} {R : S → X → Prop} {next : A → X → X → Prop}

variable (e next) in
/-- What stands for a call leads where the returns of the call lead. -/
def StandsIn : Prop :=
  ∀ call u r x y, e.transitions.summaryOf call = some u →
    e.transitions.leavesScope r (some call) = true → next r x y →
    e.transitions.target r = e.transitions.target u ∧
      ∀ scope, e.onward r scope = e.onward u scope

omit [LawfulState S] in
/-- There is only one summary for a state before a call. -/
theorem Filed.eq_of_equivalent (h : e.Filed W D s) {call : A} {m k : Summary S}
    (hm : m ∈ s.summaries.ofCall call) (hk : k ∈ s.summaries.ofCall call)
    (heq : k.pre.isEquivalent m.pre = true) : k = m := by
  have hpairwise := List.pairwise_map.mp (h.distinct call)
  have : Std.Symm fun m m' : Summary S => m.pre.isEquivalent m'.pre = false :=
    ⟨fun m m' hdiffer => by rw [Disjunction.isEquivalent, Bool.and_comm]; exact hdiffer⟩
  by_contra hne
  have hdiffer := hpairwise.forall hk hm hne
  rw [heq] at hdiffer
  cases hdiffer

/-- What returns to a call is in the summary for the state before it. -/
theorem Filed.exists_of_leadsBack (hsound : e.Sound R next) (h : e.Filed W D s)
    (htold : ∀ q ∈ D, Told s.summaries q.1 q.2) (hfinished : s.pending = [])
    {c j : Item L A S} (hj : j ∈ W) {b : A} (hback : e.LeadsBack F c b j) {u : S}
    (hu : u ∈ j.pre.states) {x y : X} (hx : R u x) (hnext : next b x y)
    {m : Summary S} (hm : m ∈ s.summaries.ofCall c.action) (hpre : c.pre = m.pre) :
    ∃ v, m.post.Covers v ∧ R v y := by
  obtain ⟨k, hk, -⟩ | ⟨d, hevaluate, hknown⟩ := h.knows j hj hback.leaves
  · rw [hfinished] at hk
    cases hk
  · rw [← hback.action_eq] at hnext
    obtain ⟨v, hv, hy⟩ := hsound.step hevaluate hu hx hnext hback.before
    obtain ⟨scope', hscope', haction, hbefore⟩ := hback.scope
    rw [hpre] at hbefore
    obtain hbottom | ⟨scope, hscope, k, hk, hequivalent, hsub⟩ | hdropped := hknown
    · have hproper := hsound.proper hy
      rw [Disjunction.isBottom_iff.mp hbottom v hv] at hproper
      cases hproper
    · rw [hscope] at hscope'
      cases hscope'
      rw [haction] at hk
      rw [hbefore] at hequivalent
      rw [← h.eq_of_equivalent hm hk hequivalent]
      exact ⟨v, Disjunction.isSubset_iff.mp hsub v hv, hy⟩
    · have hsub := htold _ hdropped scope' hscope' m (haction ▸ hm)
        (by rw [hbefore, Disjunction.isEquivalent, Disjunction.isSubset_refl]; rfl)
      exact ⟨v, Disjunction.isSubset_iff.mp hsub v hv, hy⟩

/-- The values after a call that was stepped over arrive, as if the call had been entered. -/
theorem Filed.arrives (hc : e.Coherent) (hsound : e.Sound R next) (hstands : e.StandsIn next)
    (hcovering : e.Covering F W s) (hcalled : Called W s) (h : e.Filed W D s)
    (htold : ∀ q ∈ D, Told s.summaries q.1 q.2) (hfinished : s.pending = [])
    {o : Item L A S} (ho : o ∈ W) {r : SummaryRef A} (hsummary : o.summary = some r) {t : S}
    {x y : X} (hcarries : o.Carries o.currentLayer r.call t) (hx : R t x)
    (hnext : next r.call x y) :
    ∃ inner, F.scopeOf inner = some r.call ∧
      e.Returns R next F W s.layers inner r.call o.currentLayer ∧
      e.Arrives R F W s.layers inner r.call y := by
  obtain ⟨hreturned, -, -, t₁, ht₁, hbelow⟩ := hcarries
  obtain ⟨m, hm, hsub⟩ := h.seen o ho r hsummary
  have hmem := List.mem_of_getElem? hm
  have hstandIn := hcovering.standing o ho r hsummary
  -- The summary belongs to a call that was interpreted, from more states than the item has.
  obtain ⟨c, hcW, hcsummary, hcreturned, hcaction, hcpre⟩ := hcalled.entries r.call m hmem
  obtain ⟨t₂, ht₂, hbelow₂⟩ := Disjunction.isSubset_iff.mp hsub t₁ ht₁
  have hx₂ := hsound.mono hbelow₂ (hsound.mono hbelow hx)
  rw [← hcpre] at ht₂
  obtain ⟨post, hdone⟩ := hcovering.done_of_finished hfinished hcW hcsummary
  rw [← hcaction] at hnext hstandIn ⊢
  obtain ⟨t', ht', hy⟩ := hsound.step hdone.evaluates ht₂ hx₂ hnext
    (hcovering.before_ne_nil hcW hcreturned)
  obtain hbottom | ⟨inner, scope, hanswered⟩ := hdone.answered (hc.enters_of_standIn hstandIn)
  · have hproper := hsound.proper hy
    rw [Disjunction.isBottom_iff.mp hbottom t' ht'] at hproper
    cases hproper
  · obtain ⟨hscope, harrives⟩ := hcovering.enters_arrives hsound hanswered
      (Disjunction.covers_of_mem ht') hy
    refine ⟨inner, hscope, fun b x' y' hleaves hcarried hnext' => ?_, harrives⟩
    obtain ⟨j, hj, hback, u, hu, hx'⟩ :=
      hcovering.leadsBack hc hsound hfinished hcW hcreturned hanswered hleaves hcarried
    -- What returns to that call is in the summary, and so the item has delivered it.
    obtain ⟨v, hv, hy'⟩ := h.exists_of_leadsBack hsound htold hfinished hj hback hu hx' hnext'
      (hcaction ▸ hmem) hcpre
    obtain ⟨k, hk, -⟩ | ⟨m', hm', -, hdelivered⟩ := h.stepped o ho r hsummary
    · rw [hfinished] at hk
      cases hk
    · rw [hm] at hm'
      cases hm'
      obtain ⟨hlanding, hadvanced⟩ := hcovering.stays_eq ho hreturned (hc.standIn_leaves hstandIn)
      rw [hlanding, hadvanced] at hdelivered
      obtain ⟨htarget, honward⟩ := hstands c.action o.action b x' y' hstandIn hleaves hnext'
      have harrives' := hdelivered.arrives hsound hv hy'
      unfold Arrives at harrives' ⊢
      rw [htarget, honward]
      exact harrives'

/-- All executions arrive in a finished computation that is free of losses and tells all returns,
also if it steps over calls. -/
theorem TellsAll.describes_of_walk (hc : e.Coherent) (hlaws : e.domain.Lawful)
    (hsound : e.Sound R next) (hstands : e.StandsIn next) (htells : e.TellsAll starts)
    (hfree : e.LossFree starts) {budget : Nat} {answer : Answer L A S}
    (hrun : e.run budget starts = .ok answer s') {initial : X → Prop}
    (hinitial : ∀ a state, e.declarations.initial a e.domain.fresh = .ok state →
      ∀ x, initial x → R state x) {calls : List A} {a : A} {y : X}
    (hwalk : e.Walk next initial starts calls a y) :
    ∃ layer, answer.layers.Describes R layer (e.transitions.target a) y := by
  obtain ⟨s₀, n, s, hseed, hfirst, hn, hfinished, rfl⟩ := stateAfter_of_run hrun
  obtain ⟨-, F, hcovering⟩ := hfree.covering hc hlaws hn
  obtain ⟨hcalled, hfiled⟩ := hfree.filed hc hlaws hn
  have hclosed := hcovering.closed hc hsound hfinished fun i hi r hsummary t x y hcarries hx =>
    hfiled.arrives hc hsound hstands hcovering hcalled (htells n s hn hfinished) hfinished hi
      hsummary hcarries hx
  exact hcovering.describes_of_walk hc hsound hclosed hseed hfirst hinitial hwalk

/-! ## §5. Checking a computation. -/

omit [LawfulState S]

/-- Whether the summary for the call of an item's scope covers a state, if there is one. -/
def isTold (m : Summaries A S) (item : Item L A S) (post : Disjunction S) : Bool :=
  item.scopes.head?.all fun scope => (m.ofCall scope.action).all fun k =>
    !k.pre.isEquivalent scope.before || post.isSubset k.post

omit [DecidableEq L] in
theorem told_of_isTold {m : Summaries A S} (h : isTold m item post = true) : Told m item post := by
  intro scope hscope k hk hequivalent
  have htold := List.all_eq_true.mp ((Option.all_eq_true _ _).mp h scope hscope) k hk
  rw [hequivalent, Bool.not_true, Bool.false_or] at htold
  exact htold

variable (e) in
/-- Whether the next item is no return that is dropped, or the given summaries cover it. -/
def nextTells (m : Summaries A S) (s : RunState L A S) : Bool :=
  match s.worklist.pop with
  | none => true
  | some (id, worklist) =>
    match s.items.get id with
    | .error _ => true
    | .ok item =>
      match e.takeUp id item (taken worklist s) with
      | .error _ _ => true
      | .ok post _ => !e.leaves item || (e.covers s.layers item post).toOption != some true ||
        isTold m item post

theorem told_of_nextTells {m : Summaries A S} (h : e.nextTells m s = true)
    (htakes : e.TakesUp s item post) (hdrops : e.DropsReturn s.layers item post) :
    Told m item post := by
  obtain ⟨id, worklist, t, hpop, hget, htake⟩ := htakes
  obtain ⟨hleaves, -, hcovered⟩ := hdrops
  unfold nextTells at h
  rw [hpop] at h
  dsimp only at h
  rw [hget] at h
  dsimp only at h
  rw [htake] at h
  dsimp only at h
  rw [hleaves, hcovered, Bool.not_true, Bool.false_or, Bool.or_eq_true] at h
  obtain hfalse | htold := h
  · cases hfalse
  · exact told_of_isTold htold

/-- There is no pass after the worklist is empty. -/
theorem le_of_finished {m : Nat} (hs : e.stateAfter starts n = some s) (hfinished : s.pending = [])
    (hs' : e.stateAfter starts m = some s') : m ≤ n := by
  by_contra hlt
  obtain ⟨k, rfl⟩ : ∃ k, m = n + (k + 1) := ⟨m - n - 1, by omega⟩
  obtain ⟨s₁, hiterate, -⟩ := iterate_of_later hs hs'
  obtain ⟨hfalse, -⟩ | ⟨-, _, _, _, _, _, _, hpop, -⟩ := iterate_ok hiterate
  · cases hfalse
  · have hperm := Worklist.perm_of_pop hpop
    have hempty : s.worklist.pending = [] := hfinished
    rw [hempty] at hperm
    cases hperm.symm.eq_nil

variable (e) in
/-- Whether no item is left after `n` passes, and the summaries there cover all returns that were
dropped. -/
def isTelling (n : Nat) (starts : List L) : Bool :=
  (e.stateAfter starts n).any fun s =>
    s.pending.isEmpty && e.holdsThroughout (fun _ => e.nextTells s.summaries) n starts

theorem tellsAll_of_isTelling (h : e.isTelling n starts = true) : e.TellsAll starts := by
  obtain ⟨s, hs, h⟩ := (Option.any_eq_true _ _).mp h
  rw [Bool.and_eq_true, List.isEmpty_iff] at h
  intro n' s' hs' hfinished q hq
  have hn : n' = n := le_antisymm (le_of_finished hs h.1 hs') (le_of_finished hs' hfinished hs)
  subst hn
  rw [hs] at hs'
  cases hs'
  obtain ⟨m, -, t, ht, htakes, hdrops⟩ := hq
  obtain ⟨_, -, hnext⟩ := check_of_holdsThroughout h.2 ht
  exact told_of_nextTells hnext htakes hdrops

end Engine

end Interproc
