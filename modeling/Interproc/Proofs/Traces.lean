/-
  Interproc.Proofs.Traces
  ───────────────────────
  What counterexamples are.  Every item but the first ones follows another item, at
  whose target it starts, and its states cover what the action of that item leads
  to.  Successors have this from the start; an item that hands an exit to a call
  follows what the first item at the exit followed, and an item that steps over a
  call again follows what it followed before.  So the steps of a counterexample fit
  together from a start to the error.

  Main result: `Engine.connected_of_counterexample`.
-/
import Mathlib
import Interproc.Proofs.Handover
import Interproc.Proofs.Reports
import Interproc.Proofs.Safety

namespace Interproc

variable {L A S : Type}

/-! ## §1. Steps that fit together. -/

/-- Steps that lead from a location with some states to another one: each action starts where the
one before it leads, and the states before and after it are in a relation. -/
inductive Connects (source target : A → L) (R : A → Disjunction S → Disjunction S → Prop) :
    L → Disjunction S → List (TraceStep L A S) → L → Disjunction S → Prop where
  | nil {l : L} {d : Disjunction S} : Connects source target R l d [] l d
  | cons {l l' : L} {d d' : Disjunction S} {step : TraceStep L A S}
      {rest : List (TraceStep L A S)} (hsource : source step.action = l)
      (htarget : step.target = target step.action) (hstate : R step.action d step.state)
      (h : Connects source target R step.target step.state rest l' d') :
      Connects source target R l d (step :: rest) l' d'

theorem Connects.concat {source target : A → L} {R : A → Disjunction S → Disjunction S → Prop}
    {l l' : L} {d d' : Disjunction S} {steps : List (TraceStep L A S)} {step : TraceStep L A S}
    (h : Connects source target R l d steps l' d') (hsource : source step.action = l')
    (htarget : step.target = target step.action) (hstate : R step.action d' step.state) :
    Connects source target R l d (steps ++ [step]) step.target step.state := by
  induction h with
  | nil => exact .cons hsource htarget hstate .nil
  | cons hs ht hr _ ih => exact .cons hs ht hr (ih hsource hstate)

theorem Connects.mono {source target : A → L} {R R' : A → Disjunction S → Disjunction S → Prop}
    {l l' : L} {d d' : Disjunction S} {steps : List (TraceStep L A S)}
    (h : Connects source target R l d steps l' d') (hR : ∀ a b c, R a b c → R' a b c) :
    Connects source target R' l d steps l' d' := by
  induction h with
  | nil => exact .nil
  | cons hsource htarget hstate _ ih => exact .cons hsource htarget (hR _ _ _ hstate) ih

/-- The first action of a chain is the first one on the way to its last item. -/
theorem Counterexample.Leads.head?_actions {a : Arena L A S} {target : A → L} {first : A}
    {initial : Disjunction S} {item : Item L A S} {steps : List (TraceStep L A S)}
    (h : Leads a target first initial item steps) :
    (steps.map TraceStep.action ++ [item.action]).head? = some first := by
  induction h with
  | first _ haction => rw [← haction]; rfl
  | next _ _ _ ih =>
    rw [List.map_append, List.head?_append, List.map_singleton, ih]
    rfl

variable [AbstractState S]

namespace Engine

variable {e : Engine L A S} {s s' : RunState L A S} {id j : ItemId} {item final i q : Item L A S}
variable {post widened : Disjunction S} {layer : LayerId} {starts : List L} {items : Arena L A S}
variable {summaries : Summaries A S}

/-! ## §2. Actions that are interpreted where they are. -/

variable (e) in
/-- An action that neither leaves a scope nor stands for a call. -/
def Direct (action : A) : Prop :=
  (∀ scope, e.transitions.leavesScope action scope = false) ∧
    e.transitions.standsForCall action = false

variable (e) in
/-- States cover what an action makes of other states, as far as it is interpreted where it is and
brings no variables into scope. -/
def CoversPost (action : A) (before after : Disjunction S) : Prop :=
  e.declarations = .none → e.Direct action → ∃ post,
    before.post e.domain action e.options.maxParallelStates = .ok post ∧
      post.isSubset after = true

theorem CoversPost.mono [PreorderedState S] {action : A} {before after after' : Disjunction S}
    (h : e.CoversPost action before after)
    (hmono : ∀ t, isBottom t = false → after.Covers t → after'.Covers t) :
    e.CoversPost action before after' := by
  intro hnone hdirect
  obtain ⟨post, hpost, hsub⟩ := h hnone hdirect
  refine ⟨post, hpost, Disjunction.isSubset_iff.mpr fun t ht => hmono t ?_ ?_⟩
  · obtain ⟨posts, -, hposts⟩ := except_bind_eq_ok.mp hpost
    cases hposts
    exact Disjunction.proper_ofStates _ _ t ht
  · exact Disjunction.isSubset_iff.mp hsub t ht

/-- Where nothing comes into scope, evaluating is applying the action to the states as they are. -/
theorem post_of_evaluate (hnone : e.declarations = .none) (hdirect : e.Direct item.action)
    (hpre : item.pre.Normal e.options.maxParallelStates) (h : e.evaluate item = .ok post) :
    item.pre.post e.domain item.action e.options.maxParallelStates = .ok post := by
  obtain ⟨fresh, hfresh, h⟩ := except_bind_eq_ok.mp h
  obtain ⟨states, hstates, hfresh⟩ := except_bind_eq_ok.mp hfresh
  rw [hnone] at hstates
  have hsame : states = item.pre.states := by
    have hpure : item.pre.states.mapM (fun s => (.ok s : Except Error S)) = .ok item.pre.states :=
      (List.mapM_pure (f := id)).trans (congrArg Except.ok (List.map_id _))
    exact (Except.ok.inj (hpure.symm.trans hstates)).symm
  cases hfresh
  rw [hsame, hpre.ofStates_states] at h
  unfold postOf at h
  rw [show e.leaves item = false from hdirect.1 _] at h
  exact h

variable [DecidableEq A] in
/-- What an item that is interpreted leads to is covered by what is sent on. -/
theorem coversPost_of_postPart [GroundedState S]
    (hstands : ∀ {a u}, e.transitions.summaryOf a = some u → e.transitions.standsForCall u = true)
    (hs : e.Orderly s) (hget : s.items.get id = .ok item)
    (hpre : item.pre.Normal e.options.maxParallelStates)
    (hpost : e.PostPart id item s post summaries) (hsub : post.isSubset widened = true) :
    e.CoversPost item.action item.pre widened := by
  intro hnone hdirect
  cases hpost with
  | interpreted _ hpost => exact ⟨post, post_of_evaluate hnone hdirect hpre hpost, hsub⟩
  | summarised hsummary =>
    have hstand := hstands (hs.standing id item _ hget hsummary)
    rw [hdirect.2] at hstand
    cases hstand

/-! ## §3. Items follow one another. -/

variable (e) in
/-- An action with states before it starts where the item that it follows leads to, and covers what
that item leads to; or it is a first action, with the states that it is seeded with. -/
def Follows (starts : List L) (items : Arena L A S) (action : A) (pre : Disjunction S) :
    Option ItemId → Prop
  | none => e.transitions.source action ∈ starts ∧ ∃ state,
      e.declarations.initial action e.domain.fresh = .ok state ∧ pre = .single state
  | some p => ∀ q, items.get p = .ok q →
      e.transitions.source action = e.transitions.target q.action ∧
        e.CoversPost q.action q.pre pre

theorem Follows.transfer {items' : Arena L A S} {action : A} {pre : Disjunction S}
    {predecessor : Option ItemId} (h : e.Follows starts items action pre predecessor)
    (hsame : ∀ p q, predecessor = some p → items'.get p = .ok q → items.get p = .ok q) :
    e.Follows starts items' action pre predecessor := by
  cases predecessor with
  | none => exact h
  | some p => exact fun q hq => h q (hsame p q rfl hq)

variable (e) in
/-- All items and exits follow what they say they do. -/
structure Joined (starts : List L) (s : RunState L A S) : Prop where
  items : ∀ j i, s.items.get j = .ok i → e.Follows starts s.items i.action i.pre i.predecessor
  exits : ∀ layer, ∀ x ∈ (s.exits.activation layer).exits, x.predecessor.isSome ∧
    e.Follows starts s.items x.action x.state x.predecessor
  firsts : ∀ j ∈ s.pending, ∀ i, s.items.get j = .ok i → i.predecessor = none → i.scopes = []

variable [DecidableEq L] [DecidableEq A]

/-- What an item that was there before a pass follows is still there, and as it was. -/
theorem Pass.get_followed (hs : e.Orderly s) (hs' : e.Orderly s')
    (hpass : e.Pass id item post final s s') {p : ItemId} {q : Item L A S}
    (hbefore : 0 < s.exits.held p + s.items.successors p)
    (hafter : 0 < s'.exits.held p + s'.items.successors p) (hq : s'.items.get p = .ok q) :
    s.items.get p = .ok q := by
  cases hpass with
  | intro hpop _ _ _ _ _ hframe =>
    have hid : id ∈ s.pending := Worklist.mem_of_pop hpop
    have hne : p ≠ id := fun hp => hs.tidy.not_pending (j := p) (by omega) (hp ▸ hid)
    exact hframe.get_settled (hs'.tidy.not_pending (by omega)) hne hq

variable [GroundedState S]

/-- Exits follow what the first item that took them followed, and only grow. -/
theorem Joined.exits_pass (hc : e.Coherent) (hlaws : e.domain.Lawful) (hs : e.Orderly s)
    (hs' : e.Orderly s') (h : e.Joined starts s) (hpass : e.Pass id item post final s s')
    {x : ScopeExit A S} (hx : x ∈ (s'.exits.activation layer).exits) :
    x.predecessor.isSome ∧ e.Follows starts s'.items x.action x.state x.predecessor := by
  have hid : id ∈ s.pending := by
    cases hpass with
    | intro hpop => exact Worklist.mem_of_pop hpop
  have hafter : ∀ {p}, x.predecessor = some p → 0 < s'.exits.held p + s'.items.successors p :=
    fun hp => by
      have := Exits.held_pos_of_exit hx hp
      omega
  cases hpass.exit_origin hx with
  | kept hold =>
    obtain ⟨hsome, hfollows⟩ := h.exits layer x hold
    refine ⟨hsome, hfollows.transfer fun p q hp hq => hpass.get_followed hs hs' ?_ (hafter hp) hq⟩
    have := Exits.held_pos_of_exit hold hp
    omega
  | first hleaves =>
    refine ⟨?_, (h.items id item hpass.get).transfer fun p q hp hq =>
      hpass.get_followed hs hs' ?_ (hafter hp) hq⟩
    · -- An item that follows nothing has entered no scope that it could leave.
      cases hp : item.predecessor with
      | some p => rfl
      | none =>
        have hscopes := h.firsts id hid item hpass.get hp
        unfold leaves Item.currentScope at hleaves
        rw [hscopes] at hleaves
        rw [List.head?_nil, Option.map_none, hc.leaves_none] at hleaves
        cases hleaves
    · have := Arena.successors_pos hpass.get hp
      omega
  | @grown y change _ _ hold haction _ hgrow =>
    obtain ⟨hsome, hfollows⟩ := h.exits layer y hold
    obtain ⟨-, hsame, hpredecessor⟩ := Exits.grow_ok hgrow
    obtain ⟨p, hp⟩ := Option.isSome_iff_exists.mp hsome
    -- The exit keeps what it follows, and its states cover at least what they did.
    rw [hpredecessor, hsame]
    rw [hp] at hfollows ⊢
    refine ⟨rfl, fun q hq => ?_⟩
    have hbefore : 0 < s.exits.held p + s.items.successors p := by
      have := Exits.held_pos_of_exit hold hp
      omega
    obtain ⟨hsource, hcovers⟩ := hfollows q
      (hpass.get_followed hs hs' hbefore (hafter (hpredecessor.trans hp)) hq)
    exact ⟨hsource, hcovers.mono fun t ht hcovers =>
      Exits.covers_grow hlaws hgrow ht (.inl hcovers)⟩

/-- Every pass keeps items linked to what they follow. -/
theorem Joined.pass (hc : e.Coherent) (hlaws : e.domain.Lawful)
    (hstands : ∀ {a u}, e.transitions.summaryOf a = some u → e.transitions.standsForCall u = true)
    (hs : e.Orderly s) (hs' : e.Orderly s') (h : e.Joined starts s)
    (hnormal : item.pre.Normal e.options.maxParallelStates)
    (hpass : e.Pass id item post final s s') : e.Joined starts s' := by
  have hexits := fun layer x (hx : x ∈ (s'.exits.activation layer).exits) =>
    h.exits_pass hc hlaws hs hs' hpass hx
  obtain ⟨⟨scopes, loops, hshape⟩, -⟩ := hpass.live
  have haction : final.action = item.action := by rw [hshape]
  -- An item that follows what another one followed before the pass.
  have hkept : ∀ {k o j i}, s.items.get k = .ok o → s'.items.get j = .ok i →
      i.action = o.action → i.pre = o.pre → i.predecessor = o.predecessor →
      e.Follows starts s'.items i.action i.pre i.predecessor := by
    intro k o j i ho hi ha hpre hpred
    rw [ha, hpre, hpred]
    refine (h.items k o ho).transfer fun p q hp hq => hpass.get_followed hs hs' ?_ ?_ hq
    · have := Arena.successors_pos ho hp
      omega
    · have := Arena.successors_pos hi (hpred.trans hp)
      omega
  refine ⟨fun j i hi => ?_, hexits, fun j hj i hi hp => ?_⟩
  · cases hpass.origin hs hs' hi with
    | returned hexit => exact (hexits _ _ hexit).2
    | redone hstale hp => exact hkept hstale hi rfl rfl hp.symm
    | @successor widened action hstores hmem =>
      have hsource : e.transitions.source
          (e.successorOf s'.summaries id final widened action).action =
            e.transitions.target final.action := source_successorOf hc hmem
      obtain ⟨action', summary, hsucc⟩ := e.successorOf_eq s'.summaries id final widened action
      rw [hsucc] at hi hsource ⊢
      -- What the successor follows is the item of this pass, as it was left behind.
      intro q hq
      obtain ⟨hsettled, -⟩ := hs'.tidy.predecessor hi rfl
      have hpass' := hpass
      cases hpass with
      | intro _ hget _ hpost _ _ hframe =>
        obtain rfl := hframe.get_final hsettled hq
        refine ⟨hsource, ?_⟩
        have hcovers := coversPost_of_postPart hstands hs hget hnormal hpost
          (hstores.2.1.covers hlaws hstores.1).1
        rw [hshape]
        exact hcovers
    | final => exact hkept hpass.get hi haction (by rw [hshape]) (by rw [hshape])
    | old _ hold => exact hkept hold hi rfl rfl rfl
  · -- Whatever was put on the worklist follows something, so the item was there before.
    cases hpass.origin hs hs' hi with
    | returned hexit =>
      obtain ⟨p, hsome⟩ := Option.isSome_iff_exists.mp (hexits _ _ hexit).1
      cases hp.symm.trans hsome
    | redone => cases hp
    | @successor widened action =>
      obtain ⟨action', summary, hsucc⟩ := e.successorOf_eq s'.summaries id final widened action
      rw [hsucc] at hp
      cases hp
    | final _ hsettled => exact absurd hj hsettled
    | old _ hold hpending => exact h.firsts j (hpending hj) i hold hp

omit [DecidableEq A] [GroundedState S] in
theorem Joined.seed (hc : e.Coherent) (h : e.Joined starts s) {location : L} {action : A}
    (hlocation : location ∈ starts) (haction : action ∈ e.transitions.actionsFrom location)
    (hseed : e.SeedPart location action s s') : e.Joined starts s' := by
  obtain ⟨state, stored, layers, id, hstate, -, hgrows⟩ := hseed
  have hexits : s'.exits = s.exits := hgrows.unmoved.exits
  refine ⟨fun j i hi => ?_, fun layer x hx => ?_, fun j hj i hi hp => ?_⟩
  · obtain ⟨rfl, rfl⟩ | ⟨hold, -⟩ := hgrows.old_singleton hi
    · refine ⟨?_, state, hstate, rfl⟩
      show e.transitions.source action ∈ starts
      rw [hc.source_of_actionsFrom haction]
      exact hlocation
    · exact (h.items j i hold).transfer fun p q hp hq => hgrows.get_predecessor hi hp hq
  · rw [hexits] at hx
    obtain ⟨hsome, hfollows⟩ := h.exits layer x hx
    refine ⟨hsome, hfollows.transfer fun p q hp hq => hgrows.get_before ?_ hq⟩
    have hheld := Exits.held_pos_of_exit (hexits ▸ hx : x ∈ (s'.exits.activation layer).exits) hp
    exact hgrows.tidy.not_pending (by omega)
  · obtain ⟨rfl, rfl⟩ | ⟨hold, hpending⟩ := hgrows.old_singleton hi
    · rfl
    · exact h.firsts j (hpending hj) i hold hp

omit [DecidableEq L] [DecidableEq A] [GroundedState S] in
theorem Joined.start : e.Joined starts (.start e.options) :=
  ⟨fun _ _ hi => (nomatch hi), fun _ _ hx => (nomatch hx), fun _ hj => (nomatch hj)⟩

/-! ## §4. Counterexamples. -/

variable (e) in
/-- A counterexample leads from a start, with the states that its first action is seeded with, to
an action that reaches an error location with states that are not bottom. -/
structure Connected (starts : List L) (c : Counterexample L A S) : Prop where
  start : c.start ∈ starts
  seeded : ∃ first state, c.actions.head? = some first ∧
    e.declarations.initial first e.domain.fresh = .ok state ∧ c.initial = .single state
  steps : ∃ before, Connects e.transitions.source e.transitions.target e.CoversPost c.start
    c.initial c.trace c.errorSource before ∧ e.CoversPost c.errorAction before c.errorState
  source : e.transitions.source c.errorAction = c.errorSource
  error : e.transitions.isError (e.transitions.target c.errorAction) = true
  state : c.errorState.isBottom = false

omit [DecidableEq L] [DecidableEq A] [GroundedState S] in
/-- The steps to an item fit together, from a start on. -/
theorem Joined.connects (h : e.Joined starts s) {first : A} {initial : Disjunction S}
    {steps : List (TraceStep L A S)} (hget : s.items.get j = .ok item)
    (hleads : Counterexample.Leads s.items e.transitions.target first initial item steps) :
    (e.transitions.source first ∈ starts ∧ ∃ state,
      e.declarations.initial first e.domain.fresh = .ok state ∧ initial = .single state) ∧
      Connects e.transitions.source e.transitions.target e.CoversPost (e.transitions.source first)
        initial steps (e.transitions.source item.action) item.pre := by
  induction hleads generalizing j with
  | first hp haction hpre =>
    have hfollows := h.items j _ hget
    rw [hp, haction, hpre] at hfollows
    rw [haction, hpre]
    exact ⟨hfollows, .nil⟩
  | @next item before p steps hp hbefore _ ih =>
    obtain ⟨hfirst, hconnects⟩ := ih hbefore
    have hfollows := h.items j item hget
    rw [hp] at hfollows
    obtain ⟨hsource, hcovers⟩ := hfollows before hbefore
    refine ⟨hfirst, ?_⟩
    rw [hsource]
    exact hconnects.concat rfl rfl hcovers

/-- A pass reports connected counterexamples only. -/
theorem Joined.connected_pass
    (hstands : ∀ {a u}, e.transitions.summaryOf a = some u → e.transitions.standsForCall u = true)
    (hs : e.Orderly s) (h : e.Joined starts s) (hrooted : s.items.Rooted)
    (hnormal : item.pre.Normal e.options.maxParallelStates)
    (hpass : e.Pass id item post final s s') {c : Counterexample L A S}
    (hc : c ∈ s'.counterexamples) : c ∈ s.counterexamples ∨ e.Connected starts c := by
  cases hpass with
  | intro _ hget _ hpost _ _ _ herrors =>
    cases herrors with
    | silent _ hexamples =>
      rw [hexamples] at hc
      exact .inl hc
    | reported herror hbottom _ _ _ hshows _ hexamples =>
      rw [hexamples] at hc
      obtain hold | hnew := List.mem_append.mp hc
      · exact .inl hold
      · rw [List.mem_singleton.mp hnew]
        -- The new counterexample is read off the predecessors of the item, back to the first one.
        obtain ⟨haction, hlocation, hstate, first, hstart, hleads⟩ := hshows hrooted
        obtain ⟨⟨hfirst, state, hinitial, hsingle⟩, hconnects⟩ := h.connects hget hleads
        have hcovers := coversPost_of_postPart hstands hs hget hnormal hpost
          (Disjunction.isSubset_refl post)
        refine .inr ⟨hstart ▸ hfirst, ⟨first, state, ?_, hinitial, hsingle⟩, ⟨item.pre, ?_, ?_⟩, ?_,
          ?_, ?_⟩
        · unfold Counterexample.actions
          rw [haction]
          exact hleads.head?_actions
        · rw [hstart, hlocation]
          exact hconnects
        · rw [haction, hstate]
          exact hcovers
        · rw [haction, hlocation]
        · rw [haction]
          exact herror
        · rw [hstate]
          exact hbottom

/-- Every counterexample of a reachable state is connected. -/
theorem Reachable.connected (hc : e.Coherent) (hlaws : e.domain.Lawful)
    (hstands : ∀ {a u}, e.transitions.summaryOf a = some u → e.transitions.standsForCall u = true)
    (h : e.Reachable starts s) : ∀ c ∈ s.counterexamples, e.Connected starts c := by
  refine (h.induct (P := fun s => (Intact s ∧ e.Joined starts s ∧ e.Sustained (fun _ => True)
    (Disjunction.Normal e.options.maxParallelStates) s) ∧
      ∀ c ∈ s.counterexamples, e.Connected starts c) ?_ ?_ ?_).2.2
  · exact ⟨⟨.start, .start, .start⟩, fun c hc => (nomatch hc)⟩
  · rintro l hl a ha s s' - hseed ⟨⟨hintact, hjoined, hnormal⟩, hconnected⟩
    refine ⟨⟨hintact.seed hseed, hjoined.seed hc hl ha hseed,
      hnormal.seed e.sustains_normal ha hseed⟩, ?_⟩
    obtain ⟨_, _, _, _, -, -, hgrows⟩ := hseed
    rw [hgrows.unmoved.counterexamples]
    exact hconnected
  · rintro s s' id item post final hs hs' hpass ⟨⟨hintact, hjoined, hnormal⟩, hconnected⟩
    have hpre := (hnormal.items id item hpass.get).pre
    refine ⟨⟨hintact.pass hs'.tidy hpass, hjoined.pass hc hlaws hstands hs hs' hpre hpass,
      hnormal.pass e.sustains_normal hs hs' hpass⟩, fun c hmem => ?_⟩
    obtain hold | hnew := hjoined.connected_pass hstands hs hintact.rooted hpre hpass hmem
    · exact hconnected c hold
    · exact hnew

/-! ## §5. Programs. -/

omit [GroundedState S] in
theorem standsForCall_of_summaryOf {T : Type} {p : Program T} {t u : Transition T}
    (h : p.summaryOf t = some u) : u.standsForCall = true := by
  unfold Program.summaryOf at h
  split at h
  · exact List.find?_some h
  · cases h

omit [DecidableEq L] [DecidableEq A] [AbstractState S] [GroundedState S] in
theorem direct_of_kind {T : Type} [DecidableEq T] {p : Program T}
    {e : Engine Nat (Transition T) S} (htransitions : e.transitions = p.transitions)
    {t : Transition T} (hreturn : ∀ callSite, t.kind ≠ .ret callSite)
    (hsummary : t.kind ≠ .summary true) : e.Direct t := by
  rw [Direct, htransitions]
  refine ⟨fun scope => ?_, by simpa [Program.transitions, Transition.standsForCall] using hsummary⟩
  cases scope with
  | none => rfl
  | some call =>
    show t.returnsFrom call = false
    unfold Transition.returnsFrom
    split
    · rename_i callSite hkind
      exact absurd hkind (hreturn callSite)
    · rfl

/-- The states after a transition cover what it makes of the states before it, unless variables
come into scope, or it returns from a call or stands for one. -/
def StepCovers {T : Type} (e : Engine Nat (Transition T) S) (t : Transition T)
    (before after : Disjunction S) : Prop :=
  e.declarations = .none → (∀ callSite, t.kind ≠ .ret callSite) → t.kind ≠ .summary true →
    ∃ post, before.post e.domain t e.options.maxParallelStates = .ok post ∧
      post.isSubset after = true

/-- Every counterexample of a computation over a program leads from a start, with the states that
are seeded there, along transitions that fit together to one that reaches an error location, with
states that are not bottom, and the states after each transition cover what it leads to. -/
theorem connected_of_counterexample {T : Type} [DecidableEq T] {p : Program T} (hp : p.Built)
    {table : LoopTable} {e : Engine Nat (Transition T) S}
    (htransitions : e.transitions = p.transitions) (hloops : e.entersLoop = table.isEntered)
    (hlaws : e.domain.Lawful) {budget : Nat} {starts : List Nat}
    {answer : Answer Nat (Transition T) S} {s : RunState Nat (Transition T) S}
    (hrun : e.run budget starts = .ok answer s) {c : Counterexample Nat (Transition T) S}
    (hc : c ∈ answer.counterexamples) :
    c.start ∈ starts ∧
      (∃ first state, c.actions.head? = some first ∧
        e.declarations.initial first e.domain.fresh = .ok state ∧ c.initial = .single state) ∧
      (∃ before, Connects Transition.head Transition.tail e.StepCovers c.start c.initial c.trace
        c.errorSource before ∧ e.StepCovers c.errorAction before c.errorState) ∧
      c.errorAction.head = c.errorSource ∧ p.isErrorLocation c.errorAction.tail = true ∧
      c.errorState.isBottom = false := by
  obtain ⟨s₀, s₁, hseed, hlater, -, rfl⟩ := run_ok hrun
  have hreachable : e.Reachable starts s₁ := hlater.reachable (.seeded hseed)
  have hconnected := hreachable.connected (hp.coherent htransitions hloops) hlaws
    (by rw [htransitions]; exact standsForCall_of_summaryOf) c hc
  have hcovers : ∀ t before after, e.CoversPost t before after → e.StepCovers t before after :=
    fun t _ _ h hnone hreturn hsummary => h hnone (direct_of_kind htransitions hreturn hsummary)
  obtain ⟨before, hsteps, hlast⟩ := hconnected.steps
  have hsource := hconnected.source
  have herror := hconnected.error
  rw [htransitions] at hsteps hsource herror
  exact ⟨hconnected.start, hconnected.seeded, ⟨before, hsteps.mono hcovers, hcovers _ _ _ hlast⟩,
    hsource, herror, hconnected.state⟩

set_option maxRecDepth 100000 in
/-- A counterexample that goes through a call. -/
theorem connected_of_counterexample_pitfalls : ∃ answer s c,
    pitfallsIntervals.run 40 [0] = .ok answer s ∧ c ∈ answer.counterexamples ∧
    c.trace.length = 4 ∧ c.start ∈ [0] ∧ c.initial = .single .unconstrained ∧
    (∃ before, Connects Transition.head Transition.tail pitfallsIntervals.StepCovers c.start
      c.initial c.trace c.errorSource before ∧
      pitfallsIntervals.StepCovers c.errorAction before c.errorState) ∧
    c.errorAction.head = c.errorSource ∧ pitfalls.isErrorLocation c.errorAction.tail = true ∧
    c.errorState.isBottom = false := by
  have hanswers : pitfallsIntervals.answers 40 [0] (fun answer =>
      answer.counterexamples.any fun c => decide (c.trace.length = 4)) = true := by
    decide +kernel
  obtain ⟨answer, s, hrun, hcheck⟩ := exists_of_answers hanswers
  obtain ⟨c, hc, hlength⟩ := List.any_eq_true.mp hcheck
  have hloops : pitfallsIntervals.entersLoop = LoopTable.isEntered ⟨.empty⟩ := rfl
  obtain ⟨hstart, ⟨_, state, -, hstate, hinitial⟩, hsteps, hsource, herror, hbottom⟩ :=
    connected_of_counterexample (p := pitfalls) ⟨_, rfl⟩ rfl hloops IntervalState.domain_lawful
      hrun hc
  cases hstate
  exact ⟨answer, s, c, hrun, hc, of_decide_eq_true hlength, hstart, hinitial, hsteps, hsource,
    herror, hbottom⟩

end Engine

end Interproc
