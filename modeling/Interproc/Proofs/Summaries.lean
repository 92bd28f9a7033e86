/-
  Interproc.Proofs.Summaries
  ──────────────────────────
  What is recorded about calls.  Using a summary changes nothing but its users, and
  recording a return adds a summary or merges states into one.  So a summary that
  was found once stays where it is, and what holds of all states that return, and
  is kept by merging, holds of all states recorded after returns.
-/
import Mathlib
import Interproc.Proofs.Disjunctions
import Interproc.Proofs.Passes

namespace Interproc

variable {L A S : Type} [DecidableEq A]

/-! ## §1. Looking things up. -/

namespace Summaries

variable {m : Summaries A S} {r : SummaryRef A} {call : A} {pre post : Disjunction S}

theorem ofCall_addUse (m : Summaries A S) (r : SummaryRef A) (item : ItemId) (call : A) :
    (m.addUse r item).ofCall call = if r.call = call then
      (m.ofCall call).modify r.index fun s => { s with uses := s.uses ++ [item] }
    else m.ofCall call := by
  unfold addUse ofCall Table.findD
  cases hfind : m.calls.find? r.call with
  | none =>
    dsimp only
    split
    · rename_i hcall
      rw [← hcall, hfind]
      exact (List.modify_nil ..).symm
    · rfl
  | some summaries =>
    dsimp only
    rw [Table.find?_insert]
    split
    · rename_i hcall
      rw [← hcall, hfind]
      rfl
    · rfl

variable [AbstractState S]

theorem ofCall_record (m : Summaries A S) (call : A) (pre post : Disjunction S) (width : Nat)
    (other : A) : (m.record call pre post width).2.ofCall other = if call = other then
      (recordIn pre post width (m.ofCall call)).2 else m.ofCall other := by
  show ((m.calls.insert call (recordIn pre post width (m.ofCall call)).2).find? other).getD [] = _
  rw [Table.find?_insert]
  split
  · rfl
  · rfl

omit [AbstractState S] in
theorem post?_isSome_iff : (m.post? r).isSome = true ↔ r.index < (m.ofCall r.call).length := by
  unfold post?
  simp

theorem length_recordIn (pre post : Disjunction S) (width : Nat) (l : List (Summary S)) :
    l.length ≤ (recordIn pre post width l).2.length := by
  fun_induction recordIn pre post width l with
  | case1 => simp
  | case2 => simp
  | case3 => simp
  | case4 s rest _ stale rest' hrec ih =>
    rw [hrec] at ih
    simpa using ih

omit [AbstractState S] in
/-- Summaries stay where they are. -/
theorem length_addUse (m : Summaries A S) (r : SummaryRef A) (item : ItemId) (call : A) :
    ((m.addUse r item).ofCall call).length = (m.ofCall call).length := by
  rw [ofCall_addUse]
  split
  · exact List.length_modify ..
  · rfl

theorem length_record (m : Summaries A S) (call : A) (pre post : Disjunction S) (width : Nat)
    (other : A) :
    (m.ofCall other).length ≤ ((m.record call pre post width).2.ofCall other).length := by
  rw [ofCall_record]
  split
  · rename_i hcall
    rw [← hcall]
    exact length_recordIn pre post width _
  · exact le_rfl

theorem isSome_of_lookup (h : m.lookup call pre = some r) : (m.post? r).isSome = true := by
  obtain ⟨i, hi, rfl⟩ := Option.map_eq_some_iff.mp h
  exact post?_isSome_iff.mpr (List.findIdx?_eq_some_iff_getElem.mp hi).1

/-- All states recorded after the returns of calls are of one kind. -/
def AllPosts (Q : Disjunction S → Prop) (m : Summaries A S) : Prop :=
  ∀ call, ∀ s ∈ m.ofCall call, Q s.post

variable {Q : Disjunction S → Prop}

omit [AbstractState S] in
theorem AllPosts.post? (h : m.AllPosts Q) (hpost : m.post? r = some post) : Q post := by
  obtain ⟨s, hs, rfl⟩ := Option.map_eq_some_iff.mp hpost
  exact h r.call s (List.mem_of_getElem? hs)

omit [AbstractState S] in
theorem AllPosts.addUse (h : m.AllPosts Q) (r : SummaryRef A) (item : ItemId) :
    (m.addUse r item).AllPosts Q := by
  intro call s hs
  rw [ofCall_addUse] at hs
  split at hs
  · obtain ⟨i, hi⟩ := List.getElem?_of_mem hs
    rw [List.getElem?_modify] at hi
    obtain ⟨s', hs', rfl⟩ := Option.map_eq_some_iff.mp hi
    have hq := h call s' (List.mem_of_getElem? hs')
    split
    · exact hq
    · exact hq
  · exact h call s hs

theorem AllPosts.recordIn {width : Nat} {l : List (Summary S)} (h : ∀ s ∈ l, Q s.post)
    (hmerge : ∀ d d', Q d → Q d' → Q (d.merge d' width)) (hpost : Q post) (pre : Disjunction S) :
    ∀ s ∈ (Summaries.recordIn pre post width l).2, Q s.post := by
  fun_induction Summaries.recordIn pre post width l with
  | case1 =>
    intro s hs
    rw [List.mem_singleton.mp hs]
    exact hpost
  | case2 => exact h
  | case3 s rest =>
    intro s' hs'
    obtain rfl | hs' := List.mem_cons.mp hs'
    · exact hmerge s.post post (h s List.mem_cons_self) hpost
    · exact h s' (List.mem_cons_of_mem s hs')
  | case4 s rest _ stale rest' hrec ih =>
    intro s' hs'
    obtain rfl | hs' := List.mem_cons.mp hs'
    · exact h s' List.mem_cons_self
    · rw [hrec] at ih
      exact ih (fun t ht => h t (List.mem_cons_of_mem s ht)) s' hs'

theorem AllPosts.record {width : Nat} (h : m.AllPosts Q)
    (hmerge : ∀ d d', Q d → Q d' → Q (d.merge d' width)) (hpost : Q post) (call : A)
    (pre : Disjunction S) : (m.record call pre post width).2.AllPosts Q := by
  intro other s hs
  rw [ofCall_record] at hs
  split at hs
  · exact AllPosts.recordIn (h call) hmerge hpost pre s hs
  · exact h other s hs

/-- The summary that a reference is to. -/
def summaryAt? (m : Summaries A S) (r : SummaryRef A) : Option (Summary S) :=
  (m.ofCall r.call)[r.index]?

omit [AbstractState S] in
theorem summaryAt?_addUse (m : Summaries A S) (r : SummaryRef A) (item : ItemId)
    (r' : SummaryRef A) :
    (m.addUse r item).summaryAt? r' = (m.summaryAt? r').map fun s =>
      if r = r' then { s with uses := s.uses ++ [item] } else s := by
  obtain ⟨call, index⟩ := r
  obtain ⟨call', index'⟩ := r'
  unfold summaryAt?
  rw [ofCall_addUse]
  split
  · rename_i hcall
    rw [List.getElem?_modify]
    simp only at hcall
    by_cases hindex : index = index'
    · simp [hcall, hindex]
    · simp [hindex]
  · rename_i hcall
    simp only at hcall
    simp [hcall]

omit [AbstractState S] in
theorem pres_addUse (m : Summaries A S) (r : SummaryRef A) (item : ItemId) (call : A) :
    ((m.addUse r item).ofCall call).map Summary.pre = (m.ofCall call).map Summary.pre := by
  rw [ofCall_addUse]
  split
  · refine List.ext_getElem? fun i => ?_
    rw [List.getElem?_map, List.getElem?_map, List.getElem?_modify]
    cases (m.ofCall call)[i]? with
    | none => rfl
    | some s =>
      simp only [Option.map_eq_map, Option.map_some, Option.some.injEq]
      split
      · rfl
      · rfl
  · rfl

theorem matches_of_lookup (h : m.lookup call pre = some r) :
    ∃ s, m.summaryAt? r = some s ∧ pre.isSubset s.pre = true := by
  obtain ⟨i, hi, rfl⟩ := Option.map_eq_some_iff.mp h
  obtain ⟨hlt, hsub, -⟩ := List.findIdx?_eq_some_iff_getElem.mp hi
  exact ⟨_, List.getElem?_eq_getElem hlt, hsub⟩

/-- A summary stays as it is, or it grows and hands back all items that used it. -/
theorem getElem?_recordIn {width i : Nat} {l : List (Summary S)} {s : Summary S}
    (h : l[i]? = some s) : (recordIn pre post width l).2[i]? = some s ∨
      (recordIn pre post width l).2[i]? =
          some { s with post := s.post.merge post width, uses := [] } ∧
        (recordIn pre post width l).1 = s.uses := by
  fun_induction recordIn pre post width l generalizing i with
  | case1 => cases h
  | case2 => exact .inl h
  | case3 s' rest =>
    cases i with
    | zero =>
      cases h
      exact .inr ⟨rfl, rfl⟩
    | succ i => exact .inl h
  | case4 s' rest _ stale rest' hrec ih =>
    cases i with
    | zero => exact .inl h
    | succ i =>
      rw [hrec] at ih
      exact ih h

theorem summaryAt?_record {width : Nat} {s : Summary S} (h : m.summaryAt? r = some s) (call : A)
    (pre post : Disjunction S) : (m.record call pre post width).2.summaryAt? r = some s ∨
      (m.record call pre post width).2.summaryAt? r =
          some { s with post := s.post.merge post width, uses := [] } ∧
        (m.record call pre post width).1 = s.uses := by
  unfold summaryAt? at h ⊢
  rw [ofCall_record]
  split
  · rename_i hcall
    rw [← hcall] at h
    exact getElem?_recordIn h
  · exact .inl h

/-- Recording changes no state before a call; a summary with a new one comes last. -/
theorem pres_recordIn (pre post : Disjunction S) (width : Nat) (l : List (Summary S)) :
    (recordIn pre post width l).2.map Summary.pre = l.map Summary.pre ∨
      (∀ d ∈ l.map Summary.pre, d.isEquivalent pre = false) ∧
        (recordIn pre post width l).2.map Summary.pre = l.map Summary.pre ++ [pre] := by
  fun_induction recordIn pre post width l with
  | case1 => exact .inr ⟨fun d hd => (List.not_mem_nil hd).elim, rfl⟩
  | case2 => exact .inl rfl
  | case3 => exact .inl rfl
  | case4 s rest hpre stale rest' hrec ih =>
    rw [hrec] at ih
    obtain hsame | ⟨hnew, hlast⟩ := ih
    · exact .inl (congrArg (s.pre :: ·) hsame)
    · refine .inr ⟨fun d hd => ?_, congrArg (s.pre :: ·) hlast⟩
      obtain rfl | hd := List.mem_cons.mp hd
      · exact Bool.not_eq_true _ ▸ hpre
      · exact hnew d hd

/-- What was recorded is in a summary for an equivalent state before the call. -/
theorem recorded_recordIn [LawfulState S] (hpost : post.isBottom = false) (pre : Disjunction S)
    (width : Nat) (l : List (Summary S)) : ∃ s ∈ (recordIn pre post width l).2,
      s.pre.isEquivalent pre = true ∧ post.isSubset s.post = true := by
  fun_induction recordIn pre post width l with
  | case1 =>
    refine ⟨_, List.mem_singleton_self _, ?_, Disjunction.isSubset_refl _⟩
    rw [Disjunction.isEquivalent, Disjunction.isSubset_refl]
    rfl
  | case2 s rest hpre hsub => exact ⟨s, List.mem_cons_self, hpre, hsub⟩
  | case3 s rest hpre _ =>
    exact ⟨_, List.mem_cons_self, hpre, Disjunction.isSubset_merge_right hpost _ _⟩
  | case4 s rest _ stale rest' hrec ih =>
    rw [hrec] at ih
    obtain ⟨t, ht, hknows⟩ := ih
    exact ⟨t, List.mem_cons_of_mem s ht, hknows⟩

end Summaries

/-! ## §2. Passes. -/

namespace Engine

variable [AbstractState S]
variable {e : Engine L A S} {s s' : RunState L A S} {id : ItemId} {item final : Item L A S}
variable {post : Disjunction S} {exits : Exits A S} {summaries : Summaries A S}
variable {new : List (Item L A S)} {r : SummaryRef A} {Q : Disjunction S → Prop}

theorem exists_of_forall₂_left {α β : Type} {R : α → β → Prop} {l : List α} {l' : List β} {a : α}
    (h : List.Forall₂ R l l') (ha : a ∈ l) : ∃ b ∈ l', R a b := by
  induction h with
  | nil => cases ha
  | @cons c b l l' hcb _ ih =>
    obtain rfl | ha := List.mem_cons.mp ha
    · exact ⟨b, List.mem_cons_self, hcb⟩
    · obtain ⟨b', hb', hR⟩ := ih ha
      exact ⟨b', List.mem_cons_of_mem b hb', hR⟩

/-- Only items that leave a scope record anything, and they do so for the call that entered it. -/
theorem summarise_cases (e : Engine L A S) (item : Item L A S) (post : Disjunction S)
    (summaries : Summaries A S) :
    (e.leaves item = false ∨ item.scopes = []) ∧
        e.summarise item post summaries = ([], summaries) ∨
      e.leaves item = true ∧ ∃ scope, item.scopes.head? = some scope ∧
        e.summarise item post summaries =
          summaries.record scope.action scope.before post e.options.maxParallelStates := by
  unfold summarise Item.leaveScope
  cases e.leaves item with
  | false => exact .inl ⟨.inl rfl, rfl⟩
  | true =>
    cases item.scopes with
    | nil => exact .inl ⟨.inr rfl, rfl⟩
    | cons scope outer => exact .inr ⟨rfl, scope, rfl, rfl⟩

variable [DecidableEq L]

/-- The end of a pass changes no summaries, or records the return of the item and has the items
that used the summary before do so once more.  The latter it does unless the item is dropped. -/
theorem EndPart.summaries_cases (h : e.EndPart id item post s exits summaries final new s') :
    s'.summaries = summaries ∧
        (post.isBottom = true ∨ e.covers s.layers item post = .ok true) ∨
      s'.summaries = (e.summarise item post summaries).2 ∧ post.isBottom = false ∧
        ∀ k ∈ (e.summarise item post summaries).1, ∃ i ∈ new, s.Redoes k i := by
  cases h with
  | infeasible hpost _ _ _ _ hsummaries => exact .inl ⟨hsummaries, .inl hpost⟩
  | covered _ hcovered _ _ _ _ _ hsummaries => exact .inl ⟨hsummaries, .inr hcovered⟩
  | coveredCall _ hcovered _ _ _ _ _ _ hsummaries => exact .inl ⟨hsummaries, .inr hcovered⟩
  | loopFixpoint hpost _ _ _ _ _ _ _ _ hnew _ _ hsummaries =>
    exact .inr ⟨hsummaries, hpost, fun k hk => exists_of_forall₂_left hnew hk⟩
  | entryFixpoint hpost _ _ _ _ _ _ _ _ _ hredone hnew _ _ hsummaries =>
    refine .inr ⟨hsummaries, hpost, fun k hk => ?_⟩
    obtain ⟨i, hi, hredoes⟩ := exists_of_forall₂_left hredone hk
    exact ⟨i, by rw [hnew]; exact List.mem_append_left _ hi, hredoes⟩
  | stored hpost _ _ _ _ _ _ _ hredone hnew _ hsummaries =>
    refine .inr ⟨hsummaries, hpost, fun k hk => ?_⟩
    obtain ⟨i, hi, hredoes⟩ := exists_of_forall₂_left hredone hk
    exact ⟨i, by rw [hnew]; exact List.mem_append_left _ hi, hredoes⟩

/-- A summary that is known stays known. -/
theorem known_pass (hpost : e.PostPart id item s post summaries)
    (hend : e.EndPart id item post s exits summaries final new s')
    (h : (s.summaries.post? r).isSome = true) : (s'.summaries.post? r).isSome = true := by
  rw [Summaries.post?_isSome_iff] at h ⊢
  have hused : (s.summaries.ofCall r.call).length ≤ (summaries.ofCall r.call).length := by
    cases hpost with
    | interpreted _ _ hsummaries => rw [hsummaries]
    | summarised _ _ hsummaries => rw [hsummaries, Summaries.length_addUse]
  obtain ⟨hsummaries, -⟩ | ⟨hsummaries, -⟩ := hend.summaries_cases
  · rw [hsummaries]
    exact h.trans_le hused
  · rw [hsummaries]
    refine h.trans_le (hused.trans ?_)
    obtain ⟨-, hnone⟩ | ⟨-, scope, -, hrecord⟩ := e.summarise_cases item post summaries
    · rw [hnone]
    · rw [hrecord]
      exact Summaries.length_record ..

/-- What holds of the states after every action, and is kept by merging, goes on holding of all
states recorded after returns. -/
theorem allPosts_pass (hpost : e.PostPart id item s post summaries)
    (hend : e.EndPart id item post s exits summaries final new s')
    (hmerge : ∀ d d', Q d → Q d' → Q (d.merge d' e.options.maxParallelStates))
    (h : s.summaries.AllPosts Q) (hq : Q post) : s'.summaries.AllPosts Q := by
  have hused : summaries.AllPosts Q := by
    cases hpost with
    | interpreted _ _ hsummaries =>
      rw [hsummaries]
      exact h
    | summarised _ _ hsummaries =>
      rw [hsummaries]
      exact h.addUse _ _
  obtain ⟨hsummaries, -⟩ | ⟨hsummaries, -⟩ := hend.summaries_cases
  · rw [hsummaries]
    exact hused
  · rw [hsummaries]
    obtain ⟨-, hnone⟩ | ⟨-, scope, -, hrecord⟩ := e.summarise_cases item post summaries
    · rw [hnone]
      exact hused
    · rw [hrecord]
      exact hused.record hmerge hq _ _

/-- A pass keeps the states before calls that there are summaries for; a new one is the state from
which the scope that the item leaves was entered. -/
theorem pres_pass (hpost : e.PostPart id item s post summaries)
    (hend : e.EndPart id item post s exits summaries final new s') (call : A) :
    (s'.summaries.ofCall call).map Summary.pre = (s.summaries.ofCall call).map Summary.pre ∨
      ∃ scope, item.scopes.head? = some scope ∧ scope.action = call ∧
        (∀ d ∈ (s.summaries.ofCall call).map Summary.pre,
          d.isEquivalent scope.before = false) ∧
        (s'.summaries.ofCall call).map Summary.pre =
          (s.summaries.ofCall call).map Summary.pre ++ [scope.before] := by
  have hused : (summaries.ofCall call).map Summary.pre =
      (s.summaries.ofCall call).map Summary.pre := by
    cases hpost with
    | interpreted _ _ hsummaries => rw [hsummaries]
    | summarised _ _ hsummaries => rw [hsummaries, Summaries.pres_addUse]
  obtain ⟨hsummaries, -⟩ | ⟨hsummaries, -⟩ := hend.summaries_cases
  · exact .inl (by rw [hsummaries, hused])
  · obtain ⟨-, hnone⟩ | ⟨-, scope, hscope, hrecord⟩ := e.summarise_cases item post summaries
    · exact .inl (by rw [hsummaries, hnone, hused])
    · rw [hsummaries, hrecord, Summaries.ofCall_record, ← hused]
      split
      · rename_i hcall
        rw [← hcall]
        obtain hsame | ⟨hnew, hlast⟩ := Summaries.pres_recordIn scope.before post
          e.options.maxParallelStates (summaries.ofCall scope.action)
        · exact .inl hsame
        · exact .inr ⟨scope, hscope, rfl, hnew, hlast⟩
      · exact .inl rfl

/-- A summary after a pass: it is for the same state before the call, the state after the return
has not shrunk, and what used it uses it still, or does so once more. -/
theorem entry_pass [LawfulState S] (hproper : s.summaries.AllPosts Disjunction.Proper)
    (hpost : e.PostPart id item s post summaries)
    (hend : e.EndPart id item post s exits summaries final new s') {m : Summary S}
    (h : s.summaries.summaryAt? r = some m) : ∃ m', s'.summaries.summaryAt? r = some m' ∧
      m'.pre = m.pre ∧ m.post.isSubset m'.post = true ∧
      (m'.post = m.post ∧ (∀ k ∈ m.uses, k ∈ m'.uses) ∨
        ∀ k ∈ m.uses, ∃ i ∈ new, s.Redoes k i) := by
  -- While the states after the action are determined, a summary gains users at most.
  have hused : ∃ m₁, summaries.summaryAt? r = some m₁ ∧ m₁.pre = m.pre ∧ m₁.post = m.post ∧
      ∀ k ∈ m.uses, k ∈ m₁.uses := by
    cases hpost with
    | interpreted _ _ hsummaries =>
      rw [hsummaries]
      exact ⟨m, h, rfl, rfl, fun _ hk => hk⟩
    | summarised _ _ hsummaries =>
      rw [hsummaries, Summaries.summaryAt?_addUse, h]
      refine ⟨_, rfl, ?_⟩
      split
      · exact ⟨rfl, rfl, fun _ hk => List.mem_append_left _ hk⟩
      · exact ⟨rfl, rfl, fun _ hk => hk⟩
  obtain ⟨m₁, hm₁, hpre, hpost', huses⟩ := hused
  have hkept : s'.summaries.summaryAt? r = some m₁ → ∃ m', s'.summaries.summaryAt? r = some m' ∧
      m'.pre = m.pre ∧ m.post.isSubset m'.post = true ∧
      (m'.post = m.post ∧ (∀ k ∈ m.uses, k ∈ m'.uses) ∨
        ∀ k ∈ m.uses, ∃ i ∈ new, s.Redoes k i) := fun hm' =>
    ⟨m₁, hm', hpre, hpost' ▸ Disjunction.isSubset_refl _, .inl ⟨hpost', huses⟩⟩
  -- Then it stays, or it grows by the states of a return, and all its users are redone.
  obtain ⟨hsummaries, -⟩ | ⟨hsummaries, -, hredone⟩ := hend.summaries_cases
  · exact hkept (by rw [hsummaries]; exact hm₁)
  · obtain ⟨-, hnone⟩ | ⟨-, scope, -, hrecord⟩ := e.summarise_cases item post summaries
    · exact hkept (by rw [hsummaries, hnone]; exact hm₁)
    · rw [hrecord] at hsummaries hredone
      obtain hm' | ⟨hm', hstale⟩ := Summaries.summaryAt?_record hm₁ scope.action scope.before post
      · exact hkept (by rw [hsummaries]; exact hm')
      · rw [← hsummaries] at hm'
        refine ⟨_, hm', hpre, ?_, .inr fun k hk => hredone k (by rw [hstale]; exact huses k hk)⟩
        dsimp only
        rw [hpost']
        exact Disjunction.isSubset_merge_left (hproper r.call m (List.mem_of_getElem? h)) _ _

end Engine

end Interproc
