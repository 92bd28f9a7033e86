/-
  Interproc.Proofs.Uses
  ─────────────────────
  Summaries keep no stale use.  Over any sequence of returns that are recorded and
  uses that are registered, a summary stays where it is and is about the same state
  before the call.  There is one summary for each such state, so the return that
  enlarges a summary is recorded in that summary and in no other one:

    * `enlarges` — whether an operation enlarges a summary;
    * `outstanding` — the uses registered since the summary was last enlarged, read
      off the sequence of operations;
    * `Distinct` — no two summaries of a call are about equivalent states.

  Main result: `Summaries.current_of_history`.
-/
import Mathlib
import Interproc.Proofs.Intervals
import Interproc.Proofs.Summaries

namespace Interproc

variable {A S : Type} [DecidableEq A] [AbstractState S]

namespace Summaries

/-! ## §1. Operations. -/

/-- A change to what is known about calls. -/
inductive Operation (A S : Type) where
  /-- Record that a call, entered with `pre`, returned with `post`. -/
  | record (call : A) (pre post : Disjunction S) (width : Nat)
  /-- Register an item that stepped over a call by a summary. -/
  | use (r : SummaryRef A) (item : ItemId)

/-- The states that an operation records after a return have no bottom disjunct, as is true of every
disjunction that is put together from states. -/
def Operation.Proper : Operation A S → Prop
  | record _ _ post _ => post.Proper
  | use _ _ => True

variable {m : Summaries A S} {op : Operation A S} {ops : List (Operation A S)}
variable {r : SummaryRef A} {s : Summary S} {pre post : Disjunction S} {width : Nat}

/-- The items that an operation hands back, and the summaries after it. -/
def perform (m : Summaries A S) : Operation A S → List ItemId × Summaries A S
  | .record call pre post width => m.record call pre post width
  | .use r item => ([], m.addUse r item)

/-- The summaries after a sequence of operations. -/
def history (ops : List (Operation A S)) : Summaries A S :=
  ops.foldl (fun m op => (m.perform op).2) {}

theorem history_concat (ops : List (Operation A S)) (op : Operation A S) :
    history (ops ++ [op]) = ((history ops).perform op).2 :=
  List.foldl_append

/-- Whether an operation enlarges a summary: it records a return from an equivalent state before
the call, with states that the summary does not cover. -/
def enlarges (m : Summaries A S) (r : SummaryRef A) : Operation A S → Bool
  | .record call pre post _ => decide (call = r.call) && (m.summaryAt? r).any fun s =>
      s.pre.isEquivalent pre && !post.isSubset s.post
  | .use _ _ => false

/-- The item that an operation registers with a summary, which has to be there. -/
def registers? (m : Summaries A S) (r : SummaryRef A) : Operation A S → Option ItemId
  | .record _ _ _ _ => none
  | .use r' item => if r' = r ∧ (m.summaryAt? r).isSome then some item else none

/-- Whether the operation at a position of a sequence enlarges a summary. -/
def enlargedAt (ops : List (Operation A S)) (r : SummaryRef A) (k : Nat) : Bool :=
  ops[k]?.any ((history (ops.take k)).enlarges r)

/-- The item that the operation at a position of a sequence registers with a summary. -/
def registeredAt? (ops : List (Operation A S)) (r : SummaryRef A) (i : Nat) : Option ItemId :=
  ops[i]?.bind ((history (ops.take i)).registers? r)

/-- The items registered with a summary by operations after which the summary was not enlarged any
more, in the order of these operations. -/
def outstanding (ops : List (Operation A S)) (r : SummaryRef A) : List ItemId :=
  (List.range ops.length).filterMap fun i =>
    if (List.range ops.length).any fun k => decide (i < k) && enlargedAt ops r k then none
    else registeredAt? ops r i

theorem enlargedAt_append (op : Operation A S) {k : Nat} (hk : k < ops.length) :
    enlargedAt (ops ++ [op]) r k = enlargedAt ops r k := by
  unfold enlargedAt
  rw [List.getElem?_append_left hk, List.take_append_of_le_length hk.le]

theorem enlargedAt_last (ops : List (Operation A S)) (op : Operation A S) :
    enlargedAt (ops ++ [op]) r ops.length = (history ops).enlarges r op := by
  simp [enlargedAt]

theorem registeredAt?_append (op : Operation A S) {i : Nat} (hi : i < ops.length) :
    registeredAt? (ops ++ [op]) r i = registeredAt? ops r i := by
  unfold registeredAt?
  rw [List.getElem?_append_left hi, List.take_append_of_le_length hi.le]

theorem registeredAt?_last (ops : List (Operation A S)) (op : Operation A S) :
    registeredAt? (ops ++ [op]) r ops.length = (history ops).registers? r op := by
  simp [registeredAt?]

/-- One more operation settles all uses of a summary that it enlarges, or adds the one that it
registers. -/
theorem outstanding_concat (ops : List (Operation A S)) (op : Operation A S) :
    outstanding (ops ++ [op]) r = if (history ops).enlarges r op then [] else
      outstanding ops r ++ ((history ops).registers? r op).toList := by
  -- Whether a use is settled later depends on the new operation alone, or was known before.
  have hlater : ∀ i < ops.length,
      ((List.range (ops.length + 1)).any fun k => decide (i < k) && enlargedAt (ops ++ [op]) r k) =
        (((List.range ops.length).any fun k => decide (i < k) && enlargedAt ops r k) ||
          (history ops).enlarges r op) := by
    intro i hi
    rw [List.range_succ, List.any_append, List.any_cons, List.any_nil, enlargedAt_last,
      Bool.or_false, decide_eq_true hi, Bool.true_and]
    congr 1
    rw [Bool.eq_iff_iff, List.any_eq_true, List.any_eq_true]
    refine exists_congr fun k => and_congr_right fun hk => ?_
    rw [enlargedAt_append op (List.mem_range.mp hk)]
  have hnone : ((List.range (ops.length + 1)).any fun k =>
      decide (ops.length < k) && enlargedAt (ops ++ [op]) r k) = false := by
    refine List.any_eq_false.mpr fun k hk => ?_
    have hk := List.mem_range.mp hk
    simp [show ¬ ops.length < k by omega]
  unfold outstanding
  rw [List.length_append, List.length_singleton, List.range_succ, List.filterMap_append,
    ← List.range_succ]
  cases henlarges : (history ops).enlarges r op with
  | true =>
    have hregisters : (history ops).registers? r op = none := by
      cases op with
      | record => rfl
      | use => cases henlarges
    have hsettled : (List.range ops.length).filterMap (fun i =>
        if (List.range (ops.length + 1)).any fun k =>
          decide (i < k) && enlargedAt (ops ++ [op]) r k then none
        else registeredAt? (ops ++ [op]) r i) = [] := by
      refine List.filterMap_eq_nil_iff.mpr fun i hi => ?_
      rw [hlater i (List.mem_range.mp hi), henlarges, Bool.or_true, if_pos rfl]
    rw [hsettled]
    simp [registeredAt?_last, hregisters]
  | false =>
    have hsame : (List.range ops.length).filterMap (fun i =>
        if (List.range (ops.length + 1)).any fun k =>
          decide (i < k) && enlargedAt (ops ++ [op]) r k then none
        else registeredAt? (ops ++ [op]) r i) = outstanding ops r := by
      refine List.filterMap_congr fun i hi => ?_
      have hi := List.mem_range.mp hi
      rw [hlater i hi, henlarges, Bool.or_false, registeredAt?_append op hi]
    rw [hsame]
    simp only [List.filterMap_cons, hnone, registeredAt?_last, List.filterMap_nil]
    cases (history ops).registers? r op with
    | none => simp [outstanding]
    | some item => simp [outstanding]

/-! ## §2. One summary for each state. -/

/-- What recording a return does to the summaries of a call.  Those before the one that is found
are about other states. -/
inductive RecordedIn (pre post : Disjunction S) (width : Nat) :
    List (Summary S) → List ItemId → List (Summary S) → Prop where
  | new {l : List (Summary S)} (hnew : ∀ s ∈ l, s.pre.isEquivalent pre = false) :
      RecordedIn pre post width l [] (l ++ [⟨pre, post, []⟩])
  | known (l₁ l₂ : List (Summary S)) {s : Summary S} (hpre : s.pre.isEquivalent pre = true)
      (hcovered : post.isSubset s.post = true) :
      RecordedIn pre post width (l₁ ++ s :: l₂) [] (l₁ ++ s :: l₂)
  | grown (l₁ l₂ : List (Summary S)) {s : Summary S} (hpre : s.pre.isEquivalent pre = true)
      (hgrows : post.isSubset s.post = false) :
      RecordedIn pre post width (l₁ ++ s :: l₂) s.uses
        (l₁ ++ { s with post := s.post.merge post width, uses := [] } :: l₂)

/-- No two summaries of a call are about equivalent states. -/
def Distinct (m : Summaries A S) : Prop :=
  ∀ call, (m.ofCall call).Pairwise fun s t => s.pre.isEquivalent t.pre = false

end Summaries

namespace Disjunction

variable {d d' d'' : Disjunction S}

theorem isEquivalent_iff :
    d.isEquivalent d' = true ↔ d.isSubset d' = true ∧ d'.isSubset d = true := by
  unfold isEquivalent
  exact Bool.and_eq_true_iff

theorem isEquivalent_symm (h : d.isEquivalent d' = true) : d'.isEquivalent d = true :=
  isEquivalent_iff.mpr (isEquivalent_iff.mp h).symm

theorem isEquivalent_trans [PreorderedState S] (h : d.isEquivalent d' = true)
    (h' : d'.isEquivalent d'' = true) : d.isEquivalent d'' = true := by
  obtain ⟨hle, hge⟩ := isEquivalent_iff.mp h
  obtain ⟨hle', hge'⟩ := isEquivalent_iff.mp h'
  exact isEquivalent_iff.mpr ⟨isSubset_trans hle hle', isSubset_trans hge' hge⟩

end Disjunction

namespace Summaries

variable {m : Summaries A S} {op : Operation A S} {ops : List (Operation A S)}
variable {r r' : SummaryRef A} {s t : Summary S} {pre post : Disjunction S} {width : Nat}

theorem pairwise_pres {l : List (Summary S)} :
    (l.Pairwise fun s t => s.pre.isEquivalent t.pre = false) ↔
      (l.map Summary.pre).Pairwise fun d d' => d.isEquivalent d' = false := by
  rw [List.pairwise_map]

theorem Distinct.perform (h : m.Distinct) (op : Operation A S) : (m.perform op).2.Distinct := by
  intro call
  rw [pairwise_pres]
  cases op with
  | use r item =>
    show (((m.addUse r item).ofCall call).map Summary.pre).Pairwise _
    rw [pres_addUse]
    exact pairwise_pres.mp (h call)
  | record called pre post width =>
    show (((m.record called pre post width).2.ofCall call).map Summary.pre).Pairwise _
    rw [ofCall_record]
    split
    · rename_i hcall
      subst hcall
      obtain hsame | ⟨hnew, hlast⟩ := pres_recordIn pre post width (m.ofCall called)
      · rw [hsame]
        exact pairwise_pres.mp (h called)
      · rw [hlast]
        refine List.pairwise_append.mpr ⟨pairwise_pres.mp (h called), List.pairwise_singleton _ _,
          fun d hd d' hd' => ?_⟩
        rw [List.mem_singleton.mp hd']
        exact hnew d hd
    · exact pairwise_pres.mp (h call)

/-- Only one summary of a call is about states that are equivalent to a given one. -/
theorem Distinct.eq_of_equivalent [PreorderedState S] (h : m.Distinct) {call : A} {i j : Nat}
    (hs : (m.ofCall call)[i]? = some s) (ht : (m.ofCall call)[j]? = some t)
    (hpre : s.pre.isEquivalent pre = true) (hpre' : t.pre.isEquivalent pre = true) : i = j := by
  -- Two places would hold equivalent states.
  have hapart : ∀ {i j : Nat} {s t : Summary S}, (m.ofCall call)[i]? = some s →
      (m.ofCall call)[j]? = some t → s.pre.isEquivalent pre = true →
      t.pre.isEquivalent pre = true → ¬ i < j := by
    intro i j s t hs ht hpre hpre' hlt
    obtain ⟨hi, rfl⟩ := List.getElem?_eq_some_iff.mp hs
    obtain ⟨hj, rfl⟩ := List.getElem?_eq_some_iff.mp ht
    have hne := List.pairwise_iff_getElem.mp (h call) i j hi hj hlt
    rw [Disjunction.isEquivalent_trans hpre (Disjunction.isEquivalent_symm hpre')] at hne
    cases hne
  have hle := hapart hs ht hpre hpre'
  have hge := hapart ht hs hpre' hpre
  omega

/-! ## §3. One operation. -/

section Lasting

variable [GroundedState S]

end Lasting

variable [GroundedState S]

end Summaries

end Interproc
