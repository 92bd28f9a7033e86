/-
  Interproc.Proofs.Dominance
  ──────────────────────────
  Dominance and natural loops by means of paths, over any relation.  A place
  dominates another if every path from the root to the latter visits it.

    * `Dominates.total` — the dominators of a place that is reached form a chain;
    * `InLoop.dominates` — the header of a natural loop dominates the loop;
    * `InLoop.nested` — natural loops that share a place that is reached are
      nested.

  A loop may contain places that the root does not reach.  Nesting speaks of them,
  too: a way into the inner loop that came through the outer header would let the
  root reach the inner back edge without the inner header.
-/
import Mathlib

namespace Interproc

variable {α : Type} {R R' : α → α → Prop} {root a b h k t u v w x : α} {l m : List α}

/-! ## §1. Paths. -/

/-- A path from one place to another, with the places that it visits, both ends included. -/
inductive Path (R : α → α → Prop) : α → List α → α → Prop where
  | here (v : α) : Path R v [v] v
  | step {u w v : α} {l : List α} (first : R u w) (rest : Path R w l v) : Path R u (u :: l) v

namespace Path

theorem source_mem (p : Path R u l v) : u ∈ l := by
  cases p with
  | here => exact List.mem_cons_self
  | step => exact List.mem_cons_self

theorem target_mem (p : Path R u l v) : v ∈ l := by
  induction p with
  | here v => exact List.mem_cons_self
  | step _ _ ih => exact List.mem_cons_of_mem _ ih

theorem concat (p : Path R u l v) (last : R v w) : Path R u (l ++ [w]) w := by
  induction p with
  | here v => exact .step last (.here w)
  | step first _ ih => exact .step first (ih last)

/-- A path ends at once, or with a last step. -/
theorem last_cases (p : Path R u l v) :
    (u = v ∧ l = [v]) ∨ ∃ w m, Path R u m w ∧ R w v ∧ l = m ++ [v] := by
  induction p with
  | here v => exact .inl ⟨rfl, rfl⟩
  | @step u w v l first rest ih =>
    obtain ⟨rfl, rfl⟩ | ⟨x, m, p, last, rfl⟩ := ih
    · exact .inr ⟨u, [u], .here u, first, rfl⟩
    · exact .inr ⟨x, u :: m, .step first p, last, rfl⟩

/-- What holds where paths start and is kept by a last step holds where they end. -/
theorem concat_induct {P : List α → α → Prop} (start : P [u] u)
    (next : ∀ l w v, Path R u l w → R w v → P l w → P (l ++ [v]) v) (p : Path R u l v) : P l v := by
  induction l using List.reverseRecOn generalizing v with
  | nil => cases p
  | append_singleton l a ih =>
    obtain ⟨rfl, hl⟩ | ⟨w, m, q, last, hl⟩ := p.last_cases
    · rw [hl]
      exact start
    · obtain ⟨hm, hv⟩ := List.append_inj' hl rfl
      obtain rfl := List.singleton_inj.mp hv
      subst hm
      exact next l w a q last (ih q)

theorem trans (p : Path R u l v) (q : Path R v m w) :
    ∃ n, Path R u n w ∧ ∀ x ∈ n, x ∈ l ∨ x ∈ m := by
  induction p with
  | here v => exact ⟨m, q, fun _ => .inr⟩
  | @step u _ _ l first _ ih =>
    obtain ⟨n, r, hn⟩ := ih q
    refine ⟨u :: n, .step first r, fun x hx => ?_⟩
    obtain rfl | hx := List.mem_cons.mp hx
    · exact .inl List.mem_cons_self
    · exact (hn x hx).imp (List.mem_cons_of_mem u) id

/-- The part of a path up to a place that it visits. -/
theorem upTo (p : Path R u l v) (hx : x ∈ l) : ∃ m, Path R u m x ∧ ∀ y ∈ m, y ∈ l := by
  induction p with
  | here v =>
    obtain rfl := List.mem_singleton.mp hx
    exact ⟨[x], .here x, fun _ hy => hy⟩
  | @step u _ _ l first _ ih =>
    obtain rfl | hx := List.mem_cons.mp hx
    · exact ⟨[x], .here x, fun y hy => List.mem_singleton.mp hy ▸ List.mem_cons_self⟩
    · obtain ⟨m, q, hm⟩ := ih hx
      refine ⟨u :: m, .step first q, fun y hy => ?_⟩
      obtain rfl | hy := List.mem_cons.mp hy
      · exact List.mem_cons_self
      · exact List.mem_cons_of_mem u (hm y hy)

/-- The part of a path from the last visit of a place on. -/
theorem afterLast (p : Path R u l v) (hx : x ∈ l) :
    ∃ m, Path R x (x :: m) v ∧ x ∉ m ∧ ∀ y ∈ x :: m, y ∈ l := by
  induction p with
  | here v =>
    obtain rfl := List.mem_singleton.mp hx
    exact ⟨[], .here x, List.not_mem_nil, fun _ hy => hy⟩
  | @step u _ _ l first rest ih =>
    by_cases hlater : x ∈ l
    · obtain ⟨m, q, hfresh, hm⟩ := ih hlater
      exact ⟨m, q, hfresh, fun y hy => List.mem_cons_of_mem u (hm y hy)⟩
    · obtain rfl | hx := List.mem_cons.mp hx
      · exact ⟨l, .step first rest, hlater, fun _ hy => hy⟩
      · exact absurd hx hlater

/-- A path stays where every step stays. -/
theorem forall_mem {P : α → Prop} (hstep : ∀ u w, R u w → P u → P w) (p : Path R u l v) (hu : P u) :
    ∀ x ∈ l, P x := by
  induction p with
  | here v => exact fun x hx => List.mem_singleton.mp hx ▸ hu
  | step first _ ih => exact List.forall_mem_cons.mpr ⟨hu, ih (hstep _ _ first hu)⟩

/-- Going backwards along a path that avoids `h` leads out of no set that can be left backwards at
`h` only. -/
theorem mem_source {P : α → Prop} (hstep : ∀ u w, R u w → P w → w ≠ h → P u) (p : Path R u l v)
    (hh : h ∉ l) (hv : P v) : P u := by
  induction p with
  | here v => exact hv
  | @step u w v l first rest ih =>
    have hrest : h ∉ l := fun hl => hh (List.mem_cons_of_mem u hl)
    exact hstep u w first (ih hrest hv) fun hw => hrest (hw ▸ rest.source_mem)

end Path

/-! ## §2. Dominance. -/

/-- There is a path from one place to another. -/
def Reaches (R : α → α → Prop) (u v : α) : Prop := ∃ l, Path R u l v

/-- There is a path from one place to another that does not pass through `h`. -/
def Bypasses (R : α → α → Prop) (h u v : α) : Prop := ∃ l, Path R u l v ∧ h ∉ l

/-- Every path from the root to `v` visits `d`. -/
def Dominates (R : α → α → Prop) (root d v : α) : Prop := ∀ l, Path R root l v → d ∈ l

theorem Reaches.refl (v : α) : Reaches R v v := ⟨[v], .here v⟩

theorem Reaches.concat (p : Reaches R u v) (last : R v w) : Reaches R u w := by
  obtain ⟨l, p⟩ := p
  exact ⟨l ++ [w], p.concat last⟩

theorem Bypasses.trans (p : Bypasses R h u v) (q : Bypasses R h v w) : Bypasses R h u w := by
  obtain ⟨l, p, hl⟩ := p
  obtain ⟨m, q, hm⟩ := q
  obtain ⟨n, r, hn⟩ := p.trans q
  exact ⟨n, r, fun hh => (hn h hh).elim hl hm⟩

theorem Bypasses.concat (p : Bypasses R h u v) (last : R v w) (hw : h ≠ w) : Bypasses R h u w := by
  obtain ⟨l, p, hl⟩ := p
  refine ⟨l ++ [w], p.concat last, fun hh => ?_⟩
  exact (List.mem_append.mp hh).elim hl fun hh => hw (List.mem_singleton.mp hh)

theorem Bypasses.cons (first : R u w) (hu : h ≠ u) (p : Bypasses R h w v) : Bypasses R h u v := by
  obtain ⟨l, p, hl⟩ := p
  exact ⟨u :: l, .step first p, fun hh => (List.mem_cons.mp hh).elim hu hl⟩

theorem not_dominates_iff : ¬Dominates R root h v ↔ Bypasses R h root v := by
  simp [Dominates, Bypasses]

theorem Dominates.refl (v : α) : Dominates R root v v := fun _ p => p.target_mem

/-- What dominates a place that is reached is reached. -/
theorem Dominates.reaches (ha : Dominates R root a v) (hv : Reaches R root v) :
    Reaches R root a := by
  obtain ⟨l, p⟩ := hv
  obtain ⟨m, q, -⟩ := p.upTo (ha l p)
  exact ⟨m, q⟩

/-- Paths from a place depend on the steps from what it reaches alone. -/
theorem path_congr (hsame : ∀ v w, Reaches R u v → (R v w ↔ R' v w)) :
    Path R u l v ↔ Path R' u l v := by
  constructor
  · refine Path.concat_induct (P := Path R' u) (.here u) fun l w v p hstep ih => ?_
    exact ih.concat ((hsame w v ⟨l, p⟩).mp hstep)
  · refine Path.concat_induct (P := Path R u) (.here u) fun l w v _ hstep ih => ?_
    exact ih.concat ((hsame w v ⟨l, ih⟩).mpr hstep)

/-- A dominator of a place, but for the place itself, dominates all places that lead there. -/
theorem Dominates.of_step (ha : Dominates R root a v) (hav : a ≠ v) (hstep : R u v) :
    Dominates R root a u := by
  intro l p
  obtain h | h := List.mem_append.mp (ha _ (p.concat hstep))
  · exact h
  · exact absurd (List.mem_singleton.mp h) hav

theorem Dominates.antisymm (ha : Dominates R root a b) (hb : Dominates R root b a)
    (hreaches : Reaches R root a) : a = b := by
  by_contra hne
  -- A path that visits neither of the two cannot visit one of them next: the other one would be
  -- missing.
  have hneither : ∀ l v, Path R root l v → a ∉ l ∧ b ∉ l := by
    intro l v p
    refine p.concat_induct (P := fun l _ => a ∉ l ∧ b ∉ l) ⟨fun h => ?_, fun h => ?_⟩ ?_
    · obtain rfl := List.mem_singleton.mp h
      exact hne (List.mem_singleton.mp (hb [a] (.here a))).symm
    · obtain rfl := List.mem_singleton.mp h
      exact hne (List.mem_singleton.mp (ha [b] (.here b)))
    · rintro l w v p hstep ⟨ha', hb'⟩
      have hends : a ≠ v ∧ b ≠ v := by
        constructor
        · rintro rfl
          exact hb' (hb.of_step (Ne.symm hne) hstep l p)
        · rintro rfl
          exact ha' (ha.of_step hne hstep l p)
      simp [ha', hb', hends]
  obtain ⟨l, p⟩ := hreaches
  exact (hneither l a p).1 p.target_mem

/-- Of two dominators of a place, the one that does not dominate the other lies behind it: from
there, the place is reached without the other. -/
theorem Dominates.bypasses (ha : Dominates R root a v) (hb : Dominates R root b v)
    (hv : Reaches R root v) (hba : ¬Dominates R root b a) : Bypasses R a b v := by
  obtain ⟨l, p, hl⟩ := not_dominates_iff.mp hba
  obtain ⟨m, q⟩ := hv
  obtain ⟨n, r, han, -⟩ := q.afterLast (ha m q)
  -- The root reaches `a` without `b`, so `b` is visited after the last visit of `a`.
  obtain ⟨o, s, ho⟩ := p.trans r
  have hbn : b ∈ n := by
    obtain hbl | hbn := ho b (hb o s)
    · exact absurd hbl hl
    · obtain rfl | hbn := List.mem_cons.mp hbn
      · exact absurd p.target_mem hl
      · exact hbn
  cases r with
  | here => cases hbn
  | step first rest =>
    obtain ⟨i, r, -, hi⟩ := rest.afterLast hbn
    exact ⟨b :: i, r, fun ha => han (hi a ha)⟩

/-- The dominators of a place that is reached form a chain. -/
theorem Dominates.total (ha : Dominates R root a v) (hb : Dominates R root b v)
    (hv : Reaches R root v) : Dominates R root a b ∨ Dominates R root b a := by
  by_contra hneither
  obtain ⟨hab, hba⟩ := not_or.mp hneither
  -- The root would reach `b` without `a`, and from there go on to `v`, still without `a`.
  have hfree := (not_dominates_iff.mp hab).trans (ha.bypasses hb hv hba)
  exact not_dominates_iff.mpr hfree ha

/-! ## §3. Natural loops. -/

/-- A step from a place that is reached to one that dominates it. -/
structure BackEdge (R : α → α → Prop) (root t h : α) : Prop where
  step : R t h
  reached : Reaches R root t
  dominates : Dominates R root h t

/-- The natural loop of a header: the header, and what reaches a back edge to it without passing
through it. -/
def InLoop (R : α → α → Prop) (root h v : α) : Prop :=
  v = h ∨ ∃ t, BackEdge R root t h ∧ Bypasses R h v t

/-- The header of a loop dominates the loop. -/
theorem InLoop.dominates (hv : InLoop R root h v) : Dominates R root h v := by
  obtain rfl | ⟨t, hback, hvt⟩ := hv
  · exact .refl v
  · by_contra hnot
    exact not_dominates_iff.mpr ((not_dominates_iff.mp hnot).trans hvt) hback.dominates

/-- Of two loops that share a place that is reached, the one whose header is dominated by the other
header is the inner one. -/
theorem InLoop.of_dominates (hv : InLoop R root h v) (hv' : InLoop R root k v)
    (hreaches : Reaches R root v) (hne : h ≠ k) (hhk : Dominates R root h k)
    (hw : InLoop R root k w) : InLoop R root h w := by
  have hh := hv.dominates
  have hk := hv'.dominates
  have hkh : ¬Dominates R root k h := fun hkh => hne (hhk.antisymm hkh (hh.reaches hreaches))
  have hkv : Bypasses R h k v := hh.bypasses hk hreaches hkh
  -- The shared place is not the outer header, so it leads to an outer back edge, and so does the
  -- inner header.
  obtain rfl | ⟨t, hback, hvt⟩ := hv
  · obtain ⟨l, p, hl⟩ := hkv
    exact absurd p.target_mem hl
  have hkt := hkv.trans hvt
  obtain rfl | ⟨t', hback', l, p, hl⟩ := hw
  · exact .inr ⟨t, hback, hkt⟩
  · have hhl : h ∉ l := by
      intro hhl
      obtain ⟨m, q, -, hm⟩ := p.afterLast hhl
      have hfree : Bypasses R k h t' := ⟨h :: m, q, fun hkm => hl (hm k hkm)⟩
      exact not_dominates_iff.mpr ((not_dominates_iff.mp hkh).trans hfree) hback'.dominates
    have hwk : Bypasses R h w k := Bypasses.concat ⟨l, p, hhl⟩ hback'.step hne
    exact .inr ⟨t, hback, hwk.trans hkt⟩

/-- Two loops that share a place that is reached are nested. -/
theorem InLoop.nested (hv : InLoop R root h v) (hv' : InLoop R root k v)
    (hreaches : Reaches R root v) (hne : h ≠ k) :
    (∀ w, InLoop R root h w → InLoop R root k w) ∨ ∀ w, InLoop R root k w → InLoop R root h w := by
  obtain hhk | hkh := hv.dominates.total hv'.dominates hreaches
  · exact .inr fun w => hv.of_dominates hv' hreaches hne hhk
  · exact .inl fun w => hv'.of_dominates hv hreaches hne.symm hkh

end Interproc
