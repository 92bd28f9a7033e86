/-
  Interproc.Proofs.Indexing
  ─────────────────────────
  One graph in four maps.  The vertices, the edges and the neighbours in both
  directions are kept apart, and a change updates one map after the other.  The
  searches rely on the maps to agree: they look neighbours up without asking whether
  there is an entry.  Here changes are made map by map, and look-ups may find nothing:

    * `Change.inPlace_eq` — a change that fails does so before it touches a map, and
      otherwise the maps end up as if they were changed at once;
    * `Unchecked.absorb_eq`, `Unchecked.settle_eq` — searches and sweeps come to an
      end within their bounds, and every look-up on the way finds an entry.

  Main result: `aligned_of_built`.
-/
import Mathlib
import Interproc.Proofs.NaturalLoops

namespace Interproc

namespace SortedMap

variable {κ β γ : Type} [Ord κ] [Std.TransOrd κ] [Std.LawfulEqOrd κ]

theorem contains_insert [DecidableEq κ] {m : SortedMap κ β} {k a : κ} {v : β} :
    (m.insert k v).contains a = (decide (a = k) || m.contains a) := by
  unfold contains
  rw [find?_insert]
  by_cases hak : a = k <;> simp [hak]

/-- Maps that have entries for the same keys list the same keys. -/
theorem keys_eq_of_contains_eq {m : SortedMap κ β} {n : SortedMap κ γ}
    (h : ∀ k, m.contains k = n.contains k) : m.keys = n.keys := by
  refine SortedSet.eq_of_increasing_of_mem_iff (List.pairwise_map.mpr m.increasing)
    (List.pairwise_map.mpr n.increasing) fun k => ?_
  rw [mem_keys, mem_keys, h]

end SortedMap

namespace Digraph

variable {V E : Type} {g : Digraph V E} {root v w index : Nat} {doms : DominatorMap}

/-! ## §1. Keys. -/

/-- There are neighbours in both directions for just the vertices, be it none. -/
structure Keyed (g : Digraph V E) : Prop where
  successors : ∀ v, g.successors.contains v = g.hasVertex v
  predecessors : ∀ v, g.predecessors.contains v = g.hasVertex v

theorem keyed_empty : (empty : Digraph V E).Keyed := ⟨fun _ => rfl, fun _ => rfl⟩

theorem Keyed.after (hg : g.Keyed) (change : Change V E) : (g.after change).Keyed := by
  unfold Digraph.after
  cases hchange : change.apply g with
  | error cause => exact hg
  | ok g' =>
    show g'.Keyed
    cases change with
    | vertex index v =>
      obtain ⟨-, rfl⟩ := insertVertex_eq_ok.mp hchange
      constructor <;> intro u
      · show (g.successors.insert index _).contains u = (g.vertices.insert index v).contains u
        rw [SortedMap.contains_insert, SortedMap.contains_insert, hg.successors]
        rfl
      · show (g.predecessors.insert index _).contains u = (g.vertices.insert index v).contains u
        rw [SortedMap.contains_insert, SortedMap.contains_insert, hg.predecessors]
        rfl
    | edge arc e =>
      obtain ⟨-, hhead, htail, rfl⟩ := insertEdge_eq_ok.mp hchange
      -- The ends of the edge had entries before.
      constructor <;> intro u
      · show (g.successors.insert arc.head _).contains u = g.hasVertex u
        rw [SortedMap.contains_insert, hg.successors]
        by_cases hu : u = arc.head <;> simp [hu, hhead]
      · show (g.predecessors.insert arc.tail _).contains u = g.hasVertex u
        rw [SortedMap.contains_insert, hg.predecessors]
        by_cases hu : u = arc.tail <;> simp [hu, htail]
    | replacement index v =>
      obtain ⟨hindex, rfl⟩ := setVertex_eq_ok.mp hchange
      have hsame : ∀ u, (g.vertices.insert index v).contains u = g.hasVertex u := by
        intro u
        rw [SortedMap.contains_insert]
        by_cases hu : u = index <;> simp [hu, ← hindex, hasVertex]
      exact ⟨fun u => (hg.successors u).trans (hsame u).symm,
        fun u => (hg.predecessors u).trans (hsame u).symm⟩

theorem Built.keyed (h : g.Built) : g.Keyed :=
  h.induct keyed_empty fun _ change hg => hg.after change

/-- The four maps of a graph agree: all vertices and nothing else have entries for their
neighbours, who are the neighbours by some edge, and edges have both their ends. -/
structure Aligned (g : Digraph V E) : Prop where
  successors_keys : g.successors.keys = g.vertices.keys
  predecessors_keys : g.predecessors.keys = g.vertices.keys
  mem_successors : ∀ h t, (∃ tails, g.successors.find? h = some tails ∧ t ∈ tails) ↔
    g.edges.contains ⟨h, t⟩ = true
  mem_predecessors : ∀ h t, (∃ heads, g.predecessors.find? t = some heads ∧ h ∈ heads) ↔
    g.edges.contains ⟨h, t⟩ = true
  ends : ∀ h t, g.edges.contains ⟨h, t⟩ = true → g.hasVertex h = true ∧ g.hasVertex t = true

theorem mem_getD_iff {sets : Option (SortedSet Nat)} :
    v ∈ sets.getD .empty ↔ ∃ set, sets = some set ∧ v ∈ set := by
  cases sets with
  | none => simp
  | some set => simp

theorem Built.aligned (h : g.Built) : g.Aligned where
  successors_keys := SortedMap.keys_eq_of_contains_eq h.keyed.successors
  predecessors_keys := SortedMap.keys_eq_of_contains_eq h.keyed.predecessors
  mem_successors _ _ := mem_getD_iff.symm.trans h.consistent.mem_successorsOf
  mem_predecessors _ _ := mem_getD_iff.symm.trans h.consistent.mem_predecessorsOf
  ends _ _ hedge := ⟨h.consistent.source hedge, h.consistent.target hedge⟩

/-! ## §2. Changes in place. -/

/-- Make a change map by map. -/
def Change.inPlace : Change V E → EStateM Error (Digraph V E) Unit
  | .vertex index v => do
    let g ← get
    if g.hasVertex index then throw .duplicateVertex
    else
      modify fun g => { g with successors := g.successors.insert index .empty }
      modify fun g => { g with predecessors := g.predecessors.insert index .empty }
      modify fun g => { g with vertices := g.vertices.insert index v }
  | .edge arc e => do
    let g ← get
    if g.edges.contains arc then throw .duplicateEdge
    else if !g.hasVertex arc.head then throw (.vertexNotFound arc.head)
    else if !g.hasVertex arc.tail then throw (.vertexNotFound arc.tail)
    else
      modify fun g => { g with edges := g.edges.insert arc e }
      modify fun g => { g with
        successors := g.successors.insert arc.head ((g.successorsOf arc.head).insert arc.tail) }
      modify fun g => { g with
        predecessors :=
          g.predecessors.insert arc.tail ((g.predecessorsOf arc.tail).insert arc.head) }
  | .replacement index v => do
    let g ← get
    if g.hasVertex index then modify fun g => { g with vertices := g.vertices.insert index v }
    else throw (.vertexNotFound index)

/-- Made map by map, a change that fails leaves the graph as it was, and one that does not fail
leads to the same graph. -/
theorem Change.inPlace_eq (change : Change V E) (g : Digraph V E) :
    change.inPlace g = match change.apply g with
      | .ok g' => .ok () g'
      | .error cause => .error cause g := by
  cases change with
  | vertex index v =>
    show (if g.hasVertex index then _ else _ : EStateM _ _ _) g = _
    simp only [apply, insertVertex]
    cases g.hasVertex index <;> rfl
  | edge arc e =>
    show (if g.edges.contains arc then _ else if !g.hasVertex arc.head then _
      else if !g.hasVertex arc.tail then _ else _ : EStateM _ _ _) g = _
    simp only [apply, insertEdge]
    cases g.edges.contains arc <;> cases g.hasVertex arc.head <;> cases g.hasVertex arc.tail <;> rfl
  | replacement index v =>
    show (if g.hasVertex index then _ else _ : EStateM _ _ _) g = _
    simp only [apply, setVertex]
    cases g.hasVertex index <;> rfl

/-! ## §3. Look-ups that may find nothing. -/

namespace Unchecked

/-- The search that looks up the neighbours of what it visits.  It gives nothing if they are not
there, or if it does not come to an end within `n` visits. -/
def absorb (next : SortedMap Nat (SortedSet Nat)) :
    Nat → List Nat → SortedSet Nat → Option (SortedSet Nat)
  | _, [], seen => some seen
  | 0, _ :: _, _ => none
  | n + 1, v :: stack, seen => do
    let neighbours ← next.find? v
    let fresh := neighbours.toList.filter fun w => !seen.contains w
    absorb next n (fresh ++ stack) (fresh.foldl .insert seen)

def reachable (g : Digraph V E) (root : Nat) : ExceptT Error Option (SortedSet Nat) :=
  if g.hasVertex root then absorb g.successors g.vertices.size [root] (.ofList [root])
  else throw (.vertexNotFound root)

/-- Apply the equation of a vertex, unless it holds already. -/
def update (g : Digraph V E) (root : Nat) (doms : DominatorMap) (v : Nat) :
    Option DominatorMap :=
  if v = root then some doms
  else do
    let heads ← g.predecessors.find? v
    let before ← doms.find? v
    let now := match heads.toList.filterMap doms.find? with
      | [] => .ofList [v]
      | d :: rest => (rest.foldl .inter d).insert v
    return if now = before then doms else doms.insert v now

/-- Sweep until nothing changes.  This gives nothing if something is not there, or if `n` sweeps
are not enough. -/
def settle (g : Digraph V E) (root : Nat) : Nat → DominatorMap → Option DominatorMap
  | 0, _ => none
  | n + 1, doms => do
    let swept ← doms.keys.foldlM (update g root) doms
    if swept = doms then return doms else settle g root n swept

def dominators (g : Digraph V E) (root : Nat) : ExceptT Error Option DominatorMap := do
  let vertices ← reachable g root
  let above := firstCandidates root vertices
  settle g root (above.size * above.size + 1) above

/-- The back edges out of a vertex with these dominators. -/
def backEdgesFrom (g : Digraph V E) (entry : Nat × SortedSet Nat) : Option (List Arc) := do
  let tails ← g.successors.find? entry.1
  return (tails.toList.filter entry.2.contains).map fun header => ⟨entry.1, header⟩

def backEdges (g : Digraph V E) (root : Nat) : ExceptT Error Option (List Arc) := do
  let doms ← dominators g root
  let arcs ← (doms.entries.mapM (backEdgesFrom g) : Option (List (List Arc)))
  return arcs.flatten

def loopNodes (g : Digraph V E) (found : SortedSet Nat) (arc : Arc) : Option (SortedSet Nat) :=
  let withHeader := found.insert arc.tail
  if withHeader.contains arc.head then some withHeader
  else absorb g.predecessors g.vertices.size [arc.head] (withHeader.insert arc.head)

/-- Add what a back edge closes to the loop of its header. -/
def close (g : Digraph V E) (loops : SortedMap Nat (SortedSet Nat)) (arc : Arc) :
    Option (SortedMap Nat (SortedSet Nat)) := do
  let nodes ← loopNodes g ((loops.find? arc.tail).getD .empty) arc
  return loops.insert arc.tail nodes

def naturalLoops (g : Digraph V E) (root : Nat) : ExceptT Error Option (List NaturalLoop) := do
  let arcs ← backEdges g root
  let loops ← (arcs.foldlM (close g) .empty : Option (SortedMap Nat (SortedSet Nat)))
  return loops.entries.map fun (header, nodes) => ⟨header, nodes⟩

def edgesOut (g : Digraph V E) (index : Nat) : ExceptT Error Option (List E) :=
  match g.successors.find? index with
  | some tails => (tails.toList.mapM fun tail => g.edges.find? ⟨index, tail⟩ : Option (List E))
  | none => throw (.vertexNotFound index)

/-! ## §4. Every look-up finds something. -/

variable {α β : Type}

/-- An attempt that only looks something up, and finds it, succeeds. -/
theorem lift_run {x : Option α} {a : α} (hx : x = some a) :
    (liftM x : ExceptT Error Option α).run = some (.ok a) := by
  rw [hx]
  rfl

/-- An attempt looks nothing up in vain if neither its first part does nor what follows it. -/
theorem bind_run {x : ExceptT Error Option α} {f : α → ExceptT Error Option β}
    {y : Except Error α} {h : α → Except Error β} (hx : x.run = some y)
    (hf : ∀ a, y = .ok a → (f a).run = some (h a)) : (x >>= f).run = some (y >>= h) := by
  obtain rfl : x = (some y : Option (Except Error α)) := hx
  cases y with
  | error cause => rfl
  | ok a => exact hf a rfl

/-- A loop runs through if its steps do while an invariant holds, which they keep. -/
theorem foldlM_eq_some {f : β → α → Option β} {step : β → α → β} {I : β → Prop} {l : List α}
    {b : β} (hb : I b) (hstep : ∀ b, ∀ a ∈ l, I b → f b a = some (step b a) ∧ I (step b a)) :
    l.foldlM f b = some (l.foldl step b) := by
  induction l generalizing b with
  | nil => rfl
  | cons a l ih =>
    obtain ⟨hf, hnext⟩ := hstep b a List.mem_cons_self hb
    rw [List.foldlM_cons, hf]
    exact ih hnext fun b a ha => hstep b a (List.mem_cons_of_mem _ ha)

theorem mapM_eq_some {f : α → Option β} {l : List α} (h : ∀ a ∈ l, (f a).isSome = true) :
    l.mapM f = some (l.filterMap f) := by
  induction l with
  | nil => rfl
  | cons a l ih =>
    obtain ⟨b, hb⟩ := Option.isSome_iff_exists.mp (h a List.mem_cons_self)
    rw [List.mapM_cons, hb, ih fun a ha => h a (List.mem_cons_of_mem _ ha),
      List.filterMap_cons_some hb]
    rfl

theorem find?_eq_getD {β : Type} {m : SortedMap Nat β} (h : m.contains v = true) (other : β) :
    m.find? v = some ((m.find? v).getD other) := by
  obtain ⟨b, hb⟩ := Option.isSome_iff_exists.mp h
  rw [hb]
  rfl

/-- What a search that does not ask takes to be the neighbours of a vertex. -/
def neighbours (next : SortedMap Nat (SortedSet Nat)) (v : Nat) : SortedSet Nat :=
  (next.find? v).getD .empty

/-- A search finds the neighbours of what it visits, and comes to an end, if it may visit all that
is on the stack and all that can still be seen. -/
theorem absorb_eq {next : SortedMap Nat (SortedSet Nat)} {range : Finset Nat}
    (hnext : ∀ v, ∀ w ∈ neighbours next v, next.contains w = true ∧ w ∈ range)
    {n : Nat} {stack : List Nat} {seen : SortedSet Nat}
    (hstack : ∀ v ∈ stack, next.contains v = true)
    (hn : stack.length + (range.filter fun w => w ∉ seen).card ≤ n) :
    absorb next n stack seen = some (Digraph.absorb (neighbours next) n stack seen) := by
  induction n generalizing stack seen with
  | zero =>
    obtain rfl : stack = [] := List.eq_nil_of_length_eq_zero (by omega)
    rfl
  | succ n ih =>
    cases stack with
    | nil => rfl
    | cons v stack =>
      rw [absorb, find?_eq_getD (hstack v List.mem_cons_self) .empty]
      show absorb next n (unseen (neighbours next) seen v ++ stack)
        ((unseen (neighbours next) seen v).foldl .insert seen) = _
      refine ih (fun w hw => ?_) ?_
      · obtain hw | hw := List.mem_append.mp hw
        · exact (hnext v w (mem_unseen.mp hw).1).1
        · exact hstack w (List.mem_cons_of_mem v hw)
      · -- What the visit puts on the stack was counted as unseen, and one vertex is off the stack.
        have hcard := card_unseen seen fun w hw => (hnext v w hw).2
        rw [List.length_append]
        rw [List.length_cons] at hn
        omega

/-- A search from one vertex that follows neighbours in one direction finds all it looks up. -/
theorem absorb_vertices {next : SortedMap Nat (SortedSet Nat)}
    (hkeys : ∀ v, next.contains v = g.hasVertex v)
    (hnext : ∀ v, ∀ w ∈ neighbours next v, g.hasVertex w = true) {seen : SortedSet Nat}
    (hv : g.hasVertex v = true) (hseen : v ∈ seen) : absorb next g.vertices.size [v] seen =
      some (Digraph.absorb (neighbours next) g.vertices.size [v] seen) := by
  refine absorb_eq (fun u w hw => ⟨(hkeys w).trans (hnext u w hw),
    mem_keys_vertices.mpr (hnext u w hw)⟩) (fun u hu => ?_) (card_unseen_vertices hv hseen)
  rw [List.mem_singleton.mp hu, hkeys, hv]

end Unchecked

theorem Consistent.hasVertex_of_reaches (hg : g.Consistent) (hroot : g.hasVertex root = true)
    (hv : Reaches g.Adj root v) : g.hasVertex v = true := by
  obtain ⟨l, p⟩ := hv
  exact p.forall_mem (P := fun u => g.hasVertex u = true) (fun _ _ hstep _ => hg.target hstep) hroot
    v p.target_mem

theorem Consistent.hasVertex_of_dominators (hg : g.Consistent)
    (hdoms : g.dominators root = .ok doms) (hv : doms.contains v = true) :
    g.hasVertex v = true := by
  cases hroot : g.hasVertex root with
  | false =>
    rw [dominators_eq_error hroot] at hdoms
    cases hdoms
  | true =>
    obtain ⟨-, _, -, -, hfound, hlists⟩ := dominators_eq hg hroot
    cases hfound.symm.trans hdoms
    exact hg.hasVertex_of_reaches hroot ((hlists.contains_iff v).mp hv)

namespace Unchecked

theorem reachable_run (hg : g.Consistent) (hk : g.Keyed) (root : Nat) :
    (reachable g root).run = some (g.reachable root) := by
  unfold reachable Digraph.reachable
  cases hroot : g.hasVertex root with
  | false => rfl
  | true =>
    exact lift_run (absorb_vertices hk.successors
      (fun u w hw => hg.target (hg.mem_successorsOf.mp hw)) hroot (by simp))

theorem update_eq (hv : g.predecessors.contains v = true) (hdoms : doms.contains v = true) :
    update g root doms v =
      some (if v = root then doms else doms.insert v (g.equation doms v)) := by
  unfold update
  by_cases hroot : v = root
  · rw [if_pos hroot, if_pos hroot]
  · rw [if_neg hroot, if_neg hroot, find?_eq_getD hv .empty, find?_eq_listed hdoms]
    show some (if g.equation doms v = listed doms v then doms else _) = _
    split
    -- To write what is there already changes nothing.
    · rename_i hsame
      refine congrArg some (SortedMap.ext_find? fun w => ?_)
      rw [SortedMap.find?_insert, hsame]
      split
      · rename_i hw
        rw [hw, find?_eq_listed hdoms]
      · rfl
    · rfl

theorem sweep_eq (hkeys : ∀ v, doms.contains v = true → g.predecessors.contains v = true) :
    doms.keys.foldlM (update g root) doms = some (g.sweep root doms) := by
  refine foldlM_eq_some (I := fun swept => ∀ v, doms.contains v = true → swept.contains v = true)
    (fun _ hv => hv) fun swept v hv hswept => ?_
  have hcontains := SortedMap.mem_keys.mp hv
  refine ⟨update_eq (hkeys v hcontains) (hswept v hcontains), fun w hw => ?_⟩
  split
  · exact hswept w hw
  · rw [SortedMap.contains_insert, hswept w hw, Bool.or_true]

/-- Sweeps find what they look up, and come to an end, if there may be more of them than there are
pairs that can still be taken away. -/
theorem settle_eq (hg : g.Consistent) (hk : g.Keyed) (hroot : g.hasVertex root = true)
    {vertices : Finset Nat} (hvertices : ∀ v, Reaches g.Adj root v → v ∈ vertices) {n : Nat}
    (h : Candidates g root doms) (hn : (pairs vertices doms).card < n) :
    settle g root n doms = some (g.settle root n doms) := by
  induction n generalizing doms with
  | zero => exact absurd hn (Nat.not_lt_zero _)
  | succ n ih =>
    have hkeys : ∀ v, doms.contains v = true → g.predecessors.contains v = true := fun v hv =>
      (hk.predecessors v).trans (hg.hasVertex_of_reaches hroot ((h.keys v).mp hv))
    rw [settle, sweep_eq hkeys, Digraph.settle]
    by_cases hsame : g.sweep root doms = doms
    · rw [if_pos hsame]
      exact if_pos hsame
    · -- A sweep that changes something takes a pair away.
      have hcard := Finset.card_lt_card (h.pairs_ssubset hg hvertices hsame)
      rw [if_neg hsame]
      exact (if_neg hsame).trans (ih (h.sweep hg).1 (by omega))

theorem dominators_run (hg : g.Consistent) (hk : g.Keyed) (root : Nat) :
    (dominators g root).run = some (g.dominators root) := by
  refine bind_run (reachable_run hg hk root) fun vertices hvertices => ?_
  cases hroot : g.hasVertex root with
  | false =>
    rw [Digraph.reachable, hroot] at hvertices
    cases hvertices
  | true =>
    obtain ⟨_, hreachable, -, hreached⟩ := reachable_eq hg hroot
    cases hreachable.symm.trans hvertices
    have hfirst := candidates_first hreached
    exact lift_run (settle_eq hg hk hroot hfirst.mem_keys hfirst (card_pairs_lt _))

theorem backEdgesFrom_eq {entry : Nat × SortedSet Nat}
    (h : g.successors.contains entry.1 = true) : backEdgesFrom g entry =
      some (((g.successorsOf entry.1).toList.filter entry.2.contains).map fun header =>
        ⟨entry.1, header⟩) := by
  rw [backEdgesFrom, find?_eq_getD h .empty]
  rfl

theorem backEdges_run (hg : g.Consistent) (hk : g.Keyed) (root : Nat) :
    (backEdges g root).run = some (g.backEdges root) := by
  refine bind_run (dominators_run hg hk root) fun doms hdoms => ?_
  have hfrom : ∀ entry ∈ doms.entries, backEdgesFrom g entry = _ := fun entry hentry =>
    backEdgesFrom_eq ((hk.successors entry.1).trans (hg.hasVertex_of_dominators hdoms
      (Option.isSome_iff_exists.mpr ⟨_, SortedMap.find?_eq_some_iff.mpr hentry⟩)))
  have hmap := (mapM_eq_some fun entry hentry => by rw [hfrom entry hentry]; rfl).trans
    (congrArg some ((List.filterMap_congr hfrom).trans (congrFun List.filterMap_eq_map _)))
  show (liftM (doms.entries.mapM (backEdgesFrom g)) >>= _ : ExceptT Error Option _).run = _
  rw [hmap]
  rfl

theorem loopNodes_eq (hg : g.Consistent) (hk : g.Keyed) {arc : Arc}
    (harc : g.hasVertex arc.head = true) (found : SortedSet Nat) :
    loopNodes g found arc = some (g.loopNodes found arc) := by
  unfold loopNodes Digraph.loopNodes
  dsimp only
  split
  · rfl
  · exact absorb_vertices hk.predecessors
      (fun u w hw => hg.source (hg.mem_predecessorsOf.mp hw)) harc (by simp)

theorem naturalLoops_run (hg : g.Consistent) (hk : g.Keyed) (root : Nat) :
    (naturalLoops g root).run = some (g.naturalLoops root) := by
  refine bind_run (backEdges_run hg hk root) fun arcs harcs => ?_
  have hsource : ∀ arc ∈ arcs, g.hasVertex arc.head = true := by
    cases hroot : g.hasVertex root with
    | false =>
      rw [Digraph.backEdges, dominators_eq_error hroot] at harcs
      cases harcs
    | true =>
      obtain ⟨_, hbackEdges, -, hback⟩ := backEdges_eq hg hroot
      cases hbackEdges.symm.trans harcs
      exact fun arc harc => hg.source ((hback arc).mp harc).step
  have hloops : arcs.foldlM (close g) .empty = some (g.loopsOf arcs) :=
    foldlM_eq_some (I := fun _ => True) trivial fun loops arc harc _ => by
      rw [close, loopNodes_eq hg hk (hsource arc harc)]
      exact ⟨rfl, trivial⟩
  show (liftM (arcs.foldlM (close g) .empty) >>= _ : ExceptT Error Option _).run = _
  rw [hloops]
  rfl

theorem edgesOut_run (hg : g.Consistent) (index : Nat) :
    (edgesOut g index).run = some (g.edgesOut index) := by
  unfold edgesOut Digraph.edgesOut
  cases htails : g.successors.find? index with
  | none => rfl
  | some tails =>
    refine lift_run (mapM_eq_some fun tail htail => ?_)
    exact hg.mem_successorsOf.mp (mem_getD_iff.mpr ⟨tails, htails, htail⟩)

end Unchecked

/-! ## §5. Edges out of a vertex. -/

/-- The edges out of a vertex with their places. -/
def entriesFrom (g : Digraph V E) (index : Nat) : List (Arc × E) :=
  g.edges.entries.filter fun entry => entry.1.head = index

theorem mem_entriesFrom {entry : Arc × E} : entry ∈ g.entriesFrom index ↔
    entry.1.head = index ∧ g.edges.find? entry.1 = some entry.2 := by
  rw [entriesFrom, List.mem_filter, SortedMap.find?_eq_some_iff, decide_eq_true_eq, and_comm]

theorem entriesFrom_increasing (g : Digraph V E) (index : Nat) :
    ((g.entriesFrom index).map fun entry => entry.1.tail).Pairwise (· < ·) := by
  refine List.pairwise_map.mpr ((g.edges.increasing.filter _).imp_of_mem fun {a b} ha hb hab => ?_)
  have hheads : a.1.head = b.1.head := by
    rw [(mem_entriesFrom.mp ha).1, (mem_entriesFrom.mp hb).1]
  obtain hlt | ⟨-, hlt⟩ := compare_eq_lt.mp hab
  · omega
  · exact hlt

/-- To look the edge to each successor up lists the edges out of a vertex. -/
theorem edgesOut_eq_ok (hg : g.Consistent) (hk : g.Keyed) (hindex : g.hasVertex index = true) :
    g.edgesOut index = .ok ((g.entriesFrom index).map Prod.snd) := by
  obtain ⟨tails, htails⟩ := Option.isSome_iff_exists.mp ((hk.successors index).trans hindex)
  have hmem : ∀ t, t ∈ tails ↔ g.edges.contains ⟨index, t⟩ = true := fun t => by
    have hsuccessors : g.successorsOf index = tails := by
      rw [successorsOf, htails]
      rfl
    exact hsuccessors ▸ hg.mem_successorsOf
  -- With their places, the edges that are found are entries in order, so it is enough that both
  -- lists have the same ones.
  have hentries : (tails.toList.filterMap fun t =>
      (g.edges.find? ⟨index, t⟩).map (Prod.mk (⟨index, t⟩ : Arc))) = g.entriesFrom index := by
    refine SortedMap.eq_of_increasing_of_mem_iff ?_ (g.edges.increasing.filter _) fun entry => ?_
    · refine tails.increasing.filterMap _ fun t t' ht entry hentry entry' hentry' => ?_
      obtain ⟨_, -, rfl⟩ := Option.map_eq_some_iff.mp hentry
      obtain ⟨_, -, rfl⟩ := Option.map_eq_some_iff.mp hentry'
      exact compare_eq_lt.mpr (.inr ⟨rfl, Nat.compare_eq_lt.mp ht⟩)
    · rw [List.mem_filterMap, mem_entriesFrom]
      obtain ⟨⟨head, tail⟩, e⟩ := entry
      constructor
      · rintro ⟨t, -, hentry⟩
        obtain ⟨_, he, hsame⟩ := Option.map_eq_some_iff.mp hentry
        cases hsame
        exact ⟨rfl, he⟩
      · rintro ⟨rfl, he⟩
        exact ⟨tail, (hmem tail).mpr (Option.isSome_iff_exists.mpr ⟨e, he⟩), by rw [he]; rfl⟩
  unfold edgesOut
  rw [htails, ← hentries, List.map_filterMap]
  simp

theorem edgesOut_eq_error (hk : g.Keyed) (hindex : g.hasVertex index = false) :
    g.edgesOut index = .error (.vertexNotFound index) := by
  have hnone : g.successors.find? index = none := by
    rw [← Option.not_isSome_iff_eq_none, Bool.not_eq_true]
    exact (hk.successors index).trans hindex
  rw [edgesOut, hnone]

/-- In a graph put together by changes, whether all of them succeeded or not,

* the maps for vertices, edges and neighbours agree;
* a further change ends alike if it is made map by map, and leaves the graph as it was if it fails;
* searches for what is reached, for dominators, back edges and loops come to an end within their
  bounds, and every vertex they look up is there;
* so is every edge to a successor, and these are the edges out of a vertex, by increasing tail. -/
theorem aligned_of_built (hg : g.Built) :
    g.Aligned ∧
    (∀ change cause, change.apply g = .error cause →
      change.inPlace g = .error cause g ∧ g.after change = g) ∧
    (∀ change g', change.apply g = .ok g' →
      change.inPlace g = .ok () g' ∧ g.after change = g') ∧
    (∀ root, (Unchecked.reachable g root).run = some (g.reachable root) ∧
      (Unchecked.dominators g root).run = some (g.dominators root) ∧
      (Unchecked.backEdges g root).run = some (g.backEdges root) ∧
      (Unchecked.naturalLoops g root).run = some (g.naturalLoops root)) ∧
    ∀ index, (Unchecked.edgesOut g index).run = some (g.edgesOut index) ∧
      (g.hasVertex index = false → g.edgesOut index = .error (.vertexNotFound index)) ∧
      (g.hasVertex index = true → ∃ out : List (Arc × E),
        g.edgesOut index = .ok (out.map Prod.snd) ∧
        (out.map fun entry => entry.1.tail).Pairwise (· < ·) ∧
        ∀ arc e, (arc, e) ∈ out ↔ arc.head = index ∧ g.edges.find? arc = some e) := by
  have hc := hg.consistent
  have hk := hg.keyed
  refine ⟨hg.aligned, fun change cause hchange => ?_, fun change g' hchange => ?_,
    fun root => ⟨Unchecked.reachable_run hc hk root, Unchecked.dominators_run hc hk root,
      Unchecked.backEdges_run hc hk root, Unchecked.naturalLoops_run hc hk root⟩,
    fun index => ⟨Unchecked.edgesOut_run hc index, edgesOut_eq_error hk, fun hindex =>
      ⟨g.entriesFrom index, edgesOut_eq_ok hc hk hindex, entriesFrom_increasing g index,
        fun arc e => mem_entriesFrom⟩⟩⟩
  · rw [Change.inPlace_eq, after, hchange]
    exact ⟨rfl, rfl⟩
  · rw [Change.inPlace_eq, after, hchange]
    exact ⟨rfl, rfl⟩

/-- Two ways between two vertices, a loop at a third one, and a vertex that nothing leads to.
Edges come out of order, and some changes fail. -/
def someRefused : List (Change Nat Nat) :=
  [.vertex 3 3, .vertex 1 1, .edge ⟨1, 2⟩ 0, .vertex 2 2, .vertex 4 4, .edge ⟨1, 3⟩ 13,
    .edge ⟨3, 3⟩ 33, .edge ⟨2, 1⟩ 21, .edge ⟨1, 2⟩ 12, .edge ⟨1, 2⟩ 0, .edge ⟨4, 2⟩ 42,
    .vertex 2 0, .replacement 2 5, .replacement 6 0]

set_option maxRecDepth 100000 in
/-- The edge that came too early was not kept in part, and the data of a vertex need not agree with
its index. -/
theorem aligned_of_built_someRefused :
    (ofChanges someRefused).vertices.keys = [1, 2, 3, 4] ∧
    (ofChanges someRefused).predecessors.keys = [1, 2, 3, 4] ∧
    (Change.edge ⟨4, 6⟩ 46).inPlace (ofChanges someRefused) =
      .error (.vertexNotFound 6) (ofChanges someRefused) ∧
    (Unchecked.naturalLoops (ofChanges someRefused) 1).run =
      some (.ok [⟨1, .ofList [1, 2, 4]⟩, ⟨3, .ofList [3]⟩]) ∧
    (Unchecked.edgesOut (ofChanges someRefused) 1).run = some (.ok [12, 13]) ∧
    (Unchecked.edgesOut (ofChanges someRefused) 6).run = some (.error (.vertexNotFound 6)) := by
  obtain ⟨haligned, hfailed, -, hsearches, hout⟩ := aligned_of_built ⟨someRefused, rfl⟩
  have hkeys : (ofChanges someRefused).vertices.keys = [1, 2, 3, 4] := by decide +kernel
  refine ⟨hkeys, haligned.predecessors_keys.trans hkeys,
    (hfailed (.edge ⟨4, 6⟩ 46) (.vertexNotFound 6) (by decide +kernel)).1, ?_, ?_, ?_⟩
  · rw [(hsearches 1).2.2.2]
    decide +kernel
  · rw [(hout 1).1]
    decide +kernel
  · rw [(hout 6).1, (hout 6).2.1 (by decide +kernel)]

end Digraph

end Interproc
