/-
  Interproc.Proofs.LoopTables
  ───────────────────────────
  The loops of a program are the natural loops of its procedures, where calls are
  stepped over.  They are found in one graph of all nodes, from the entry of one
  procedure after the other, and put into one table by header.  No step of that graph
  leads from one procedure to another, so

    * the graph can always be made (`Structured.intraprocedural_eq`);
    * each header is found from the entry of its own procedure only, and no loop
      overwrites another one (`Structured.procedureLoops_eq`).

  Main result: `Program.loopTable_iff_paths`.
-/
import Mathlib
import Interproc.Proofs.NaturalLoops
import Interproc.Proofs.Structure

namespace Interproc

variable {T : Type}

theorem Transition.isIntraprocedural_iff {t : Transition T} :
    t.isIntraprocedural = true ↔ t.kind = .internal ∨ ∃ b, t.kind = .summary b := by
  unfold isIntraprocedural
  cases t.kind <;> simp

/-! ## §1. Copies of graphs. -/

namespace Digraph

variable {g : Digraph Unit Unit}

/-- Vertices with different indices, none of which is there, can be inserted one by one. -/
theorem foldlM_insertVertex (hg : g.Consistent) (nodes : List Node)
    (hnew : ∀ n ∈ nodes, g.hasVertex n.index = false) (hnodup : (nodes.map Node.index).Nodup) :
    ∃ g', nodes.foldlM (fun g n => g.insertVertex n.index ()) g = .ok g' ∧ g'.Consistent ∧
      (∀ u, g'.hasVertex u = true ↔ u ∈ nodes.map Node.index ∨ g.hasVertex u = true) ∧
      ∀ u v, g'.Adj u v ↔ g.Adj u v := by
  induction nodes generalizing g with
  | nil => exact ⟨g, rfl, hg, by simp, fun _ _ => .rfl⟩
  | cons n rest ih =>
    obtain ⟨hn, hrest⟩ := List.forall_mem_cons.mp hnew
    obtain ⟨hfresh, hnodup⟩ := List.nodup_cons.mp hnodup
    have hstep : g.insertVertex n.index () = .ok (g.withVertex n.index ()) :=
      insertVertex_eq_ok.mpr ⟨hn, rfl⟩
    have hrest' : ∀ m ∈ rest, (g.withVertex n.index ()).hasVertex m.index = false := by
      intro m hm
      rw [Bool.eq_false_iff, Ne, hasVertex_withVertex, not_or, Bool.not_eq_true]
      exact ⟨fun heq => hfresh (heq ▸ List.mem_map_of_mem hm), hrest m hm⟩
    obtain ⟨g', hg', hconsistent, hvertices, hadj⟩ := ih (hg.withVertex hn ()) hrest' hnodup
    refine ⟨g', ?_, hconsistent, fun u => ?_, hadj⟩
    · rw [List.foldlM_cons, hstep]
      exact hg'
    · rw [hvertices, hasVertex_withVertex, List.map_cons, List.mem_cons, or_left_comm, or_assoc]

/-- Edges with different places, none of which is there, can be inserted one by one between vertices
that are. -/
theorem foldlM_insertEdge {ts : List (Transition T)} (hg : g.Consistent)
    (hends : ∀ t ∈ ts, g.hasVertex t.head = true ∧ g.hasVertex t.tail = true)
    (hnew : ∀ t ∈ ts, ¬g.Adj t.head t.tail) (hnodup : (ts.map Transition.arc).Nodup) :
    ∃ g', ts.foldlM (fun g t => g.insertEdge t.arc ()) g = .ok g' ∧ g'.Consistent ∧
      (∀ u, g'.hasVertex u = g.hasVertex u) ∧
      ∀ u v, g'.Adj u v ↔ (∃ t ∈ ts, t.head = u ∧ t.tail = v) ∨ g.Adj u v := by
  induction ts generalizing g with
  | nil => exact ⟨g, rfl, hg, fun _ => rfl, by simp⟩
  | cons t rest ih =>
    obtain ⟨⟨hhead, htail⟩, hends⟩ := List.forall_mem_cons.mp hends
    obtain ⟨ht, hnew⟩ := List.forall_mem_cons.mp hnew
    obtain ⟨hfresh, hnodup⟩ := List.nodup_cons.mp hnodup
    have hstep : g.insertEdge t.arc () = .ok (g.withEdge t.arc ()) :=
      insertEdge_eq_ok.mpr ⟨ht, hhead, htail, rfl⟩
    have hnew' : ∀ u ∈ rest, ¬(g.withEdge t.arc ()).Adj u.head u.tail := by
      intro u hu hadj
      obtain ⟨hhead, htail⟩ | hadj := adj_withEdge.mp hadj
      · have harc : u.arc = t.arc := Arc.mk.injEq .. ▸ ⟨hhead, htail⟩
        exact hfresh (harc ▸ List.mem_map_of_mem hu)
      · exact hnew u hu hadj
    obtain ⟨g', hg', hconsistent, hvertices, hadj⟩ :=
      ih (hg.withEdge hhead htail ()) hends hnew' hnodup
    refine ⟨g', ?_, hconsistent, hvertices, fun u v => ?_⟩
    · rw [List.foldlM_cons, hstep]
      exact hg'
    · rw [hadj, adj_withEdge, List.exists_mem_cons_iff, or_left_comm, or_assoc]
      exact or_congr_left (and_congr eq_comm eq_comm)

end Digraph

/-! ## §2. Steps inside procedures. -/

namespace Program

variable {p : Program T} {u v h t : Nat} {name : String} {x : Procedure}

/-- A transition inside a procedure, or over a call, leads from one node to another. -/
def StepsWithin (p : Program T) (u v : Nat) : Prop :=
  ∃ t, p.transition u v = .ok t ∧ (t.kind = .internal ∨ ∃ b, t.kind = .summary b)

theorem Structured.together (hp : p.Structured) (hstep : p.StepsWithin u v) : p.Together u v := by
  obtain ⟨t, ht, hkind⟩ := hstep
  obtain ⟨rfl, rfl, hfits⟩ := hp.fits u v t ht
  unfold Fits at hfits
  obtain hkind | ⟨b, hkind⟩ := hkind
  · rw [hkind] at hfits
    exact hfits
  · rw [hkind] at hfits
    cases b with
    | false => exact hfits
    | true => exact hfits.1

/-- Paths stay inside procedures. -/
theorem Structured.belongs_of_reaches (hp : p.Structured) (hu : p.Belongs u name)
    (hreaches : Reaches p.StepsWithin u v) : p.Belongs v name := by
  obtain ⟨l, q⟩ := hreaches
  refine q.forall_mem (P := (p.Belongs · name)) (fun u w hstep hu => ?_) hu v q.target_mem
  exact (hp.together hstep).belongs hu

theorem Structured.map_index_nodes (hp : p.Structured) :
    p.nodes.map Node.index = p.graph.vertices.keys := by
  unfold nodes SortedMap.values SortedMap.keys
  rw [List.map_map]
  refine List.map_congr_left fun entry hentry => ?_
  exact hp.index_eq entry.1 entry.2 (node_eq_ok.mpr (SortedMap.find?_eq_some_iff.mpr hentry))

theorem Structured.map_arc_allTransitions (hp : p.Structured) :
    p.allTransitions.map Transition.arc = p.graph.edges.keys := by
  unfold allTransitions SortedMap.values SortedMap.keys
  rw [List.map_map]
  refine List.map_congr_left fun entry hentry => ?_
  obtain ⟨hhead, htail, -⟩ := hp.fits entry.1.head entry.1.tail entry.2
    (transition_eq_ok.mpr (SortedMap.find?_eq_some_iff.mpr hentry))
  exact congrArg₂ Arc.mk hhead htail

/-- The transitions that are looked through for the steps are found where they say. -/
theorem Structured.stepsWithin_iff (hp : p.Structured) : p.StepsWithin u v ↔
    ∃ t ∈ p.allTransitions.filter Transition.isIntraprocedural, t.head = u ∧ t.tail = v := by
  simp only [List.mem_filter, allTransitions, SortedMap.mem_values,
    Transition.isIntraprocedural_iff]
  constructor
  · rintro ⟨t, ht, hkind⟩
    obtain ⟨hhead, htail, -⟩ := hp.fits u v t ht
    exact ⟨t, ⟨⟨_, transition_eq_ok.mp ht⟩, hkind⟩, hhead, htail⟩
  · rintro ⟨t, ⟨⟨⟨u', v'⟩, hfind⟩, hkind⟩, rfl, rfl⟩
    have ht := transition_eq_ok.mpr hfind
    obtain ⟨rfl, rfl, -⟩ := hp.fits u' v' t ht
    exact ⟨t, ht, hkind⟩

/-- The graph of the steps inside procedures can be made. -/
theorem Structured.intraprocedural_eq (hp : p.Structured) :
    ∃ g, p.intraprocedural = .ok g ∧ g.Consistent ∧
      (∀ n name, p.Belongs n name → g.hasVertex n = true) ∧ g.Adj = p.StepsWithin := by
  obtain ⟨g, hg, hconsistent, hvertices, hadj⟩ := Digraph.foldlM_insertVertex
    Digraph.consistent_empty p.nodes (fun _ _ => rfl)
    (hp.map_index_nodes ▸ p.graph.vertices.nodup_keys)
  have hnone : ∀ u v, ¬g.Adj u v := by
    intro u v
    rw [hadj]
    exact Bool.false_ne_true
  have hnode : ∀ n name, p.Belongs n name → g.hasVertex n = true := by
    rintro n name ⟨node, hnode, -⟩
    rw [hvertices, hp.map_index_nodes, SortedMap.mem_keys]
    exact .inl (Option.isSome_iff_exists.mpr ⟨node, node_eq_ok.mp hnode⟩)
  -- A step joins nodes of one procedure, so both of them are in the copy.
  have hends : ∀ t ∈ p.allTransitions.filter Transition.isIntraprocedural,
      g.hasVertex t.head = true ∧ g.hasVertex t.tail = true := by
    intro t ht
    obtain ⟨name, hhead, htail⟩ := hp.together (hp.stepsWithin_iff.mpr ⟨t, ht, rfl, rfl⟩)
    exact ⟨hnode _ _ hhead, hnode _ _ htail⟩
  obtain ⟨g', hg', hconsistent', hvertices', hadj'⟩ := Digraph.foldlM_insertEdge hconsistent hends
    (fun t _ => hnone t.head t.tail)
    ((List.filter_sublist.map _).nodup (hp.map_arc_allTransitions ▸ p.graph.edges.nodup_keys))
  refine ⟨g', except_bind_eq_ok.mpr ⟨g, hg, hg'⟩, hconsistent', fun n name hn => ?_, ?_⟩
  · rw [hvertices']
    exact hnode n name hn
  · funext u v
    rw [hadj', ← hp.stepsWithin_iff, or_iff_left (hnone u v)]

/-! ## §3. Loops of procedures. -/

/-- A step inside a procedure leads back to a node that lies on every path from the entry of the
procedure to where the step starts. -/
def BackStep (p : Program T) (t h : Nat) : Prop :=
  ∃ name x, p.Belongs h name ∧ p.procedure name = .ok x ∧ p.StepsWithin t h ∧
    Reaches p.StepsWithin x.entry t ∧ Dominates p.StepsWithin x.entry h t

theorem backStep_iff (hx : p.procedure name = .ok x) (hh : p.Belongs h name) :
    p.BackStep t h ↔ BackEdge p.StepsWithin x.entry t h := by
  constructor
  · rintro ⟨name', x', hh', hx', hstep, hreached, hdominates⟩
    obtain rfl := hh.unique hh'
    cases hx.symm.trans hx'
    exact ⟨hstep, hreached, hdominates⟩
  · rintro ⟨hstep, hreached, hdominates⟩
    exact ⟨name, x, hh, hx, hstep, hreached, hdominates⟩

/-- The loops of a program, each with the name of its procedure. -/
structure ListsLoops (p : Program T) (loops : List (String × NaturalLoop)) : Prop where
  belongs : ∀ entry ∈ loops, p.Belongs entry.2.header entry.1
  /-- No two loops have one header. -/
  distinct : (loops.map fun entry => entry.2.header).Nodup
  header_iff : ∀ h, (∃ entry ∈ loops, entry.2.header = h) ↔ ∃ t, p.BackStep t h
  mem_nodes_iff : ∀ entry ∈ loops, ∀ v, v ∈ entry.2.nodes ↔ v = entry.2.header ∨
    ∃ t, p.BackStep t entry.2.header ∧ Bypasses p.StepsWithin entry.2.header v t

/-- All loops, where `found` has those of each procedure. -/
def namedLoops (p : Program T) (found : Procedure → List NaturalLoop) :
    List (String × NaturalLoop) :=
  (p.procedures.values.map fun x => (found x).map fun l => (x.name, l)).flatten

section

variable {found : Procedure → List NaturalLoop}

theorem mem_namedLoops {entry : String × NaturalLoop} : entry ∈ p.namedLoops found ↔
    ∃ x ∈ p.procedures.values, ∃ l ∈ found x, (x.name, l) = entry := by
  simp [namedLoops, List.mem_flatten]

theorem Structured.procedure_eq (hp : p.Structured) (hx : x ∈ p.procedures.values) :
    p.procedure x.name = .ok x := by
  obtain ⟨name, hfind⟩ := SortedMap.mem_values.mp hx
  have hx := procedure_eq_ok.mpr hfind
  rw [(hp.ends name x hx).1]
  exact hx

variable (hp : p.Structured)
  (hfound : ∀ x ∈ p.procedures.values, Digraph.ListsLoops p.StepsWithin x.entry (found x))

include hp hfound

/-- The headers that are found from the entry of a procedure belong to it. -/
theorem Structured.belongs_header (hx : x ∈ p.procedures.values) {l : NaturalLoop}
    (hl : l ∈ found x) : p.Belongs l.header x.name := by
  obtain ⟨t, hback⟩ := ((hfound x hx).header_iff l.header).mp ⟨l, hl, rfl⟩
  have hentry := (hp.ends x.name x (hp.procedure_eq hx)).2.2.1
  exact hp.belongs_of_reaches hentry (hback.reached.concat hback.step)

/-- The headers from one procedure differ, as they increase, and those from two, as no node belongs
to both. -/
theorem Structured.nodup_headers :
    ((p.namedLoops found).map fun entry => entry.2.header).Nodup := by
  have hnames : p.procedures.values.Pairwise fun x y => x.name ≠ y.name := by
    refine List.pairwise_map.mpr ((List.pairwise_map.mp p.procedures.nodup_keys).imp_of_mem ?_)
    intro a b ha hb hab
    have hname : ∀ e ∈ p.procedures.entries, e.2.name = e.1 := fun e he =>
      (hp.ends _ _ (procedure_eq_ok.mpr (SortedMap.find?_eq_some_iff.mpr he))).1
    rw [hname a ha, hname b hb]
    exact hab
  refine List.pairwise_map.mpr (List.pairwise_flatten.mpr ⟨fun loops hloops => ?_, ?_⟩)
  · obtain ⟨x, hx, rfl⟩ := List.mem_map.mp hloops
    refine List.pairwise_map.mpr ?_
    exact (List.pairwise_map.mp (hfound x hx).increasing).imp Nat.ne_of_lt
  · refine List.pairwise_map.mpr (hnames.imp_of_mem fun {x y} hx hy hxy a ha b hb heq => ?_)
    obtain ⟨l, hl, rfl⟩ := List.mem_map.mp ha
    obtain ⟨m, hm, rfl⟩ := List.mem_map.mp hb
    exact hxy ((hp.belongs_header hfound hx hl).unique (heq ▸ hp.belongs_header hfound hy hm))

theorem Structured.listsLoops : p.ListsLoops (p.namedLoops found) := by
  refine ⟨fun entry hentry => ?_, hp.nodup_headers hfound, fun h => ?_, fun entry hentry v => ?_⟩
  · obtain ⟨x, hx, l, hl, rfl⟩ := mem_namedLoops.mp hentry
    exact hp.belongs_header hfound hx hl
  · constructor
    · rintro ⟨entry, hentry, rfl⟩
      obtain ⟨x, hx, l, hl, rfl⟩ := mem_namedLoops.mp hentry
      obtain ⟨t, hback⟩ := ((hfound x hx).header_iff l.header).mp ⟨l, hl, rfl⟩
      exact ⟨t, (backStep_iff (hp.procedure_eq hx) (hp.belongs_header hfound hx hl)).mpr hback⟩
    · rintro ⟨t, name, x, hh, hx, hback⟩
      have hvalue : x ∈ p.procedures.values :=
        SortedMap.mem_values.mpr ⟨name, procedure_eq_ok.mp hx⟩
      obtain ⟨l, hl, rfl⟩ := ((hfound x hvalue).header_iff h).mpr
        ⟨t, hback.1, hback.2.1, hback.2.2⟩
      exact ⟨(x.name, l), mem_namedLoops.mpr ⟨x, hvalue, l, hl, rfl⟩, rfl⟩
  · obtain ⟨x, hx, l, hl, rfl⟩ := mem_namedLoops.mp hentry
    rw [(hfound x hx).mem_nodes_iff l hl]
    refine or_congr_right (exists_congr fun t => and_congr_left fun _ => ?_)
    exact (backStep_iff (hp.procedure_eq hx) (hp.belongs_header hfound hx hl)).symm

end

theorem mapM_eq_ok {α β : Type} {f : α → Except Error β} {c : α → β} {l : List α}
    (hf : ∀ a ∈ l, f a = .ok (c a)) : l.mapM f = .ok (l.map c) := by
  induction l with
  | nil => rfl
  | cons a rest ih =>
    obtain ⟨ha, hrest⟩ := List.forall_mem_cons.mp hf
    rw [List.mapM_cons, ha, ih hrest]
    rfl

theorem Structured.procedureLoops_eq (hp : p.Structured) :
    ∃ loops, p.procedureLoops = .ok loops ∧ p.ListsLoops loops := by
  obtain ⟨g, hg, hconsistent, hvertices, hadj⟩ := hp.intraprocedural_eq
  have hloops : ∀ x ∈ p.procedures.values, ∃ found, g.naturalLoops x.entry = .ok found ∧
      Digraph.ListsLoops p.StepsWithin x.entry found := by
    intro x hx
    have hentry := (hp.ends x.name x (hp.procedure_eq hx)).2.2.1
    rw [← hadj]
    exact Digraph.naturalLoops_eq hconsistent (hvertices _ _ hentry)
  choose! found hfound hlists using hloops
  refine ⟨p.namedLoops found, ?_, hp.listsLoops hlists⟩
  refine except_bind_eq_ok.mpr ⟨g, hg, except_bind_eq_ok.mpr ⟨_, mapM_eq_ok fun x hx => ?_, rfl⟩⟩
  rw [hfound x hx]
  rfl

/-! ## §4. Tables of loops. -/

/-- A table of loops with different headers has each of them. -/
theorem find?_ofLoops {loops : List NaturalLoop} {l : NaturalLoop}
    (hdistinct : (loops.map NaturalLoop.header).Nodup) :
    (LoopTable.ofLoops loops).loops.find? h = some l ↔ l.header = h ∧ l ∈ loops := by
  unfold LoopTable.ofLoops
  dsimp only
  induction loops using List.reverseRecOn with
  | nil => simp
  | append_singleton loops last ih =>
    rw [List.map_append, List.nodup_append] at hdistinct
    obtain ⟨hdistinct, -, hlast⟩ := hdistinct
    rw [List.foldl_append, List.foldl_cons, List.foldl_nil, SortedMap.find?_insert,
      List.mem_append, List.mem_singleton]
    split
    · rename_i hh
      constructor
      · intro hl
        obtain rfl := Option.some.inj hl
        exact ⟨hh.symm, .inr rfl⟩
      · rintro ⟨hheader, hl | rfl⟩
        -- No loop before the last one has its header, so none is overwritten.
        · exact absurd (hheader.trans hh) (hlast _ (List.mem_map_of_mem hl) _ (by simp))
        · rfl
    · rename_i hh
      rw [ih hdistinct]
      refine and_congr_right fun hheader => (or_iff_left ?_).symm
      rintro rfl
      exact hh hheader.symm

namespace ListsLoops

variable {loops : List (String × NaturalLoop)} (hloops : p.ListsLoops loops)

include hloops

theorem find?_eq {l : NaturalLoop} :
    (LoopTable.ofLoops (loops.map Prod.snd)).loops.find? h = some l ↔
      l.header = h ∧ ∃ name, (name, l) ∈ loops := by
  have hdistinct : ((loops.map Prod.snd).map NaturalLoop.header).Nodup := by
    rw [List.map_map]
    exact hloops.distinct
  rw [find?_ofLoops hdistinct, List.mem_map]
  simp

theorem isHead_iff :
    (LoopTable.ofLoops (loops.map Prod.snd)).isHead h = true ↔ ∃ t, p.BackStep t h := by
  rw [← hloops.header_iff, LoopTable.isHead, SortedMap.contains, Option.isSome_iff_exists]
  constructor
  · rintro ⟨l, hl⟩
    obtain ⟨hheader, name, hl⟩ := hloops.find?_eq.mp hl
    exact ⟨(name, l), hl, hheader⟩
  · rintro ⟨⟨name, l⟩, hl, hheader⟩
    exact ⟨l, hloops.find?_eq.mpr ⟨hheader, name, hl⟩⟩

theorem isEntered_iff {a : Transition T} :
    (LoopTable.ofLoops (loops.map Prod.snd)).isEntered a = true ↔
      a.isIntraprocedural = true ∧ (∃ t, p.BackStep t a.head) ∧
        (a.tail = a.head ∨ ∃ t, p.BackStep t a.head ∧ Bypasses p.StepsWithin a.head a.tail t) := by
  rw [LoopTable.isEntered, Bool.and_eq_true, ← hloops.header_iff, Option.any_eq_true]
  refine and_congr_right fun _ => ?_
  constructor
  · rintro ⟨l, hl, htail⟩
    obtain ⟨hheader, name, hl⟩ := hloops.find?_eq.mp hl
    refine ⟨⟨(name, l), hl, hheader⟩, ?_⟩
    rw [← hheader]
    exact (hloops.mem_nodes_iff _ hl a.tail).mp (SortedSet.contains_iff.mp htail)
  · rintro ⟨⟨⟨name, l⟩, hl, hheader⟩, htail⟩
    refine ⟨l, hloops.find?_eq.mpr ⟨hheader, name, hl⟩, ?_⟩
    rw [← hheader] at htail
    exact SortedSet.contains_iff.mpr ((hloops.mem_nodes_iff _ hl a.tail).mpr htail)

end ListsLoops

/-- The loops of any program that was put together can be found, each in the procedure of its
header, and the table holds all of them.  The heads are the nodes that a back step leads to, and a loop is
entered by the steps from its head to itself or to a node from where a path that avoids the head
leads to the source of one of its back steps. -/
theorem loopTable_iff_paths (hp : p.Built) : ∃ loops table, p.procedureLoops = .ok loops ∧
    p.loopTable = .ok table ∧
    (∀ entry ∈ loops, p.Belongs entry.2.header entry.1) ∧
    (loops.map fun entry => entry.2.header).Nodup ∧
    (∀ h l, table.loops.find? h = some l ↔ l.header = h ∧ ∃ name, (name, l) ∈ loops) ∧
    (∀ h, table.isHead h = true ↔ ∃ t, p.BackStep t h) ∧
    ∀ a : Transition T, table.isEntered a = true ↔
      (a.kind = .internal ∨ ∃ b, a.kind = .summary b) ∧ table.isHead a.head = true ∧
        (a.tail = a.head ∨ ∃ t, p.BackStep t a.head ∧
          ∃ visited, Path p.StepsWithin a.tail visited t ∧ a.head ∉ visited) := by
  obtain ⟨additions, rfl⟩ := hp
  obtain ⟨loops, hprocedureLoops, hloops⟩ := (structured_ofAdditions additions).procedureLoops_eq
  refine ⟨loops, _, hprocedureLoops, except_bind_eq_ok.mpr ⟨loops, hprocedureLoops, rfl⟩,
    hloops.belongs, hloops.distinct, fun h l => hloops.find?_eq, fun h => hloops.isHead_iff,
    fun a => ?_⟩
  rw [hloops.isEntered_iff, hloops.isHead_iff, Transition.isIntraprocedural_iff]
  exact .rfl

/-- A loop that steps over a call, and a procedure with a step from a node to itself.  The procedure
calls itself to be back at its entry, but this call is refused its summary, as it is already a
transition between the same nodes.  Two additions that lead to another procedure are refused too. -/
def steppingOver : Program Nat := .ofAdditions
  [.procedure "main", .procedure "f", .node "main", .node "main", .node "f", .internal 0 4 0,
    .call 4 5 "f" 1, .internal 5 4 2, .internal 4 1 3, .internal 5 6 4, .internal 2 6 5,
    .call 6 2 "f" 6, .externalCall 6 6 7, .internal 6 3 8, .call 5 6 "f" 9]

set_option maxRecDepth 100000 in
/-- Both procedures have a loop.  The call back to the entry of the second makes none, and the exit
of the first is outside its loop. -/
theorem loopTable_iff_paths_steppingOver : steppingOver.transition 6 2 = .ok ⟨6, 2, .call, 6⟩ ∧
    (∃ t, steppingOver.BackStep t 4) ∧ (∃ t, steppingOver.BackStep t 6) ∧
    (¬∃ t, steppingOver.BackStep t 2) ∧
    (∃ t, steppingOver.BackStep t 4 ∧
      ∃ visited, Path steppingOver.StepsWithin 5 visited t ∧ 4 ∉ visited) ∧
    ¬∃ t, steppingOver.BackStep t 4 ∧
      ∃ visited, Path steppingOver.StepsWithin 1 visited t ∧ 4 ∉ visited := by
  obtain ⟨loops, table, -, htable, -, -, -, hhead, hentered⟩ :=
    loopTable_iff_paths (p := steppingOver) ⟨_, rfl⟩
  have hfound : (steppingOver.loopTable.toOption.any fun table =>
      table.isHead 4 && table.isHead 6 && !table.isHead 2 &&
        table.isEntered (⟨4, 5, .summary true, 1⟩ : Transition Nat) &&
        !table.isEntered (⟨4, 1, .internal, 3⟩ : Transition Nat)) = true := by
    decide +kernel
  rw [htable] at hfound
  simp only [Except.toOption, Option.any_some, Bool.and_eq_true, Bool.not_eq_true'] at hfound
  obtain ⟨⟨⟨⟨hfour, hsix⟩, htwo⟩, hover⟩, hexit⟩ := hfound
  refine ⟨by decide +kernel, (hhead 4).mp hfour, (hhead 6).mp hsix, ?_, ?_, ?_⟩
  · rw [← hhead, htwo]
    exact Bool.false_ne_true
  · obtain ⟨-, -, hfive | hpath⟩ := (hentered _).mp hover
    · cases hfive
    · exact hpath
  · intro hpath
    have hentered := (hentered ⟨4, 1, .internal, 3⟩).mpr ⟨.inl rfl, hfour, .inr hpath⟩
    exact Bool.false_ne_true (hexit.symm.trans hentered)

end Program

end Interproc
