import CoFlo.Ports.LinkStatements
import CoFlo.Ports.TranslationUnit

/-!
# All links or none

A `ResolveLinks` that cannot resolve all links should leave the graph alone and
return `NULL`.  The overrides look all their labels up before they add an edge,
except the one of `SwitchUnlinked`, which adds an edge for each case it finds a
label for (`resolveLinks_allOrNothing_iff`).
-/

namespace CoFlo.Ports

/-- The labels `ResolveLinks` looks up, one for each way out of the statement. -/
def Statement.lookedUpLabels : Statement → List String
  | .gotoUnlinked linkTargetName => [linkTargetName]
  | .returnUnlinked _ => ["EXIT"]
  | .ifUnlinked _ ifTrue ifFalse => [ifTrue, ifFalse]
  | .caseUnlinked linkTargetName => [linkTargetName]
  | .switchUnlinked caseList => caseList
  | _ => []

namespace Heap

variable (h : Heap) (cfg : GraphPtr) (thisVertex : VertexPtr)
  (labelMap : LabelMap)

/-- The edges `new` hands out next. -/
def nextEdges (n : Nat) : Finset EdgePtr :=
  (Finset.range n).image (h.nextEdge + ·)

/-- `k` is `h` with a new out-edge of `thisVertex` to each of the vertices `vs`.
The replacement is the statement object that was allocated last. -/
structure LinkedTo (vs : List VertexPtr) (replacement : VertexPtr) (k : Heap) :
    Prop where
  replacement_eq : replacement = h.nextVertex
  nextVertex : k.nextVertex = h.nextVertex + 1
  nextEdge : k.nextEdge = h.nextEdge + vs.length
  edge : ∀ i (hi : i < vs.length), ∃ edgeType,
    k.edge (h.nextEdge + i) = ⟨thisVertex, vs.get ⟨i, hi⟩, edgeType, false⟩
  edge_of_notMem : ∀ e, e ∉ h.nextEdges vs.length → k.edge e = h.edge e
  vertex : ∀ v, v ≠ replacement → k.vertex v =
    { h.vertex v with
      outEdges :=
        if v = thisVertex then (h.vertex v).outEdges ∪ h.nextEdges vs.length
        else (h.vertex v).outEdges
      inEdges := (h.vertex v).inEdges ∪
        (h.nextEdges vs.length).filter fun e => (k.edge e).target = v }
  graph : ∀ i, k.graph i =
    { h.graph i with
      edges :=
        if i = cfg then (h.graph i).edges ∪ h.nextEdges vs.length
        else (h.graph i).edges }
  function : k.function = h.function

/-- `ResolveLinks` either returns `NULL` and has done nothing, or has added one
edge for every label, to the vertex the label map gives for it. -/
def AllOrNothing : Prop :=
  match h.resolveLinks cfg thisVertex labelMap with
  | (none, k) => k = h
  | (some replacement, k) =>
      ∃ vs, (h.vertex thisVertex).statement.lookedUpLabels.map labelMap =
        vs.map some ∧ h.LinkedTo cfg thisVertex vs replacement k

variable {h cfg thisVertex labelMap}

theorem mem_nextEdges {n : Nat} {e : EdgePtr} :
    e ∈ h.nextEdges n ↔ h.nextEdge ≤ e ∧ e < h.nextEdge + n := by
  unfold nextEdges
  simp only [Finset.mem_image, Finset.mem_range]
  constructor
  · rintro ⟨i, hi, rfl⟩
    exact ⟨Nat.le_add_right _ _, Nat.add_lt_add_left hi _⟩
  · rintro ⟨hle, hlt⟩
    exact ⟨e - h.nextEdge, Nat.sub_lt_left_of_lt_add hle hlt,
      Nat.add_sub_cancel' hle⟩

/-- An interval is its first number and the others. -/
theorem mem_interval_succ_iff (a n e : Nat) :
    a ≤ e ∧ e < a + (n + 1) ↔ e = a ∨ a + 1 ≤ e ∧ e < a + 1 + n := by
  omega

section addOutArcs

variable (h cfg thisVertex)

/-- The edge that is handed out first, and the others. -/
theorem nextEdges_succ (arc : EdgeType × VertexPtr) (n : Nat) :
    h.nextEdges (n + 1) = insert h.nextEdge
      ((h.addNewEdge cfg thisVertex arc.2 arc.1).nextEdges n) := by
  ext e
  rw [Finset.mem_insert, mem_nextEdges, mem_nextEdges, addNewEdge_nextEdge]
  exact mem_interval_succ_iff _ _ _

theorem nextEdge_notMem_nextEdges (arc : EdgeType × VertexPtr) (n : Nat) :
    h.nextEdge ∉ (h.addNewEdge cfg thisVertex arc.2 arc.1).nextEdges n := by
  rw [mem_nextEdges, addNewEdge_nextEdge]
  exact fun hmem => Nat.not_succ_le_self _ hmem.1

@[simp] theorem addOutArcs_nextEdge (arcs : List (EdgeType × VertexPtr)) :
    (h.addOutArcs cfg thisVertex arcs).nextEdge = h.nextEdge + arcs.length := by
  induction arcs generalizing h with
  | nil => rfl
  | cons arc arcs ih =>
      rw [addOutArcs_cons, ih, addNewEdge_nextEdge, List.length_cons,
        Nat.add_assoc, Nat.add_comm 1]

theorem addOutArcs_edge_of_notMem (arcs : List (EdgeType × VertexPtr))
    {e : EdgePtr} (he : e ∉ h.nextEdges arcs.length) :
    (h.addOutArcs cfg thisVertex arcs).edge e = h.edge e := by
  induction arcs generalizing h with
  | nil => rfl
  | cons arc arcs ih =>
      rw [List.length_cons, nextEdges_succ h cfg thisVertex arc,
        Finset.mem_insert, not_or] at he
      rw [addOutArcs_cons, ih _ he.2, addNewEdge_edge, if_neg he.1]

theorem addOutArcs_edge (arcs : List (EdgeType × VertexPtr)) {i : Nat}
    (hi : i < arcs.length) :
    (h.addOutArcs cfg thisVertex arcs).edge (h.nextEdge + i) =
      ⟨thisVertex, (arcs.get ⟨i, hi⟩).2, (arcs.get ⟨i, hi⟩).1, false⟩ := by
  induction arcs generalizing h i with
  | nil => exact absurd hi (Nat.not_lt_zero _)
  | cons arc arcs ih =>
      rw [addOutArcs_cons]
      cases i with
      | zero =>
          rw [Nat.add_zero, addOutArcs_edge_of_notMem _ _ _ _
            (nextEdge_notMem_nextEdges h cfg thisVertex arc _), addNewEdge_edge,
            if_pos rfl]
          rfl
      | succ i =>
          have hih := ih (h.addNewEdge cfg thisVertex arc.2 arc.1)
            (Nat.lt_of_succ_lt_succ hi)
          rw [addNewEdge_nextEdge] at hih
          have hnext : h.nextEdge + (i + 1) = h.nextEdge + 1 + i :=
            Nat.add_right_comm h.nextEdge i 1
          rw [hnext, hih]
          rfl

theorem addOutArcs_graph (arcs : List (EdgeType × VertexPtr)) (k : GraphPtr) :
    (h.addOutArcs cfg thisVertex arcs).graph k =
      { h.graph k with
        edges :=
          if k = cfg then (h.graph k).edges ∪ h.nextEdges arcs.length
          else (h.graph k).edges } := by
  induction arcs generalizing h with
  | nil => simp [nextEdges]
  | cons arc arcs ih =>
      rw [addOutArcs_cons, ih, addNewEdge_graph, List.length_cons,
        nextEdges_succ h cfg thisVertex arc]
      split_ifs
      · rw [Finset.insert_union, Finset.union_insert]
      · rfl

theorem addOutArcs_vertex (arcs : List (EdgeType × VertexPtr)) (v : VertexPtr) :
    (h.addOutArcs cfg thisVertex arcs).vertex v =
      { h.vertex v with
        outEdges :=
          if v = thisVertex then (h.vertex v).outEdges ∪ h.nextEdges arcs.length
          else (h.vertex v).outEdges
        inEdges := (h.vertex v).inEdges ∪ (h.nextEdges arcs.length).filter
          fun e => ((h.addOutArcs cfg thisVertex arcs).edge e).target = v } := by
  induction arcs generalizing h with
  | nil =>
      rw [List.length_nil, nextEdges, Finset.range_zero, Finset.image_empty,
        Finset.filter_empty, Finset.union_empty, Finset.union_empty, ite_self]
      rfl
  | cons arc arcs ih =>
      have hfirst : ((h.addNewEdge cfg thisVertex arc.2 arc.1).addOutArcs cfg
          thisVertex arcs).edge h.nextEdge = ⟨thisVertex, arc.2, arc.1, false⟩ := by
        rw [addOutArcs_edge_of_notMem _ _ _ _
          (nextEdge_notMem_nextEdges h cfg thisVertex arc _), addNewEdge_edge,
          if_pos rfl]
      rw [addOutArcs_cons, ih, addNewEdge_vertex, List.length_cons,
        nextEdges_succ h cfg thisVertex arc, Finset.filter_insert, hfirst]
      dsimp only
      congr 1
      · split_ifs
        · rw [Finset.insert_union, Finset.union_insert]
        · rfl
      · by_cases hv : v = arc.2
        · rw [if_pos hv, if_pos hv.symm, Finset.insert_union, Finset.union_insert]
        · rw [if_neg hv, if_neg fun h => hv h.symm]

end addOutArcs

/-- Adding the out-edges and making the replacement. -/
theorem linkedTo_newLinked (arcs : List (EdgeType × VertexPtr))
    (new : Statement) :
    h.LinkedTo cfg thisVertex (arcs.map Prod.snd) h.nextVertex
      ((h.addOutArcs cfg thisVertex arcs).newLinked thisVertex new).2 where
  replacement_eq := rfl
  nextVertex := congrArg (· + 1) (addOutArcs_nextVertex cfg thisVertex h arcs)
  nextEdge := by
    rw [List.length_map]
    exact addOutArcs_nextEdge h cfg thisVertex arcs
  edge i hi := by
    rw [List.length_map] at hi
    refine ⟨(arcs.get ⟨i, hi⟩).1, ?_⟩
    rw [List.get_eq_getElem, List.getElem_map]
    exact addOutArcs_edge h cfg thisVertex arcs hi
  edge_of_notMem e he := by
    rw [List.length_map] at he
    exact addOutArcs_edge_of_notMem h cfg thisVertex arcs he
  vertex v hv := by
    rw [List.length_map]
    refine Eq.trans ?_ (addOutArcs_vertex h cfg thisVertex arcs v)
    refine newVertex_vertex_of_ne _ _ _ ?_
    rw [addOutArcs_nextVertex]
    exact hv
  graph k := by
    rw [List.length_map]
    exact addOutArcs_graph h cfg thisVertex arcs k
  function := addOutArcs_function cfg thisVertex h arcs

/-- The vertices of the link arcs are those of the labels, when all labels of a
replaced statement are known. -/
theorem lookedUpLabels_map {st new : Statement}
    (hnew : linkedStatement labelMap st = some new)
    (hcases : ∀ caseList, st = .switchUnlinked caseList →
      ∀ name ∈ caseList, (labelMap name).isSome = true) :
    st.lookedUpLabels.map labelMap =
      ((linkArcs labelMap st).map Prod.snd).map some := by
  cases st with
  | gotoUnlinked linkTargetName =>
      cases hname : labelMap linkTargetName <;>
        simp_all [linkedStatement, linkArcs, caseArcs, Statement.lookedUpLabels]
  | returnUnlinked returnVarName =>
      cases hname : labelMap "EXIT" <;>
        simp_all [linkedStatement, linkArcs, caseArcs, Statement.lookedUpLabels]
  | ifUnlinked condition ifTrue ifFalse =>
      cases htrue : labelMap ifTrue <;> cases hfalse : labelMap ifFalse <;>
        simp_all [linkedStatement, linkArcs, Statement.lookedUpLabels]
  | switchUnlinked caseList =>
      have hknown := hcases caseList rfl
      clear hnew hcases
      simp only [Statement.lookedUpLabels, linkArcs, caseArcs, List.map_map]
      induction caseList with
      | nil => rfl
      | cons name caseList ih =>
          obtain ⟨v, hv⟩ := Option.isSome_iff_exists.mp
            (hknown name List.mem_cons_self)
          rw [List.map_cons, List.filterMap_cons_some hv, List.map_cons, hv,
            ih fun name hname => hknown name (List.mem_cons_of_mem _ hname)]
          rfl
  | _ => simp [linkedStatement] at hnew

/-- A switch that is linked to all of its labels or to none knows all of them
or none. -/
theorem AllOrNothing.known {h : Heap} {cfg : GraphPtr} {thisVertex : VertexPtr}
    {labelMap : LabelMap} (hall : h.AllOrNothing cfg thisVertex labelMap)
    {caseList : List String}
    (hst : (h.vertex thisVertex).statement = .switchUnlinked caseList) :
    (∀ name ∈ caseList, (labelMap name).isSome = true) ∨
      ∀ name ∈ caseList, labelMap name = none := by
  unfold AllOrNothing at hall
  rw [resolveLinks_eq, hst] at hall
  dsimp only at hall
  cases hlinked : linkedStatement labelMap (.switchUnlinked caseList) with
  | none => exact .inr (by simpa [linkedStatement] using hlinked)
  | some new =>
      rw [hlinked] at hall
      obtain ⟨vs, hvs, _⟩ := hall
      refine .inl fun name hname => ?_
      have hmem : labelMap name ∈ vs.map some :=
        hvs ▸ List.mem_map_of_mem hname
      obtain ⟨v, _, hv⟩ := List.mem_map.mp hmem
      rw [← hv]
      rfl

end Heap

/-- `ResolveLinks` is all or nothing but for a switch of which some labels are
known and some are not. -/
theorem resolveLinks_allOrNothing_iff (h : Heap) (cfg : GraphPtr)
    (thisVertex : VertexPtr) (labelMap : LabelMap) :
    h.AllOrNothing cfg thisVertex labelMap ↔
      ∀ caseList, (h.vertex thisVertex).statement = .switchUnlinked caseList →
        (∀ name ∈ caseList, (labelMap name).isSome = true) ∨
          ∀ name ∈ caseList, labelMap name = none := by
  refine ⟨fun hall caseList hst => hall.known hst, fun hcases => ?_⟩
  unfold Heap.AllOrNothing
  rw [Heap.resolveLinks_eq]
  dsimp only
  cases hlinked : Heap.linkedStatement labelMap (h.vertex thisVertex).statement with
  | none =>
      rw [Heap.linkArcs_eq_nil labelMap hlinked]
      rfl
  | some new =>
      refine ⟨_, Heap.lookedUpLabels_map hlinked fun caseList hst => ?_, ?_⟩
      · refine (hcases caseList hst).resolve_right fun hnone => ?_
        rw [hst] at hlinked
        have hempty : caseList.filterMap labelMap = [] :=
          List.filterMap_eq_nil_iff.mpr hnone
        simp [Heap.linkedStatement, hempty] at hlinked
      · have hlinkedTo : h.LinkedTo cfg thisVertex _ h.nextVertex
            ((h.addOutArcs cfg thisVertex _).newLinked thisVertex new).2 :=
          Heap.linkedTo_newLinked
            (Heap.linkArcs labelMap (h.vertex thisVertex).statement) new
        rw [← Heap.addOutArcs_nextVertex cfg thisVertex h] at hlinkedTo
        exact hlinkedTo

/-- A switch of which one label is missing. -/
def halfDefinedSwitch : List Statement :=
  [.switchUnlinked ["A", "B"], .label "A"]

/-- When the linking loop comes to it, it gets an edge to `A` and is replaced. -/
theorem halfDefinedSwitch_not_allOrNothing :
    ∃ s, (Heap.singleFunction halfDefinedSwitch).2.addStatements 1
        (Heap.singleFunction halfDefinedSwitch).1 = .ok s ∧
      s.listOfUnlinkedFlowControlStatements = [1] ∧
        ¬ s.heap.AllOrNothing 1 1 s.labelMap := by
  have hcheck : ((Heap.singleFunction halfDefinedSwitch).2.addStatements 1
      (Heap.singleFunction halfDefinedSwitch).1).Holds fun s =>
      s.listOfUnlinkedFlowControlStatements = [1] ∧
        (s.heap.vertex 1).statement = .switchUnlinked ["A", "B"] ∧
          s.labelMap "A" ≠ none ∧ s.labelMap "B" = none := by
    decide +kernel
  obtain ⟨s, hrun, hlist, hst, hA, hB⟩ := hcheck
  refine ⟨s, hrun, hlist, ?_⟩
  intro hall
  rcases hall.known hst with hknown | hnone
  · have hsome := hknown "B" (by decide)
    rw [hB] at hsome
    exact Bool.noConfusion hsome
  · exact hA (hnone "A" (by decide))

end CoFlo.Ports
