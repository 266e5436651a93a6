import CoFlo.Ports.Arcs
import CoFlo.Ports.FunctionStages
import CoFlo.Verified.FoldInvariant

/-!
# The statements before linking

`CreateControlFlowGraph` is called once per function, on the statements the
parser has just made: pairwise distinct vertex objects that are not linked to
anything yet (`Heap.Fresh`).  After the loop that adds them the graph holds
ENTRY, EXIT and the statements, chained by fallthrough edges wherever the
earlier statement does not end its basic block, and the local lists hold what
the linking phases need.  `AddInv` says so for every prefix of the list.
-/

namespace CoFlo.Ports

open CoFlo.Verified.FoldInvariant

/-! ## The chain of fallthrough edges -/

/-- The fallthrough arcs along a chain of vertices, where `flow` tells which
of them end their basic block. -/
def fallthroughArcs (flow : VertexPtr → Bool) : List VertexPtr → List Arc
  | [] => []
  | [_] => []
  | a :: b :: rest =>
      (if flow a then [] else [⟨a, .fallthrough, b⟩]) ++
        fallthroughArcs flow (b :: rest)

/-- The basic block leaders along a chain, with what precedes them. -/
def leaderInfos (flow : VertexPtr → Bool) :
    List VertexPtr → List BasicBlockLeaderInfo
  | [] => []
  | [_] => []
  | a :: b :: rest =>
      (if flow a then [⟨b, a⟩] else []) ++ leaderInfos flow (b :: rest)

theorem fallthroughArcs_concat (flow : VertexPtr → Bool)
    (chain : List VertexPtr) (a b : VertexPtr) :
    fallthroughArcs flow (chain ++ [a] ++ [b]) =
      fallthroughArcs flow (chain ++ [a]) ++
        if flow a then [] else [⟨a, .fallthrough, b⟩] := by
  induction chain with
  | nil => simp [fallthroughArcs]
  | cons c rest ih =>
      cases rest with
      | nil => simp [fallthroughArcs]
      | cons d rest =>
          simp only [List.cons_append, fallthroughArcs] at ih ⊢
          rw [ih, List.append_assoc]

theorem leaderInfos_concat (flow : VertexPtr → Bool) (chain : List VertexPtr)
    (a b : VertexPtr) :
    leaderInfos flow (chain ++ [a] ++ [b]) =
      leaderInfos flow (chain ++ [a]) ++ if flow a then [⟨b, a⟩] else [] := by
  induction chain with
  | nil => simp [leaderInfos]
  | cons c rest ih =>
      cases rest with
      | nil => simp [leaderInfos]
      | cons d rest =>
          simp only [List.cons_append, leaderInfos] at ih ⊢
          rw [ih, List.append_assoc]

/-- The label map after the statements of a list have been added to `m`. -/
def addLabels (statement : VertexPtr → Statement) (m : LabelMap)
    (statementList : List VertexPtr) : LabelMap :=
  statementList.foldl (fun m v => m.addLabel (statement v) v) m

/-! ## Fresh statements -/

namespace Heap

/-- What the parser hands to `CreateControlFlowGraph`: a new function, and
distinct new statements without edges. -/
structure Fresh (h : Heap) (this : FunctionPtr)
    (statementList : List VertexPtr) : Prop where
  consistent : h.Consistent
  vertices_eq : (h.graph (h.function this).theCfg).vertices = ∅
  edges_eq : (h.graph (h.function this).theCfg).edges = ∅
  nodup : statementList.Nodup
  ne_null : ∀ v ∈ statementList, v ≠ null
  lt_nextVertex : ∀ v ∈ statementList, v < h.nextVertex
  outEdges_eq : ∀ v ∈ statementList, (h.vertex v).outEdges = ∅
  inEdges_eq : ∀ v ∈ statementList, (h.vertex v).inEdges = ∅

/-- The vertices that a call of `CreateControlFlowGraph` works on: the given
statements, and all that it creates itself. -/
def owned (h : Heap) (statementList : List VertexPtr) : Set VertexPtr :=
  {v | v ∈ statementList ∨ h.nextVertex ≤ v}

/-- The ENTRY vertex of the function being created. -/
def entryPtr (h : Heap) : VertexPtr := h.nextVertex

/-- The EXIT vertex of the function being created. -/
def exitPtr (h : Heap) : VertexPtr := h.nextVertex + 1

/-- The statements once ENTRY and EXIT have been created. -/
def statementOf (h : Heap) : VertexPtr → Statement :=
  Function.update
    (Function.update (fun v => (h.vertex v).statement) h.entryPtr .entry)
    h.exitPtr .exit

/-- `IsType<FlowControlUnlinked>()` of these statements. -/
def endsBasicBlock (h : Heap) (v : VertexPtr) : Bool :=
  (h.statementOf v).isFlowControlUnlinked

/-- The label map of a list of statements. -/
def labelMapOf (h : Heap) (statementList : List VertexPtr) : LabelMap :=
  addLabels h.statementOf (LabelMap.set (fun _ => none) "EXIT" h.exitPtr)
    statementList

theorem entryPtr_ne_exitPtr (h : Heap) : h.entryPtr ≠ h.exitPtr :=
  Nat.ne_of_lt (Nat.lt_succ_self _)

@[simp] theorem statementOf_entryPtr (h : Heap) :
    h.statementOf h.entryPtr = .entry := by
  rw [statementOf, Function.update_of_ne h.entryPtr_ne_exitPtr,
    Function.update_self]

@[simp] theorem statementOf_exitPtr (h : Heap) :
    h.statementOf h.exitPtr = .exit := by
  rw [statementOf, Function.update_self]

theorem statementOf_of_ne {h : Heap} {v : VertexPtr} (hentry : v ≠ h.entryPtr)
    (hexit : v ≠ h.exitPtr) : h.statementOf v = (h.vertex v).statement := by
  rw [statementOf, Function.update_of_ne hexit, Function.update_of_ne hentry]

theorem Consistent.setOwningFunction {h : Heap} (hc : h.Consistent)
    (v : VertexPtr) (owningFunction : FunctionPtr) :
    (h.setOwningFunction v owningFunction).Consistent :=
  hc.modifyVertex v (f := fun x => { x with owningFunction })
    (fun _ => rfl) (fun _ => rfl)

@[simp] theorem setOwningFunction_statement (h : Heap) (v w : VertexPtr)
    (owningFunction : FunctionPtr) :
    ((h.setOwningFunction v owningFunction).vertex w).statement =
      (h.vertex w).statement := by
  rw [setOwningFunction, modifyVertex_vertex]
  split_ifs with hw
  · rw [hw]
  · rfl

namespace Fresh

variable {h : Heap} {this : FunctionPtr} {statementList : List VertexPtr}
  (hf : h.Fresh this statementList)

include hf

theorem ne_entryPtr {v : VertexPtr} (hv : v ∈ statementList) :
    v ≠ h.entryPtr :=
  Nat.ne_of_lt (hf.lt_nextVertex v hv)

theorem ne_exitPtr {v : VertexPtr} (hv : v ∈ statementList) : v ≠ h.exitPtr :=
  Nat.ne_of_lt (Nat.lt_succ_of_lt (hf.lt_nextVertex v hv))

theorem ne_null_of_owned {v : VertexPtr} (hv : v ∈ h.owned statementList) :
    v ≠ null := by
  rcases hv with hv | hv
  · exact hf.ne_null v hv
  · exact Nat.ne_of_gt (Nat.lt_of_lt_of_le hf.consistent.null_lt_nextVertex hv)

/-- At the start no edge of the heap touches the vertices of the function. -/
theorem encloses :
    h.Encloses (h.function this).theCfg (h.owned statementList) where
  mem_edges_source e := by
    rw [hf.edges_eq]
    refine iff_of_false (Finset.notMem_empty e) ?_
    rintro (hv | hv)
    · have he := (hf.consistent.mem_outEdges _ e).mpr ⟨rfl, hf.ne_null _ hv⟩
      rw [hf.outEdges_eq _ hv] at he
      exact Finset.notMem_empty e he
    · exact Nat.not_lt.mpr hv (hf.consistent.source_lt e)
  mem_edges_target e := by
    rw [hf.edges_eq]
    refine iff_of_false (Finset.notMem_empty e) ?_
    rintro (hv | hv)
    · have he := (hf.consistent.mem_inEdges _ e).mpr ⟨rfl, hf.ne_null _ hv⟩
      rw [hf.inEdges_eq _ hv] at he
      exact Finset.notMem_empty e he
    · exact Nat.not_lt.mpr hv (hf.consistent.target_lt e)

end Fresh

end Heap

/-! ## The loop over the statement list -/

/-- A heap in which ENTRY, EXIT and the statements of `added` are in the
graph, and `arcs` are its arcs. -/
structure FlowHeap (h : Heap) (this : FunctionPtr) (l added : List VertexPtr)
    (arcs : List Arc) (k : Heap) : Prop where
  consistent : k.Consistent
  encloses : k.Encloses (h.function this).theCfg (h.owned l)
  confined : h.Confined (h.function this).theCfg (h.owned l) k
  statement : ∀ v, (k.vertex v).statement = h.statementOf v
  function : k.function = Function.update h.function this
    { h.function this with
      entryVertexDesc := h.entryPtr, exitVertexDesc := h.exitPtr }
  nextVertex : k.nextVertex = h.nextVertex + 2
  vertices : (k.graph (h.function this).theCfg).vertices =
    insert h.entryPtr (insert h.exitPtr added.toFinset)
  arcs_eq : k.arcs (h.function this).theCfg = arcs
  unmarked : ∀ e ∈ (k.graph (h.function this).theCfg).edges,
    (k.edge e).isBackEdge = false
  owner : ∀ v ∈ (k.graph (h.function this).theCfg).vertices,
    (k.vertex v).owningFunction = this
  owner_notMem : ∀ v, v ∉ (k.graph (h.function this).theCfg).vertices →
    (k.vertex v).owningFunction = (h.vertex v).owningFunction
  indexed : k.Indexed (h.function this).theCfg
    (k.graph (h.function this).theCfg).vertices
  entryIndex : (k.vertex h.entryPtr).vertexIndex =
    (h.graph (h.function this).theCfg).vertexIdState
  exitIndex : (k.vertex h.exitPtr).vertexIndex =
    (h.graph (h.function this).theCfg).vertexIdState + 1

theorem FlowHeap.theCfg {h k : Heap} {this : FunctionPtr}
    {l added : List VertexPtr} {arcs : List Arc}
    (hk : FlowHeap h this l added arcs k) :
    (k.function this).theCfg = (h.function this).theCfg := by
  rw [hk.function, Function.update_self]

theorem FlowHeap.exitVertexDesc {h k : Heap} {this : FunctionPtr}
    {l added : List VertexPtr} {arcs : List Arc}
    (hk : FlowHeap h this l added arcs k) :
    (k.function this).exitVertexDesc = h.exitPtr := by
  rw [hk.function, Function.update_self]

/-- The state after the statements of `pre` have been added. -/
structure AddInv (h : Heap) (this : FunctionPtr) (l pre : List VertexPtr)
    (s : CreateState) : Prop extends
    FlowHeap h this l pre (fallthroughArcs h.endsBasicBlock (h.entryPtr :: pre))
      s.heap where
  labelMap : s.labelMap = h.labelMapOf pre
  prevVertex : (h.entryPtr :: pre).getLast? = some s.prevVertex
  prevVertexEnded : s.prevVertexEndedBasicBlock = h.endsBasicBlock s.prevVertex
  leaderInfo : s.listOfLeaderInfo =
    leaderInfos h.endsBasicBlock (h.entryPtr :: pre)
  noInEdgeYet : s.listOfStatementsWithNoInEdgeYet =
    s.listOfLeaderInfo.map (·.leader)
  unlinked : s.listOfUnlinkedFlowControlStatements =
    pre.filter h.endsBasicBlock

namespace AddInv

variable {h : Heap} {this : FunctionPtr} {l pre : List VertexPtr}
  {s : CreateState}

/-- The last element of the chain is one of ENTRY and the added statements. -/
theorem prevVertex_eq (hi : AddInv h this l pre s) :
    ∃ chain, h.entryPtr :: pre = chain ++ [s.prevVertex] := by
  obtain ⟨chain, hchain⟩ := List.getLast?_eq_some_iff.mp hi.prevVertex
  exact ⟨chain, hchain⟩

theorem prevVertex_owned (hi : AddInv h this l pre s) (hpre : ∀ v ∈ pre, v ∈ l) :
    s.prevVertex ∈ h.owned l := by
  have hmem : s.prevVertex ∈ h.entryPtr :: pre :=
    List.mem_of_getLast? hi.prevVertex
  rcases List.mem_cons.mp hmem with heq | hmem
  · rw [heq]
    exact .inr (Nat.le_refl _)
  · exact .inl (hpre _ hmem)

theorem prevVertex_lt (hi : AddInv h this l pre s) (hf : h.Fresh this l)
    (hpre : ∀ v ∈ pre, v ∈ l) : s.prevVertex < s.heap.nextVertex := by
  rw [hi.nextVertex]
  have hmem : s.prevVertex ∈ h.entryPtr :: pre :=
    List.mem_of_getLast? hi.prevVertex
  rcases List.mem_cons.mp hmem with heq | hmem
  · rw [heq]
    exact Nat.lt_add_of_pos_right (by decide)
  · exact Nat.lt_add_right 2 (hf.lt_nextVertex _ (hpre _ hmem))

end AddInv

/-- The heap with the new ENTRY and EXIT objects, outside of any graph. -/
private def withEntryAndExit (h : Heap) (this : FunctionPtr) : Heap :=
  let h₁ := (h.newVertex .entry (h.pseudoLocation this)).2
  let h₂ := (h₁.newVertex .exit (h₁.pseudoLocation this)).2
  (h₂.setOwningFunction h.entryPtr this).setOwningFunction h.exitPtr this

private theorem withEntryAndExit_consistent {h : Heap} (hc : h.Consistent)
    (this : FunctionPtr) : (withEntryAndExit h this).Consistent := by
  have h₁ := hc.newVertex .entry (h.pseudoLocation this)
  have h₂ := h₁.newVertex .exit
    ((h.newVertex .entry (h.pseudoLocation this)).2.pseudoLocation this)
  exact (h₂.setOwningFunction _ _).setOwningFunction _ _

private theorem withEntryAndExit_statement (h : Heap) (this : FunctionPtr)
    (v : VertexPtr) :
    ((withEntryAndExit h this).vertex v).statement = h.statementOf v := by
  simp only [withEntryAndExit, Heap.setOwningFunction,
    Heap.modifyVertex_vertex, Heap.newVertex, Heap.statementOf, Heap.entryPtr,
    Heap.exitPtr, Function.update_apply]
  grind

/-- The heap at the start of the loop. -/
private def entryAndExitAdded (h : Heap) (this : FunctionPtr) : Heap :=
  let cfg := (h.function this).theCfg
  let h₁ := ((withEntryAndExit h this).vertexAdded cfg h.entryPtr).modifyFunction
    this fun x => { x with entryVertexDesc := h.entryPtr }
  (h₁.vertexAdded cfg h.exitPtr).modifyFunction
    this fun x => { x with exitVertexDesc := h.exitPtr }

private theorem createEntryAndExit_eq {h : Heap} {this : FunctionPtr}
    (hempty : (h.graph (h.function this).theCfg).vertices = ∅) :
    h.createEntryAndExit this = .ok {
      heap := entryAndExitAdded h this
      labelMap := LabelMap.set (fun _ => none) "EXIT" h.exitPtr
      prevVertex := h.entryPtr
      prevVertexEndedBasicBlock := false
      listOfLeaderInfo := []
      listOfStatementsWithNoInEdgeYet := []
      listOfUnlinkedFlowControlStatements := [] } := by
  have hcreate : h.createEntryAndExit this = (do
      let cfg := (h.function this).theCfg
      let h₁ ← (withEntryAndExit h this).addVertex cfg h.entryPtr
      let h₁ := h₁.modifyFunction this fun x =>
        { x with entryVertexDesc := h.entryPtr }
      let h₁ ← h₁.addVertex cfg h.exitPtr
      let h₁ := h₁.modifyFunction this fun x =>
        { x with exitVertexDesc := h.exitPtr }
      return {
        heap := h₁
        labelMap := LabelMap.set (fun _ => none) "EXIT" h.exitPtr
        prevVertex := h.entryPtr
        prevVertexEndedBasicBlock := false
        listOfLeaderInfo := []
        listOfStatementsWithNoInEdgeYet := []
        listOfUnlinkedFlowControlStatements := [] }) := rfl
  have hvertices : ((withEntryAndExit h this).graph
      (h.function this).theCfg).vertices = ∅ := hempty
  have hentry : h.entryPtr ∉ ((withEntryAndExit h this).graph
      (h.function this).theCfg).vertices := by simp [hvertices]
  have hexit : h.exitPtr ∉
      ((((withEntryAndExit h this).vertexAdded (h.function this).theCfg
        h.entryPtr).modifyFunction this fun x =>
          { x with entryVertexDesc := h.entryPtr }).graph
            (h.function this).theCfg).vertices := by
    rw [Heap.modifyFunction_graph, Heap.vertexAdded_graph, if_pos rfl, hvertices]
    simp [h.entryPtr_ne_exitPtr.symm]
  rw [hcreate]
  dsimp only
  rw [Heap.addVertex_eq_ok hentry]
  simp only [bind, Except.bind]
  rw [Heap.addVertex_eq_ok hexit]
  rfl

private theorem entryAndExitAdded_edges (h : Heap) (this : FunctionPtr)
    (g : GraphPtr) :
    ((entryAndExitAdded h this).graph g).edges = (h.graph g).edges := by
  simp only [entryAndExitAdded, Heap.modifyFunction_graph,
    Heap.vertexAdded_edges]
  rfl

private theorem entryAndExitAdded_graph (h : Heap) (this : FunctionPtr)
    {i : GraphPtr} (hi : i ≠ (h.function this).theCfg) :
    (entryAndExitAdded h this).graph i = h.graph i := by
  simp only [entryAndExitAdded, Heap.modifyFunction_graph,
    Heap.vertexAdded_graph, if_neg hi]
  rfl

private theorem entryAndExitAdded_consistent {h : Heap} (hc : h.Consistent)
    (this : FunctionPtr) : (entryAndExitAdded h this).Consistent := by
  have hbase := withEntryAndExit_consistent hc this
  simp only [entryAndExitAdded]
  exact (((hbase.vertexAdded _ _).modifyFunction _ _).vertexAdded _
    _).modifyFunction _ _

private theorem entryAndExitAdded_vertices {h : Heap} {this : FunctionPtr}
    (hempty : (h.graph (h.function this).theCfg).vertices = ∅) :
    ((entryAndExitAdded h this).graph (h.function this).theCfg).vertices =
      {h.entryPtr, h.exitPtr} := by
  simp only [entryAndExitAdded, Heap.modifyFunction_graph,
    Heap.vertexAdded_graph, if_true]
  have hbase : ((withEntryAndExit h this).graph
      (h.function this).theCfg).vertices = ∅ := hempty
  rw [hbase, Finset.pair_comm]
  rfl

private theorem entryAndExitAdded_owner (h : Heap) (this : FunctionPtr)
    (v : VertexPtr) : ((entryAndExitAdded h this).vertex v).owningFunction =
      if v = h.entryPtr ∨ v = h.exitPtr then this
      else (h.vertex v).owningFunction := by
  simp only [entryAndExitAdded, Heap.modifyFunction_vertex,
    Heap.vertexAdded_owningFunction, withEntryAndExit, Heap.setOwningFunction,
    Heap.modifyVertex_vertex, Heap.newVertex, Heap.entryPtr, Heap.exitPtr]
  grind

private theorem entryAndExitAdded_indexed (h : Heap) (this : FunctionPtr) :
    (entryAndExitAdded h this).Indexed (h.function this).theCfg
      (insert h.exitPtr {h.entryPtr}) := by
  have hbase : (withEntryAndExit h this).Indexed (h.function this).theCfg ∅ :=
    ⟨Set.injOn_empty _, fun v hv => absurd hv (Set.notMem_empty v)⟩
  have hentry := hbase.vertexAdded (Set.notMem_empty h.entryPtr)
  rw [insert_empty_eq] at hentry
  have hne : h.exitPtr ∉ ({h.entryPtr} : Set VertexPtr) :=
    fun hmem => h.entryPtr_ne_exitPtr hmem.symm
  exact (hentry.vertexAdded hne).congr (fun _ _ => rfl) (Nat.le_refl _)

private theorem entryAndExitAdded_index_of_ne (h : Heap) (this : FunctionPtr)
    {v : VertexPtr} (hentry : v ≠ h.entryPtr) (hexit : v ≠ h.exitPtr) :
    ((entryAndExitAdded h this).vertex v).vertexIndex =
      (h.vertex v).vertexIndex := by
  simp only [entryAndExitAdded, Heap.modifyFunction_vertex,
    Heap.vertexAdded_vertex, if_neg hentry, if_neg hexit, withEntryAndExit,
    Heap.setOwningFunction, Heap.modifyVertex_vertex,
    Heap.newVertex_vertexIndex]

private theorem entryAndExitAdded_index (h : Heap) (this : FunctionPtr) :
    ((entryAndExitAdded h this).vertex h.entryPtr).vertexIndex =
        (h.graph (h.function this).theCfg).vertexIdState ∧
      ((entryAndExitAdded h this).vertex h.exitPtr).vertexIndex =
        (h.graph (h.function this).theCfg).vertexIdState + 1 := by
  have hne := h.entryPtr_ne_exitPtr
  have hstate : ((withEntryAndExit h this).graph
      (h.function this).theCfg).vertexIdState =
        (h.graph (h.function this).theCfg).vertexIdState := rfl
  constructor
  · simp only [entryAndExitAdded, Heap.modifyFunction_vertex,
      Heap.vertexAdded_vertex, if_neg hne, if_true, hstate]
  · simp only [entryAndExitAdded, Heap.modifyFunction_vertex,
      Heap.vertexAdded_vertex, Heap.modifyFunction_graph,
      Heap.vertexAdded_graph, if_true, hstate]

/-- Before the loop. -/
theorem createEntryAndExit_inv {h : Heap} {this : FunctionPtr}
    {l : List VertexPtr} (hf : h.Fresh this l) :
    ∃ s, h.createEntryAndExit this = .ok s ∧ AddInv h this l [] s := by
  have hedges := entryAndExitAdded_edges h this
  have harcs : (entryAndExitAdded h this).arcs (h.function this).theCfg =
      h.arcs (h.function this).theCfg := Heap.arcs_congr rfl (hedges _)
  refine ⟨_, createEntryAndExit_eq hf.vertices_eq, ?_⟩
  exact
    { consistent := entryAndExitAdded_consistent hf.consistent this
      encloses := hf.encloses.congr rfl (hedges _)
      confined := (Heap.Confined.refl h _ _).congr rfl
        (fun i hi => entryAndExitAdded_graph h this hi)
        (fun v hv => entryAndExitAdded_index_of_ne h this
          (fun heq => hv (heq ▸ .inr (Nat.le_refl _)))
          (fun heq => hv (heq ▸ .inr (Nat.le_succ _)))) rfl
      statement := fun v => by
        simp only [entryAndExitAdded, Heap.modifyFunction_vertex,
          Heap.vertexAdded_vertex]
        exact withEntryAndExit_statement h this v
      function := by
        funext p
        simp only [entryAndExitAdded, Heap.modifyFunction_function,
          Heap.vertexAdded_function, Function.update_apply, if_true]
        split_ifs <;> rfl
      nextVertex := rfl
      vertices := by
        simp only [entryAndExitAdded, Heap.modifyFunction_graph,
          Heap.vertexAdded_graph, if_true]
        have hempty : ((withEntryAndExit h this).graph
            (h.function this).theCfg).vertices = ∅ := hf.vertices_eq
        rw [hempty, List.toFinset_nil, Finset.insert_comm]
      arcs_eq := by
        rw [harcs, Heap.arcs, hf.edges_eq]
        rfl
      unmarked := fun e he => by
        rw [hedges, hf.edges_eq] at he
        exact absurd he (Finset.notMem_empty e)
      owner := fun v hv => by
        rw [entryAndExitAdded_vertices hf.vertices_eq, Finset.mem_insert,
          Finset.mem_singleton] at hv
        rw [entryAndExitAdded_owner, if_pos hv]
      owner_notMem := fun v hv => by
        rw [entryAndExitAdded_vertices hf.vertices_eq, Finset.mem_insert,
          Finset.mem_singleton] at hv
        rw [entryAndExitAdded_owner, if_neg hv]
      indexed := by
        rw [entryAndExitAdded_vertices hf.vertices_eq, Finset.coe_pair,
          Set.pair_comm]
        exact entryAndExitAdded_indexed h this
      entryIndex := (entryAndExitAdded_index h this).1
      exitIndex := (entryAndExitAdded_index h this).2
      labelMap := rfl
      prevVertex := rfl
      prevVertexEnded := by
        rw [Heap.endsBasicBlock, Heap.statementOf_entryPtr]
        rfl
      leaderInfo := rfl
      noInEdgeYet := rfl
      unlinked := rfl }

/-- The heap of one round, before the fallthrough edge. -/
private def statementAdded (s : CreateState) (this : FunctionPtr)
    (sbp : VertexPtr) : Heap :=
  (s.heap.setOwningFunction sbp this).vertexAdded (s.heap.function this).theCfg
    sbp

private theorem addStatement_eq {this : FunctionPtr} {s : CreateState}
    {sbp : VertexPtr}
    (hsbp : sbp ∉ (s.heap.graph (s.heap.function this).theCfg).vertices) :
    s.addStatement this sbp = .ok {
      heap :=
        if s.prevVertexEndedBasicBlock then statementAdded s this sbp
        else (statementAdded s this sbp).addNewEdge
          (s.heap.function this).theCfg s.prevVertex sbp .fallthrough
      labelMap :=
        addLabels (fun v => (s.heap.vertex v).statement) s.labelMap [sbp]
      prevVertex := sbp
      prevVertexEndedBasicBlock :=
        (s.heap.vertex sbp).statement.isFlowControlUnlinked
      listOfLeaderInfo := s.listOfLeaderInfo ++
        if s.prevVertexEndedBasicBlock then [⟨sbp, s.prevVertex⟩] else []
      listOfStatementsWithNoInEdgeYet := s.listOfStatementsWithNoInEdgeYet ++
        if s.prevVertexEndedBasicBlock then [sbp] else []
      listOfUnlinkedFlowControlStatements :=
        s.listOfUnlinkedFlowControlStatements ++
          [sbp].filter fun v =>
            (s.heap.vertex v).statement.isFlowControlUnlinked } := by
  have hstatement : ∀ v, ((statementAdded s this sbp).vertex v).statement =
      (s.heap.vertex v).statement := by
    intro v
    rw [statementAdded, Heap.vertexAdded_statement,
      Heap.setOwningFunction_statement]
  have hadd : (s.heap.setOwningFunction sbp this).addVertex
      (s.heap.function this).theCfg sbp = .ok (statementAdded s this sbp) :=
    Heap.addVertex_eq_ok hsbp
  unfold CreateState.addStatement
  simp only [hadd, bind, Except.bind, pure, Except.pure, hstatement, addLabels,
    List.foldl_cons, List.foldl_nil]
  cases hprev : s.prevVertexEndedBasicBlock <;>
    cases hflow : (s.heap.vertex sbp).statement.isFlowControlUnlinked <;>
    simp [hstatement, hflow]

section statementAdded

variable (s : CreateState) (this : FunctionPtr) (sbp : VertexPtr)

private theorem statementAdded_edges (g : GraphPtr) :
    ((statementAdded s this sbp).graph g).edges = (s.heap.graph g).edges := by
  rw [statementAdded, Heap.vertexAdded_edges]
  rfl

private theorem statementAdded_statement (v : VertexPtr) :
    ((statementAdded s this sbp).vertex v).statement =
      (s.heap.vertex v).statement := by
  rw [statementAdded, Heap.vertexAdded_statement,
    Heap.setOwningFunction_statement]

private theorem statementAdded_vertices :
    ((statementAdded s this sbp).graph (s.heap.function this).theCfg).vertices =
      insert sbp (s.heap.graph (s.heap.function this).theCfg).vertices := by
  rw [statementAdded, Heap.vertexAdded_graph, if_pos rfl]
  rfl

private theorem statementAdded_graph {i : GraphPtr}
    (hi : i ≠ (s.heap.function this).theCfg) :
    (statementAdded s this sbp).graph i = s.heap.graph i := by
  rw [statementAdded, Heap.vertexAdded_graph, if_neg hi]
  rfl

private theorem statementAdded_owner (v : VertexPtr) :
    ((statementAdded s this sbp).vertex v).owningFunction =
      if v = sbp then this else (s.heap.vertex v).owningFunction := by
  rw [statementAdded, Heap.vertexAdded_owningFunction, Heap.setOwningFunction,
    Heap.modifyVertex_vertex]
  split_ifs <;> rfl

private theorem statementAdded_indexed
    (hsbp : sbp ∉ (s.heap.graph (s.heap.function this).theCfg).vertices)
    (hindexed : s.heap.Indexed (s.heap.function this).theCfg
      (s.heap.graph (s.heap.function this).theCfg).vertices) :
    (statementAdded s this sbp).Indexed (s.heap.function this).theCfg
      ((statementAdded s this sbp).graph
        (s.heap.function this).theCfg).vertices := by
  have hbase : (s.heap.setOwningFunction sbp this).Indexed
      (s.heap.function this).theCfg
        (s.heap.graph (s.heap.function this).theCfg).vertices := by
    refine hindexed.congr (fun v _ => ?_) (Nat.le_refl _)
    rw [Heap.setOwningFunction, Heap.modifyVertex_vertex]
    split_ifs with hv
    · rw [hv]
    · rfl
  rw [statementAdded_vertices, Finset.coe_insert]
  exact hbase.vertexAdded hsbp

private theorem statementAdded_index {v : VertexPtr} (hv : v ≠ sbp) :
    ((statementAdded s this sbp).vertex v).vertexIndex =
      (s.heap.vertex v).vertexIndex := by
  rw [statementAdded, Heap.vertexAdded_vertex, Heap.setOwningFunction,
    Heap.modifyVertex_vertex]
  simp only [if_neg hv]

private theorem statementAdded_arcs (g : GraphPtr) :
    (statementAdded s this sbp).arcs g = s.heap.arcs g :=
  Heap.arcs_congr rfl (statementAdded_edges s this sbp g)

end statementAdded

theorem addLabels_concat (statement : VertexPtr → Statement) (m : LabelMap)
    (l : List VertexPtr) (v : VertexPtr) :
    addLabels statement m (l ++ [v]) =
      addLabels statement (addLabels statement m l) [v] := by
  simp [addLabels]

/-- One round of the loop. -/
theorem addStatement_inv {h : Heap} {this : FunctionPtr}
    {l pre post : List VertexPtr} {a : VertexPtr} {s : CreateState}
    (hf : h.Fresh this l) (hl : l = pre ++ a :: post)
    (hi : AddInv h this l pre s) :
    ∃ s', s.addStatement this a = .ok s' ∧ AddInv h this l (pre ++ [a]) s' := by
  have ha : a ∈ l := by simp [hl]
  have hpre : ∀ v ∈ pre, v ∈ l := by
    intro v hv
    simp [hl, hv]
  have hnotMem : a ∉ pre := by
    have hnodup := hf.nodup
    rw [hl, List.nodup_append] at hnodup
    intro hmem
    exact hnodup.2.2 a hmem a List.mem_cons_self rfl
  have hnew : a ∉ (s.heap.graph (s.heap.function this).theCfg).vertices := by
    rw [hi.theCfg, hi.vertices]
    simp [hf.ne_entryPtr ha, hf.ne_exitPtr ha, hnotMem]
  have hstatements : (fun v => (s.heap.vertex v).statement) = h.statementOf :=
    funext hi.statement
  have hflow : ∀ v, (s.heap.vertex v).statement.isFlowControlUnlinked =
      h.endsBasicBlock v := fun v => by rw [hi.statement, Heap.endsBasicBlock]
  obtain ⟨chain, hchain⟩ := hi.prevVertex_eq
  have hchain' : h.entryPtr :: (pre ++ [a]) = chain ++ [s.prevVertex] ++ [a] := by
    rw [← List.cons_append, hchain]
  -- The heap before the fallthrough edge, and the ends of that edge.
  have hc : (statementAdded s this a).Consistent :=
    (hi.consistent.setOwningFunction a this).vertexAdded _ a
  have henc : (statementAdded s this a).Encloses (h.function this).theCfg
      (h.owned l) := hi.encloses.congr rfl (statementAdded_edges s this a _)
  have hconf : h.Confined (h.function this).theCfg (h.owned l)
      (statementAdded s this a) :=
    hi.confined.congr rfl (fun i hne => statementAdded_graph s this a
      (hi.theCfg ▸ hne)) (fun v hv => statementAdded_index s this a
        fun heq => hv (heq ▸ .inl ha)) rfl
  have hprevOwned := hi.prevVertex_owned hpre
  have haOwned : a ∈ h.owned l := .inl ha
  have hprevLt := hi.prevVertex_lt hf hpre
  have haLt : a < s.heap.nextVertex := by
    rw [hi.nextVertex]
    exact Nat.lt_add_right 2 (hf.lt_nextVertex a ha)
  have hcEdge : ((statementAdded s this a).addNewEdge (h.function this).theCfg
      s.prevVertex a .fallthrough).Consistent :=
    hc.addNewEdge _ _ (hf.ne_null_of_owned hprevOwned)
      (hf.ne_null_of_owned haOwned) hprevLt haLt
  have howner : ∀ v,
      (v ∈ ((statementAdded s this a).graph (h.function this).theCfg).vertices →
        ((statementAdded s this a).vertex v).owningFunction = this) ∧
      (v ∉ ((statementAdded s this a).graph (h.function this).theCfg).vertices →
        ((statementAdded s this a).vertex v).owningFunction =
          (h.vertex v).owningFunction) := by
    intro v
    have hvertices := statementAdded_vertices s this a
    rw [hi.theCfg] at hvertices
    rw [statementAdded_owner, hvertices, Finset.mem_insert]
    by_cases hva : v = a
    · simp [hva]
    · simp only [hva, false_or, if_false]
      exact ⟨hi.owner v, hi.owner_notMem v⟩
  have hindexed : (statementAdded s this a).Indexed (h.function this).theCfg
      ((statementAdded s this a).graph (h.function this).theCfg).vertices := by
    have hadded := statementAdded_indexed s this a hnew
      (by rw [hi.theCfg]; exact hi.indexed)
    rwa [hi.theCfg] at hadded
  refine ⟨_, addStatement_eq hnew, ?_⟩
  rw [hi.theCfg, hstatements]
  exact
    { consistent := by
        split_ifs
        · exact hc
        · exact hcEdge
      encloses := by
        split_ifs
        · exact henc
        · exact henc.addNewEdge _ hprevOwned haOwned
      confined := by
        split_ifs
        · exact hconf
        · exact hconf.addNewEdge _ _ hprevOwned
      statement := fun v => by
        split_ifs
        · rw [statementAdded_statement, hi.statement]
        · rw [Heap.addNewEdge_statement, statementAdded_statement, hi.statement]
      function := by
        split_ifs
        · exact hi.function
        · exact hi.function
      nextVertex := by
        split_ifs
        · exact hi.nextVertex
        · exact hi.nextVertex
      vertices := by
        have hvertices := statementAdded_vertices s this a
        rw [hi.theCfg, hi.vertices] at hvertices
        have hgoal : insert a (insert h.entryPtr (insert h.exitPtr
            pre.toFinset)) = insert h.entryPtr (insert h.exitPtr
              (pre ++ [a]).toFinset) := by
          ext v
          simp only [Finset.mem_insert, List.mem_toFinset, List.mem_append,
            List.mem_singleton]
          tauto
        split_ifs
        · exact hvertices.trans hgoal
        · rw [Heap.addNewEdge_vertices]
          exact hvertices.trans hgoal
      arcs_eq := by
        rw [hchain', fallthroughArcs_concat, ← hchain]
        split_ifs with hended hflowPrev hflowPrev
        · rw [List.append_nil, statementAdded_arcs, hi.arcs_eq]
        · rw [hi.prevVertexEnded] at hended
          exact absurd hended hflowPrev
        · rw [hi.prevVertexEnded] at hended
          exact absurd hflowPrev hended
        · rw [hc.arcs_addNewEdge, statementAdded_arcs, hi.arcs_eq,
            ← Multiset.coe_add, add_comm]
          rfl
      unmarked := fun e he => by
        split_ifs at he ⊢
        · rw [statementAdded_edges] at he
          exact hi.unmarked e he
        · rw [Heap.addNewEdge_edges_self, Finset.mem_insert,
            statementAdded_edges] at he
          rw [Heap.addNewEdge_edge]
          split_ifs with hnext
          · rfl
          · exact hi.unmarked e (he.resolve_left hnext)
      owner := fun v hv => by
        split_ifs at hv ⊢
        · exact (howner v).1 hv
        · rw [Heap.addNewEdge_owningFunction]
          rw [Heap.addNewEdge_vertices] at hv
          exact (howner v).1 hv
      owner_notMem := fun v hv => by
        split_ifs at hv ⊢
        · exact (howner v).2 hv
        · rw [Heap.addNewEdge_owningFunction]
          rw [Heap.addNewEdge_vertices] at hv
          exact (howner v).2 hv
      indexed := by
        split_ifs
        · exact hindexed
        · rw [Heap.addNewEdge_vertices]
          exact hindexed.congr (fun v _ => Heap.addNewEdge_vertexIndex _ _ _ _ _ _)
            (Nat.le_of_eq (Heap.addNewEdge_vertexIdState _ _ _ _ _ _).symm)
      entryIndex := by
        have hne := (hf.ne_entryPtr ha).symm
        split_ifs
        · rw [statementAdded_index s this a hne, hi.entryIndex]
        · rw [Heap.addNewEdge_vertexIndex, statementAdded_index s this a hne,
            hi.entryIndex]
      exitIndex := by
        have hne := (hf.ne_exitPtr ha).symm
        split_ifs
        · rw [statementAdded_index s this a hne, hi.exitIndex]
        · rw [Heap.addNewEdge_vertexIndex, statementAdded_index s this a hne,
            hi.exitIndex]
      labelMap := by
        rw [hi.labelMap, Heap.labelMapOf, Heap.labelMapOf, addLabels_concat]
      prevVertex := by
        rw [hchain', List.getLast?_concat]
      prevVertexEnded := hflow a
      leaderInfo := by
        rw [hchain', leaderInfos_concat, ← hchain, hi.leaderInfo,
          hi.prevVertexEnded]
      noInEdgeYet := by
        rw [hi.noInEdgeYet, List.map_append]
        split_ifs <;> rfl
      unlinked := by
        rw [hi.unlinked, List.filter_append]
        simp only [hflow] }

/-- What the phase leaves: all the statements, chained from ENTRY to EXIT, and
the local lists. -/
structure StatementsAdded (h : Heap) (this : FunctionPtr) (l : List VertexPtr)
    (s : CreateState) : Prop extends
    FlowHeap h this l l
      (fallthroughArcs h.endsBasicBlock (h.entryPtr :: l ++ [h.exitPtr]))
      s.heap where
  labelMap : s.labelMap = h.labelMapOf l
  leaderInfo : s.listOfLeaderInfo =
    leaderInfos h.endsBasicBlock (h.entryPtr :: l)
  noInEdgeYet : s.listOfStatementsWithNoInEdgeYet =
    s.listOfLeaderInfo.map (·.leader)
  unlinked : s.listOfUnlinkedFlowControlStatements =
    l.filter h.endsBasicBlock

/-- The fallthrough of the last statement. -/
theorem addExitFallthrough_spec {h : Heap} {this : FunctionPtr}
    {l : List VertexPtr} {s : CreateState} (hf : h.Fresh this l)
    (hi : AddInv h this l l s) :
    StatementsAdded h this l (s.addExitFallthrough this) := by
  obtain ⟨chain, hchain⟩ := hi.prevVertex_eq
  have hprevOwned := hi.prevVertex_owned (fun _ hv => hv)
  have hprevLt := hi.prevVertex_lt hf (fun _ hv => hv)
  have hexitOwned : h.exitPtr ∈ h.owned l := .inr (Nat.le_succ _)
  have hexitLt : h.exitPtr < s.heap.nextVertex := by
    rw [hi.nextVertex]
    exact Nat.lt_succ_self _
  have hchain' : fallthroughArcs h.endsBasicBlock
      (h.entryPtr :: l ++ [h.exitPtr]) =
        fallthroughArcs h.endsBasicBlock (h.entryPtr :: l) ++
          if s.prevVertexEndedBasicBlock then []
          else [⟨s.prevVertex, .fallthrough, h.exitPtr⟩] := by
    rw [hchain, fallthroughArcs_concat, hi.prevVertexEnded]
  cases hended : s.prevVertexEndedBasicBlock with
  | true =>
      have hsame : s.addExitFallthrough this = s := by
        simp [CreateState.addExitFallthrough, hended]
      rw [hsame]
      rw [hended, if_pos rfl, List.append_nil] at hchain'
      exact { hi with arcs_eq := by rw [hchain', hi.arcs_eq] }
  | false =>
      have hstep : s.addExitFallthrough this =
          { s with
            heap := s.heap.addNewEdge (h.function this).theCfg s.prevVertex
              h.exitPtr .fallthrough } := by
        simp [CreateState.addExitFallthrough, hended, hi.theCfg,
          hi.exitVertexDesc]
      rw [hstep]
      exact
        { consistent := hi.consistent.addNewEdge _ _
            (hf.ne_null_of_owned hprevOwned) (hf.ne_null_of_owned hexitOwned)
            hprevLt hexitLt
          encloses := hi.encloses.addNewEdge _ hprevOwned hexitOwned
          confined := hi.confined.addNewEdge _ _ hprevOwned
          statement := fun v => by
            rw [Heap.addNewEdge_statement, hi.statement]
          function := hi.function
          nextVertex := hi.nextVertex
          vertices := by rw [Heap.addNewEdge_vertices, hi.vertices]
          arcs_eq := by
            rw [hi.consistent.arcs_addNewEdge, hi.arcs_eq, hchain', hended,
              if_neg (by decide), ← Multiset.coe_add, add_comm]
            rfl
          unmarked := fun e he => by
            rw [Heap.addNewEdge_edges_self, Finset.mem_insert] at he
            rw [Heap.addNewEdge_edge]
            split_ifs with hnext
            · rfl
            · exact hi.unmarked e (he.resolve_left hnext)
          owner := fun v hv => by
            rw [Heap.addNewEdge_owningFunction]
            rw [Heap.addNewEdge_vertices] at hv
            exact hi.owner v hv
          owner_notMem := fun v hv => by
            rw [Heap.addNewEdge_owningFunction]
            rw [Heap.addNewEdge_vertices] at hv
            exact hi.owner_notMem v hv
          indexed := by
            rw [Heap.addNewEdge_vertices]
            exact hi.indexed.congr
              (fun v _ => Heap.addNewEdge_vertexIndex _ _ _ _ _ _)
              (Nat.le_of_eq (Heap.addNewEdge_vertexIdState _ _ _ _ _ _).symm)
          entryIndex := by rw [Heap.addNewEdge_vertexIndex, hi.entryIndex]
          exitIndex := by rw [Heap.addNewEdge_vertexIndex, hi.exitIndex]
          labelMap := hi.labelMap
          leaderInfo := hi.leaderInfo
          noInEdgeYet := hi.noInEdgeYet
          unlinked := hi.unlinked }

/-- The whole phase: the loop and the fallthrough of the last statement. -/
theorem addStatements_spec {h : Heap} {this : FunctionPtr}
    {l : List VertexPtr} (hf : h.Fresh this l) :
    ∃ s, h.addStatements this l = .ok s ∧ StatementsAdded h this l s := by
  obtain ⟨s₁, hcreate, hinit⟩ := createEntryAndExit_inv hf
  obtain ⟨s, hloop, hi⟩ := foldlM_invariant (CreateState.addStatement this)
    (AddInv h this l) l s₁ hinit
    (fun pre a post s hl hP => addStatement_inv hf hl hP)
  refine ⟨s.addExitFallthrough this, ?_, addExitFallthrough_spec hf hi⟩
  unfold Heap.addStatements
  rw [hcreate]
  simp only [bind, Except.bind, hloop, pure, Except.pure]

end CoFlo.Ports
