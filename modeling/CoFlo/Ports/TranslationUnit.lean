import CoFlo.Ports.AddStatements

/-!
# What a translation unit hands to its functions

Parsing is not ported: its outcome is, for every function of the file, an
identifier and a list of new statements.
`BuildFunctionsFromThreeAddressFormStatementLists` makes a `Function` of each
and calls `CreateControlFlowGraph`.  This module has the objects before that
call, and shows that they are what `Heap.Fresh` asks for.
-/

namespace CoFlo.Ports

namespace Heap

/-- A heap nothing has been allocated on.  Its unused memory holds whatever
`memory` says. -/
def blank (memory : VertexPtr → Vertex) : Heap where
  vertex v := { memory v with outEdges := ∅, inEdges := ∅ }
  edge _ := ⟨null, null, .fallthrough, false⟩
  graph _ := ⟨∅, ∅, 0⟩
  function _ := ⟨"", "", null, null, null, null, null⟩
  nextVertex := 1
  nextEdge := 1

theorem blank_consistent (memory : VertexPtr → Vertex) :
    (blank memory).Consistent where
  mem_outEdges v e := by
    simp only [blank, Finset.notMem_empty, false_iff]
    exact fun hv => hv.2 hv.1.symm
  mem_inEdges v e := by
    simp only [blank, Finset.notMem_empty, false_iff]
    exact fun hv => hv.2 hv.1.symm
  source_eq_null _ := Iff.rfl
  source_lt _ := Nat.zero_lt_one
  target_lt _ := Nat.zero_lt_one
  allocated _ hsource := absurd rfl hsource
  edges_attached _ e he := absurd he (Finset.notMem_empty e)
  edges_disjoint _ _ e he := absurd he (Finset.notMem_empty e)
  nextEdge_ne_null := Nat.one_ne_zero

/-- The statements the parser makes, in the order of the list. -/
def newStatements (h : Heap) : List (Statement × Location) → List VertexPtr × Heap
  | [] => ([], h)
  | (statement, location) :: rest =>
      let new := h.newVertex statement location
      let news := new.2.newStatements rest
      (new.1 :: news.1, news.2)

/-- `new Function(tu, identifier)`, with the `new ControlFlowGraph` of its
constructor.  A function and its graph have the same number. -/
def newFunction (h : Heap) (this : FunctionPtr)
    (functionId definitionFilePath : String) : Heap :=
  let h := h.modifyFunction this fun _ =>
    ⟨functionId, definitionFilePath, null, null, null, null, this⟩
  h.modifyGraph this fun _ => ⟨∅, ∅, 0⟩

/-! ## New statements are fresh -/

section newStatements

variable (h : Heap) (sts : List (Statement × Location))

theorem newStatements_fst :
    (h.newStatements sts).1 = List.range' h.nextVertex sts.length := by
  induction sts generalizing h with
  | nil => rfl
  | cons st rest ih =>
      rw [newStatements, List.length_cons, List.range'_succ]
      exact congrArg _ (ih _)

theorem newStatements_nextVertex :
    (h.newStatements sts).2.nextVertex = h.nextVertex + sts.length := by
  induction sts generalizing h with
  | nil => rfl
  | cons st rest ih =>
      rw [newStatements, List.length_cons, Nat.add_comm rest.length,
        ← Nat.add_assoc]
      exact ih _

theorem newStatements_frame :
    (h.newStatements sts).2.edge = h.edge ∧
      (h.newStatements sts).2.graph = h.graph ∧
      (h.newStatements sts).2.function = h.function ∧
      (h.newStatements sts).2.nextEdge = h.nextEdge := by
  induction sts generalizing h with
  | nil => exact ⟨rfl, rfl, rfl, rfl⟩
  | cons st rest ih => exact ih _

theorem newStatements_statement_of_lt {v : VertexPtr} (hv : v < h.nextVertex) :
    (h.newStatements sts).2.vertex v = h.vertex v := by
  induction sts generalizing h with
  | nil => rfl
  | cons st rest ih =>
      rw [newStatements]
      refine (ih _ (Nat.lt_succ_of_lt hv)).trans ?_
      simp only [newVertex, modifyVertex_vertex, if_neg (Nat.ne_of_lt hv)]

theorem newStatements_owningFunction (v : VertexPtr) :
    ((h.newStatements sts).2.vertex v).owningFunction =
      (h.vertex v).owningFunction := by
  induction sts generalizing h with
  | nil => rfl
  | cons st rest ih =>
      rw [newStatements]
      exact (ih _).trans (newVertex_owningFunction h st.1 st.2 v)

/-- The statements are the ones the parser was asked for. -/
theorem statements_newStatements :
    (h.newStatements sts).1.map
        (fun v => ((h.newStatements sts).2.vertex v).statement) =
      sts.map Prod.fst := by
  induction sts generalizing h with
  | nil => rfl
  | cons st rest ih =>
      rw [newStatements, List.map_cons, List.map_cons]
      refine congrArg₂ _ ?_ (ih _)
      have hlt : h.nextVertex < (h.newVertex st.1 st.2).2.nextVertex :=
        Nat.lt_succ_self _
      refine (congrArg Vertex.statement
        (newStatements_statement_of_lt _ rest hlt)).trans ?_
      rw [newVertex_statement]
      exact if_pos rfl

theorem Consistent.newStatements {h : Heap} (hc : h.Consistent)
    (sts : List (Statement × Location)) :
    (h.newStatements sts).2.Consistent := by
  induction sts generalizing h with
  | nil => exact hc
  | cons st rest ih => exact ih (hc.newVertex st.1 st.2)

theorem Consistent.newStatements_edges_empty {h : Heap} (hc : h.Consistent)
    (sts : List (Statement × Location)) {v : VertexPtr}
    (hv : h.nextVertex ≤ v) :
    ((h.newStatements sts).2.vertex v).outEdges = ∅ ∧
      ((h.newStatements sts).2.vertex v).inEdges = ∅ := by
  have hc' := hc.newStatements sts
  have hedge := (newStatements_frame h sts).1
  constructor
  · rw [Finset.eq_empty_iff_forall_notMem]
    intro e he
    have hsource := hc'.source_eq_of_mem he
    have hlt := hc.source_lt e
    rw [hedge] at hsource
    rw [hsource] at hlt
    exact Nat.not_lt.mpr hv hlt
  · rw [Finset.eq_empty_iff_forall_notMem]
    intro e he
    have htarget := hc'.target_eq_of_mem he
    have hlt := hc.target_lt e
    rw [hedge] at htarget
    rw [htarget] at hlt
    exact Nat.not_lt.mpr hv hlt

end newStatements

theorem Consistent.newFunction {h : Heap} (hc : h.Consistent)
    (this : FunctionPtr) (functionId definitionFilePath : String) :
    (h.newFunction this functionId definitionFilePath).Consistent :=
  { hc with
    edges_attached := fun g e he => by
      rw [Heap.newFunction, modifyGraph_graph] at he
      split_ifs at he
      · exact absurd he (Finset.notMem_empty e)
      · exact hc.edges_attached g e he
    edges_disjoint := fun g k e hg hk => by
      rw [Heap.newFunction, modifyGraph_graph] at hg hk
      have hdisjoint := hc.edges_disjoint g k e
      simp only [modifyFunction_graph] at hg hk
      split_ifs at hg hk
      · exact absurd hg (Finset.notMem_empty e)
      · exact absurd hg (Finset.notMem_empty e)
      · exact absurd hk (Finset.notMem_empty e)
      · exact hdisjoint hg hk }

/-- A function as the parser leaves it. -/
theorem fresh_newFunction {h : Heap} (hc : h.Consistent) (this : FunctionPtr)
    (functionId definitionFilePath : String)
    (sts : List (Statement × Location)) :
    ((h.newStatements sts).2.newFunction this functionId
      definitionFilePath).Fresh this (h.newStatements sts).1 := by
  have hfunction : ((h.newStatements sts).2.newFunction this functionId
      definitionFilePath).function this =
        ⟨functionId, definitionFilePath, null, null, null, null, this⟩ := by
    rw [newFunction, modifyGraph_function, modifyFunction_function, if_pos rfl]
  have hmem : ∀ v ∈ (h.newStatements sts).1,
      h.nextVertex ≤ v ∧ v < h.nextVertex + sts.length := by
    intro v hv
    rw [newStatements_fst, List.mem_range'_1] at hv
    exact hv
  have hgraph : ((h.newStatements sts).2.newFunction this functionId
      definitionFilePath).graph this = ⟨∅, ∅, 0⟩ := by
    rw [newFunction, modifyGraph_graph, if_pos rfl]
  exact
    { consistent := (hc.newStatements sts).newFunction _ _ _
      vertices_eq := by rw [hfunction, hgraph]
      edges_eq := by rw [hfunction, hgraph]
      nodup := by
        rw [newStatements_fst]
        exact List.nodup_range'
      ne_null := fun v hv => Nat.ne_of_gt
        (Nat.lt_of_lt_of_le hc.null_lt_nextVertex (hmem v hv).1)
      lt_nextVertex := fun v hv => by
        have hlt := (hmem v hv).2
        rw [← newStatements_nextVertex] at hlt
        exact hlt
      outEdges_eq := fun v hv =>
        (hc.newStatements_edges_empty sts (hmem v hv).1).1
      inEdges_eq := fun v hv =>
        (hc.newStatements_edges_empty sts (hmem v hv).1).2 }

/-- A file with one function, at the moment `CreateControlFlowGraph` is called
on it. -/
def singleFunction (sts : List Statement) : List VertexPtr × Heap :=
  let h := blank fun _ => ⟨.noOp, .unknown, null, ∅, ∅, 0⟩
  let news := h.newStatements (sts.map fun st => (st, .unknown))
  (news.1, news.2.newFunction 1 "f" "f.c")

theorem singleFunction_fresh (sts : List Statement) :
    (singleFunction sts).2.Fresh 1 (singleFunction sts).1 :=
  fresh_newFunction (blank_consistent _) 1 "f" "f.c" _

end Heap

end CoFlo.Ports
