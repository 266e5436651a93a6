import CoFlo.Ports.ConnectedFlow
import CoFlo.Ports.Contraction
import CoFlo.Ports.WayOut

/-!
# `Function::CreateControlFlowGraph` as a whole

The phases put together.  A run goes wrong in `FixupBackEdges` or not at all;
`createControlFlowGraph_spec` takes a successful one apart into the four heaps
between its phases: `k` with all edges, `f` with the back edges fixed up, `c`
with the redundant vertices contracted, and `c` again with these vertices
removed.
-/

namespace CoFlo.Ports

open CoFlo.Verified.DepthFirstSearch Relation

namespace Heap

/-- `Function::CreateControlFlowGraph`.  The two passes at its end walk over
the graph in orders of their own. -/
def createControlFlowGraph (h : Heap)
    (fixupOrder removalOrder : IterationOrder) (this : FunctionPtr)
    (statementList : List VertexPtr) : Result Heap := do
  let h ← h.connectedFlow this statementList
  let cfg := (h.function this).theCfg
  let h ← h.fixupBackEdges fixupOrder cfg (h.function this).entryVertexDesc
  h.removeRedundantNodes removalOrder cfg

/-- Along an edge of the graph. -/
def EdgeStep (h : Heap) (g : GraphPtr) (u v : VertexPtr) : Prop :=
  ∃ e ∈ (h.graph g).edges, (h.edge e).source = u ∧ (h.edge e).target = v

end Heap

/-- A successful run, phase by phase. -/
structure CreateRun (k : Heap) (fixupOrder removalOrder : IterationOrder)
    (g : GraphPtr) (entry : VertexPtr) (f c h' : Heap) : Prop where
  fixedUp : Heap.FixedUp k fixupOrder g (k.searchRoots fixupOrder g entry) f
  contractsTo : Heap.ContractsTo g f (f.redundantVertices removalOrder g) c
  result : h' = (f.redundantVertices removalOrder g).foldl
    (fun h v => h.removeVertex g v) c

section

variable {h : Heap} {this : FunctionPtr} {l : List VertexPtr}
  {ρ : VertexPtr → VertexPtr} {k : Heap}

theorem FlowConnected.roots_owned (hf : h.Fresh this l)
    (hk : FlowConnected h this l ρ k) (order : IterationOrder) :
    ∀ r ∈ k.searchRoots order (h.function this).theCfg h.entryPtr,
      r ∈ h.owned l := by
  intro r hr
  rcases List.mem_cons.mp hr with rfl | hr
  · exact .inr (Nat.le_refl _)
  · exact hk.vertices_subset hf
      (Finset.mem_coe.mpr ((order.vertices.mem_enum _).mp hr))

/-- A run of `CreateControlFlowGraph` on the heap it has brought to `k`. -/
theorem createControlFlowGraph_spec (hf : h.Fresh this l)
    (hrun : h.connectedFlow this l = .ok k) (hk : FlowConnected h this l ρ k)
    (fixupOrder removalOrder : IterationOrder) :
    (k.NoWayOut fixupOrder
        (k.searchRoots fixupOrder (h.function this).theCfg h.entryPtr) ∧
      h.createControlFlowGraph fixupOrder removalOrder this l =
        .error ⟨.endDereference, k⟩) ∨
    (¬ k.NoWayOut fixupOrder
        (k.searchRoots fixupOrder (h.function this).theCfg h.entryPtr) ∧
      ∃ f c h', h.createControlFlowGraph fixupOrder removalOrder this l =
          .ok h' ∧
        CreateRun k fixupOrder removalOrder (h.function this).theCfg h.entryPtr
          f c h') := by
  obtain ⟨_, _, hfunction, _, _⟩ := hk.function
  have hcfg : (k.function this).theCfg = (h.function this).theCfg := by
    rw [hfunction, Function.update_self]
  have hentry : (k.function this).entryVertexDesc = h.entryPtr := by
    rw [hfunction, Function.update_self]
  unfold Heap.createControlFlowGraph
  rw [hrun]
  simp only [bind, Except.bind, hcfg, hentry]
  rcases hk.consistent.fixupBackEdges_spec fixupOrder (h.function this).theCfg
    h.entryPtr with ⟨hno, hfix⟩ | ⟨hno, f, hfix, hf'⟩
  · rw [hfix]
    exact .inl ⟨hno, rfl⟩
  · rw [hfix]
    refine .inr ⟨hno, f, ?_⟩
    have hM := hf'.encloses hk.consistent hk.encloses
      (hk.roots_owned hf fixupOrder)
    obtain ⟨c, hc, hremove⟩ := hf'.consistent.removeRedundantNodes_spec hM
      (fun v hv => hk.vertices_subset hf (by
        rw [← hf'.vertices]
        exact Finset.mem_coe.mpr hv)) removalOrder
    exact ⟨c, _, hremove, hf', hc, rfl⟩

end

namespace CreateRun

variable {k : Heap} {fixupOrder removalOrder : IterationOrder} {g : GraphPtr}
  {entry : VertexPtr} {f c h' : Heap}
  (hr : CreateRun k fixupOrder removalOrder g entry f c h')

include hr

theorem edge_eq : h'.edge = c.edge := by
  rw [hr.result]
  exact (Heap.foldl_removeVertex_frame c _).2.1

theorem edges_eq : (h'.graph g).edges = (c.graph g).edges := by
  rw [hr.result, Heap.foldl_removeVertex]

theorem function_eq : h'.function = k.function := by
  rw [hr.result, (Heap.foldl_removeVertex_frame c _).2.2.1,
    (hr.contractsTo.contracted hr.fixedUp.consistent).function,
    hr.fixedUp.function]

theorem mem_vertices (v : VertexPtr) : v ∈ (h'.graph g).vertices ↔
    v ∈ (k.graph g).vertices ∧ f.isRedundant v = false := by
  rw [hr.result, Heap.foldl_removeVertex]
  simp only [if_true, Finset.mem_filter, Heap.mem_redundantVertices, not_and,
    Bool.not_eq_true]
  rw [(hr.contractsTo.contracted hr.fixedUp.consistent).vertices,
    hr.fixedUp.vertices]
  tauto

/-- The contracted vertices. -/
theorem mem_removed (v : VertexPtr) :
    v ∈ f.redundantVertices removalOrder g ↔
      v ∈ (k.graph g).vertices ∧ f.isRedundant v = true := by
  rw [Heap.mem_redundantVertices, hr.fixedUp.vertices]

theorem notMem_removed {v : VertexPtr} (hv : f.isRedundant v = false) :
    v ∉ f.redundantVertices removalOrder g := by
  intro hmem
  rw [((hr.mem_removed v).mp hmem).2] at hv
  exact absurd hv (by decide)

/-- Contractions keep reachability, along all edges or along some of them. -/
theorem reflTransGen_iff {p : EdgePtr → Prop} (hp : f.PassesThrough p)
    {u w : VertexPtr} (hu : u ∉ f.redundantVertices removalOrder g)
    (hw : w ∉ f.redundantVertices removalOrder g) :
    ReflTransGen (h'.StepIn g p) u w ↔ ReflTransGen (f.StepIn g p) u w := by
  have hstep : h'.StepIn g p = c.StepIn g p := by
    funext u w
    rw [Heap.StepIn, Heap.StepIn, hr.edges_eq, hr.edge_eq]
  rw [hstep]
  exact hr.contractsTo.reflTransGen_iff hr.fixedUp.consistent hp hu hw

theorem edgeStep_iff {u w : VertexPtr}
    (hu : u ∉ f.redundantVertices removalOrder g)
    (hw : w ∉ f.redundantVertices removalOrder g) :
    ReflTransGen (h'.EdgeStep g) u w ↔ ReflTransGen (f.EdgeStep g) u w := by
  have hstep : ∀ x : Heap, x.StepIn g (fun _ => True) = x.EdgeStep g := by
    intro x
    funext u w
    simp [Heap.StepIn, Heap.EdgeStep]
  rw [← hstep, ← hstep]
  exact hr.reflTransGen_iff (fun _ _ _ _ _ _ => Iff.rfl) hu hw

end CreateRun

end CoFlo.Ports
