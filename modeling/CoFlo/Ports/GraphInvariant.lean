import CoFlo.Ports.Graph

/-!
# The representation invariant of the pointer structure

The two edge sets of a vertex and the two end pointers of an edge state the
same incidence twice.  `Heap.Consistent` says that they agree, for every
vertex object and every edge object of the heap, and each mutating method
keeps it.  Under it `ReplaceVertex` is nothing but a renaming of edge ends
(`Consistent.vertexReplaced_source`, `Consistent.vertexReplaced_target`).
-/

namespace CoFlo.Ports

namespace Heap

/-- The edge sets and the end pointers agree, and no pointer leads outside of
what has been allocated. -/
structure Consistent (h : Heap) : Prop where
  mem_outEdges : ∀ v e,
    e ∈ (h.vertex v).outEdges ↔ (h.edge e).source = v ∧ v ≠ null
  mem_inEdges : ∀ v e,
    e ∈ (h.vertex v).inEdges ↔ (h.edge e).target = v ∧ v ≠ null
  source_eq_null : ∀ e, (h.edge e).source = null ↔ (h.edge e).target = null
  source_lt : ∀ e, (h.edge e).source < h.nextVertex
  target_lt : ∀ e, (h.edge e).target < h.nextVertex
  allocated : ∀ e, (h.edge e).source ≠ null → e ≠ null ∧ e < h.nextEdge
  edges_attached : ∀ g, ∀ e ∈ (h.graph g).edges, (h.edge e).source ≠ null
  edges_disjoint : ∀ g k, ∀ e ∈ (h.graph g).edges, e ∈ (h.graph k).edges → g = k
  nextEdge_ne_null : h.nextEdge ≠ null

namespace Consistent

variable {h : Heap} (hc : h.Consistent)

include hc

theorem outEdges_eq_empty {v : VertexPtr} (hv : h.nextVertex ≤ v) :
    (h.vertex v).outEdges = ∅ := by
  rw [Finset.eq_empty_iff_forall_notMem]
  intro e he
  have hlt := hc.source_lt e
  rw [((hc.mem_outEdges v e).mp he).1] at hlt
  exact Nat.not_lt.mpr hv hlt

theorem inEdges_eq_empty {v : VertexPtr} (hv : h.nextVertex ≤ v) :
    (h.vertex v).inEdges = ∅ := by
  rw [Finset.eq_empty_iff_forall_notMem]
  intro e he
  have hlt := hc.target_lt e
  rw [((hc.mem_inEdges v e).mp he).1] at hlt
  exact Nat.not_lt.mpr hv hlt

theorem nextEdge_source : (h.edge h.nextEdge).source = null := by
  by_contra hne
  exact Nat.lt_irrefl _ (hc.allocated _ hne).2

theorem nextEdge_target : (h.edge h.nextEdge).target = null :=
  (hc.source_eq_null _).mp hc.nextEdge_source

theorem source_eq_of_mem {v : VertexPtr} {e : EdgePtr}
    (he : e ∈ (h.vertex v).outEdges) : (h.edge e).source = v :=
  ((hc.mem_outEdges v e).mp he).1

theorem target_eq_of_mem {v : VertexPtr} {e : EdgePtr}
    (he : e ∈ (h.vertex v).inEdges) : (h.edge e).target = v :=
  ((hc.mem_inEdges v e).mp he).1

theorem target_ne_null_of_mem {v : VertexPtr} {e : EdgePtr}
    (he : e ∈ (h.vertex v).outEdges) : (h.edge e).target ≠ null := by
  obtain ⟨hsource, hv⟩ := (hc.mem_outEdges v e).mp he
  rw [Ne, ← hc.source_eq_null, hsource]
  exact hv

theorem source_ne_null_of_mem {v : VertexPtr} {e : EdgePtr}
    (he : e ∈ (h.vertex v).inEdges) : (h.edge e).source ≠ null := by
  obtain ⟨htarget, hv⟩ := (hc.mem_inEdges v e).mp he
  rw [Ne, hc.source_eq_null, htarget]
  exact hv

theorem nextEdge_notMem_outEdges (v : VertexPtr) :
    h.nextEdge ∉ (h.vertex v).outEdges := by
  intro he
  obtain ⟨hsource, hv⟩ := (hc.mem_outEdges v _).mp he
  exact hv (hsource.symm.trans hc.nextEdge_source)

theorem nextEdge_notMem_inEdges (v : VertexPtr) :
    h.nextEdge ∉ (h.vertex v).inEdges := by
  intro he
  obtain ⟨htarget, hv⟩ := (hc.mem_inEdges v _).mp he
  exact hv (htarget.symm.trans hc.nextEdge_target)

theorem null_lt_nextVertex : null < h.nextVertex := by
  have hlt := hc.source_lt h.nextEdge
  rwa [hc.nextEdge_source] at hlt

/-- The invariant reads the ends of the edges, the edge sets and the allocation
bounds only. -/
theorem congr_ends {h' : Heap}
    (hsource : ∀ e, (h'.edge e).source = (h.edge e).source)
    (htarget : ∀ e, (h'.edge e).target = (h.edge e).target)
    (hout : ∀ v, (h'.vertex v).outEdges = (h.vertex v).outEdges)
    (hin : ∀ v, (h'.vertex v).inEdges = (h.vertex v).inEdges)
    (hedges : ∀ g, (h'.graph g).edges = (h.graph g).edges)
    (hnextVertex : h.nextVertex ≤ h'.nextVertex)
    (hnextEdge : h'.nextEdge = h.nextEdge) : h'.Consistent where
  mem_outEdges v e := by rw [hout, hsource]; exact hc.mem_outEdges v e
  mem_inEdges v e := by rw [hin, htarget]; exact hc.mem_inEdges v e
  source_eq_null e := by rw [hsource, htarget]; exact hc.source_eq_null e
  source_lt e := by
    rw [hsource]; exact Nat.lt_of_lt_of_le (hc.source_lt e) hnextVertex
  target_lt e := by
    rw [htarget]; exact Nat.lt_of_lt_of_le (hc.target_lt e) hnextVertex
  allocated e := by rw [hsource, hnextEdge]; exact hc.allocated e
  edges_attached g e := by
    rw [hsource, hedges]; exact hc.edges_attached g e
  edges_disjoint g k e := by
    rw [hedges, hedges]; exact hc.edges_disjoint g k e
  nextEdge_ne_null := by rw [hnextEdge]; exact hc.nextEdge_ne_null

theorem congr {h' : Heap} (hedge : h'.edge = h.edge)
    (hout : ∀ v, (h'.vertex v).outEdges = (h.vertex v).outEdges)
    (hin : ∀ v, (h'.vertex v).inEdges = (h.vertex v).inEdges)
    (hedges : ∀ g, (h'.graph g).edges = (h.graph g).edges)
    (hnextVertex : h.nextVertex ≤ h'.nextVertex)
    (hnextEdge : h'.nextEdge = h.nextEdge) : h'.Consistent :=
  hc.congr_ends (fun e => by rw [hedge]) (fun e => by rw [hedge]) hout hin
    hedges hnextVertex hnextEdge

theorem markAsBackEdge (e : EdgePtr) (isBackEdge : Bool) :
    (h.markAsBackEdge e isBackEdge).Consistent := by
  refine hc.congr_ends (fun d => ?_) (fun d => ?_) (fun _ => rfl)
    (fun _ => rfl) (fun _ => rfl) (Nat.le_refl _) rfl
  · rw [markAsBackEdge_edge]
  · rw [markAsBackEdge_edge]

theorem newVertex_outEdges (statement : Statement) (location : Location)
    (v : VertexPtr) :
    ((h.newVertex statement location).2.vertex v).outEdges =
      (h.vertex v).outEdges := by
  simp only [Heap.newVertex, modifyVertex_vertex]
  split_ifs with hv
  · rw [hv, hc.outEdges_eq_empty (Nat.le_refl _)]
  · rfl

theorem newVertex_inEdges (statement : Statement) (location : Location)
    (v : VertexPtr) :
    ((h.newVertex statement location).2.vertex v).inEdges =
      (h.vertex v).inEdges := by
  simp only [Heap.newVertex, modifyVertex_vertex]
  split_ifs with hv
  · rw [hv, hc.inEdges_eq_empty (Nat.le_refl _)]
  · rfl

theorem newVertex (statement : Statement) (location : Location) :
    (h.newVertex statement location).2.Consistent :=
  hc.congr rfl (hc.newVertex_outEdges statement location)
    (hc.newVertex_inEdges statement location) (fun _ => rfl) (Nat.le_succ _)
    rfl

/-- Writing to the other fields of a vertex. -/
theorem modifyVertex (v : VertexPtr) {f : Vertex → Vertex}
    (hout : ∀ x, (f x).outEdges = x.outEdges)
    (hin : ∀ x, (f x).inEdges = x.inEdges) :
    (h.modifyVertex v f).Consistent := by
  refine hc.congr rfl (fun w => ?_) (fun w => ?_) (fun _ => rfl)
    (Nat.le_refl _) rfl
  · rw [modifyVertex_vertex]
    split_ifs with hw
    · rw [hout, hw]
    · rfl
  · rw [modifyVertex_vertex]
    split_ifs with hw
    · rw [hin, hw]
    · rfl

theorem modifyFunction (p : FunctionPtr) (f : Function → Function) :
    (h.modifyFunction p f).Consistent :=
  hc.congr rfl (fun _ => rfl) (fun _ => rfl) (fun _ => rfl) (Nat.le_refl _) rfl

theorem addNewEdge (g : GraphPtr) {s t : VertexPtr} (ty : EdgeType)
    (hs : s ≠ null) (ht : t ≠ null) (hslt : s < h.nextVertex)
    (htlt : t < h.nextVertex) : (h.addNewEdge g s t ty).Consistent where
  mem_outEdges v e := by
    rw [addNewEdge_vertex, addNewEdge_edge]
    have hold := hc.mem_outEdges v e
    have hnext := hc.nextEdge_notMem_outEdges v
    grind
  mem_inEdges v e := by
    rw [addNewEdge_vertex, addNewEdge_edge]
    have hold := hc.mem_inEdges v e
    have hnext := hc.nextEdge_notMem_inEdges v
    grind
  source_eq_null e := by
    rw [addNewEdge_edge]
    split_ifs
    · simp [hs, ht]
    · exact hc.source_eq_null e
  source_lt e := by
    rw [addNewEdge_edge]
    split_ifs
    · exact hslt
    · exact hc.source_lt e
  target_lt e := by
    rw [addNewEdge_edge]
    split_ifs
    · exact htlt
    · exact hc.target_lt e
  allocated e := by
    rw [addNewEdge_edge, addNewEdge_nextEdge]
    split_ifs with he
    · intro _
      rw [he]
      exact ⟨hc.nextEdge_ne_null, Nat.lt_succ_self _⟩
    · intro hsource
      exact ⟨(hc.allocated e hsource).1,
        Nat.lt_succ_of_lt (hc.allocated e hsource).2⟩
  edges_attached k e he := by
    rw [addNewEdge_edge]
    split_ifs with hnext
    · exact hs
    · rw [addNewEdge_graph] at he
      refine hc.edges_attached k e ?_
      grind
  edges_disjoint i k e hi hk := by
    have hnext : ∀ j, h.nextEdge ∉ (h.graph j).edges := fun j hj =>
      hc.edges_attached j _ hj hc.nextEdge_source
    rw [addNewEdge_graph] at hi hk
    have hdisjoint := hc.edges_disjoint i k e
    grind
  nextEdge_ne_null := by
    rw [addNewEdge_nextEdge]
    exact Nat.succ_ne_zero _

theorem vertexAdded (g : GraphPtr) (v : VertexPtr) :
    (h.vertexAdded g v).Consistent := by
  refine hc.congr rfl (fun w => ?_) (fun w => ?_) (fun k => ?_)
    (Nat.le_refl _) rfl
  · rw [vertexAdded_vertex]
  · rw [vertexAdded_vertex]
  · rw [vertexAdded_edges]

/-! ## `ReplaceVertex` renames edge ends -/

section vertexReplaced

variable (g : GraphPtr) {oldVertex newVertex : VertexPtr}

theorem vertexReplaced_source (hold : oldVertex ≠ null) (e : EdgePtr) :
    ((h.vertexReplaced g oldVertex newVertex).edge e).source =
      if (h.edge e).source = oldVertex then newVertex
      else (h.edge e).source := by
  rw [vertexReplaced_edge]
  have hmem := hc.mem_outEdges oldVertex e
  grind

theorem vertexReplaced_target (hold : oldVertex ≠ null) (e : EdgePtr) :
    ((h.vertexReplaced g oldVertex newVertex).edge e).target =
      if (h.edge e).target = oldVertex then newVertex
      else (h.edge e).target := by
  rw [vertexReplaced_edge]
  have hmem := hc.mem_inEdges oldVertex e
  grind

/-- A vertex object nothing points at yet may take over from another one. -/
theorem vertexReplaced (hold : oldVertex ≠ null) (hnew : newVertex ≠ null)
    (hlt : newVertex < h.nextVertex) (hne : oldVertex ≠ newVertex)
    (hout : (h.vertex newVertex).outEdges = ∅)
    (hin : (h.vertex newVertex).inEdges = ∅) :
    (h.vertexReplaced g oldVertex newVertex).Consistent where
  mem_outEdges v e := by
    rw [hc.vertexReplaced_source g hold, vertexReplaced_vertex h g hne]
    have hv := hc.mem_outEdges v e
    have hw := hc.mem_outEdges oldVertex e
    have hempty := hc.mem_outEdges newVertex e
    rw [hout] at hempty
    simp only [hout]
    grind
  mem_inEdges v e := by
    rw [hc.vertexReplaced_target g hold, vertexReplaced_vertex h g hne]
    have hv := hc.mem_inEdges v e
    have hw := hc.mem_inEdges oldVertex e
    have hempty := hc.mem_inEdges newVertex e
    rw [hin] at hempty
    simp only [hin]
    grind
  source_eq_null e := by
    rw [hc.vertexReplaced_source g hold, hc.vertexReplaced_target g hold]
    have hiff := hc.source_eq_null e
    grind
  source_lt e := by
    rw [hc.vertexReplaced_source g hold]
    split_ifs
    · exact hlt
    · exact hc.source_lt e
  target_lt e := by
    rw [hc.vertexReplaced_target g hold]
    split_ifs
    · exact hlt
    · exact hc.target_lt e
  allocated e := by
    rw [hc.vertexReplaced_source g hold, vertexReplaced_nextEdge]
    have hall := hc.allocated e
    grind
  edges_attached k e he := by
    rw [hc.vertexReplaced_source g hold]
    have hatt := hc.edges_attached k e
    rw [vertexReplaced_graph] at he
    grind
  edges_disjoint i k e hi hk := by
    rw [vertexReplaced_edges] at hi hk
    exact hc.edges_disjoint i k e hi hk
  nextEdge_ne_null := hc.nextEdge_ne_null

end vertexReplaced

end Consistent

/-! ## Vertex indices -/

/-- The vertices of `S` have been given different indices by `g`. -/
structure Indexed (h : Heap) (g : GraphPtr) (S : Set VertexPtr) : Prop where
  injOn : Set.InjOn (fun v => (h.vertex v).vertexIndex) S
  lt : ∀ v ∈ S, (h.vertex v).vertexIndex < (h.graph g).vertexIdState

namespace Indexed

variable {h : Heap} {g : GraphPtr} {S : Set VertexPtr} (hS : h.Indexed g S)

include hS

theorem congr {h' : Heap}
    (hindex : ∀ v ∈ S, (h'.vertex v).vertexIndex = (h.vertex v).vertexIndex)
    (hstate : (h.graph g).vertexIdState ≤ (h'.graph g).vertexIdState) :
    h'.Indexed g S where
  injOn v hv w hw heq := by
    simp only [hindex v hv, hindex w hw] at heq
    exact hS.injOn hv hw heq
  lt v hv := by
    rw [hindex v hv]
    exact Nat.lt_of_lt_of_le (hS.lt v hv) hstate

theorem subset {T : Set VertexPtr} (hT : T ⊆ S) : h.Indexed g T where
  injOn := hS.injOn.mono hT
  lt v hv := hS.lt v (hT hv)

/-- One more vertex, with the next index. -/
theorem insert {h' : Heap} {v : VertexPtr} (hv : v ∉ S)
    (hself : (h'.vertex v).vertexIndex = (h.graph g).vertexIdState)
    (hother : ∀ w, w ≠ v → (h'.vertex w).vertexIndex = (h.vertex w).vertexIndex)
    (hstate : (h'.graph g).vertexIdState = (h.graph g).vertexIdState + 1) :
    h'.Indexed g (Insert.insert v S) := by
  have hne : ∀ w ∈ S, w ≠ v := fun w hw heq => hv (heq ▸ hw)
  have hlt : ∀ w ∈ S, (h'.vertex w).vertexIndex < (h.graph g).vertexIdState := by
    intro w hw
    rw [hother w (hne w hw)]
    exact hS.lt w hw
  refine ⟨?_, ?_⟩
  · rintro u (rfl | hu) w (rfl | hw) heq
    · rfl
    · have hlast := hlt w hw
      rw [← hself] at hlast
      exact absurd heq.symm (Nat.ne_of_lt hlast)
    · have hlast := hlt u hu
      rw [← hself] at hlast
      exact absurd heq (Nat.ne_of_lt hlast)
    · simp only [hother u (hne u hu), hother w (hne w hw)] at heq
      exact hS.injOn hu hw heq
  · rintro w (rfl | hw)
    · rw [hself, hstate]
      exact Nat.lt_succ_self _
    · rw [hstate]
      exact Nat.lt_succ_of_lt (hlt w hw)

theorem vertexAdded {v : VertexPtr} (hv : v ∉ S) :
    (h.vertexAdded g v).Indexed g (Insert.insert v S) := by
  refine hS.insert hv ?_ (fun w hw => ?_) ?_
  · rw [vertexAdded_vertex]
    exact if_pos rfl
  · rw [vertexAdded_vertex]
    exact if_neg hw
  · rw [vertexAdded_graph, if_pos rfl]

theorem vertexReplaced {oldVertex newVertex : VertexPtr} (hnew : newVertex ∉ S) :
    (h.vertexReplaced g oldVertex newVertex).Indexed g
      (Insert.insert newVertex S) := by
  refine hS.insert hnew ?_ (fun w hw => ?_) ?_
  · rw [vertexReplaced_vertexIndex, if_pos rfl]
  · rw [vertexReplaced_vertexIndex, if_neg hw]
  · rw [vertexReplaced_graph, if_pos rfl]

end Indexed

end Heap

end CoFlo.Ports
