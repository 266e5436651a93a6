import CoFlo.Ports.GraphInvariant
import Mathlib.Data.Finset.Image
import Mathlib.Data.Multiset.Filter

/-!
# The arcs of a graph

An edge object matters to the flow of control only through its type and its
two ends.  `Heap.arcs` forgets the identity of the edges in `m_edges` and
keeps the multiset of these triples.  In this view `AddEdge` adds one arc and
`ReplaceVertex` renames a vertex.

`Encloses` says which vertices a graph speaks about: an edge is in `m_edges`
as soon as one of its ends is among them.  It is what allows reading the out-
and in-edges of a vertex off the arcs of the graph.
-/

namespace CoFlo.Ports

/-- What an edge says about the flow of control. -/
structure Arc where
  source : VertexPtr
  edgeType : EdgeType
  target : VertexPtr
  deriving DecidableEq

/-- Renames both ends. -/
def Arc.map (ρ : VertexPtr → VertexPtr) (a : Arc) : Arc :=
  ⟨ρ a.source, a.edgeType, ρ a.target⟩

@[simp] theorem Arc.map_id (a : Arc) : a.map id = a := rfl

/-- The vertex `v`, or `newVertex` when `v` is the one it replaces. -/
def renameVertex (oldVertex newVertex v : VertexPtr) : VertexPtr :=
  if v = oldVertex then newVertex else v

@[simp] theorem renameVertex_self (oldVertex newVertex : VertexPtr) :
    renameVertex oldVertex newVertex oldVertex = newVertex := if_pos rfl

theorem renameVertex_of_ne {oldVertex v : VertexPtr} (newVertex : VertexPtr)
    (hv : v ≠ oldVertex) : renameVertex oldVertex newVertex v = v := if_neg hv

/-- Exchanging one vertex of a renamed set for another. -/
theorem image_renameVertex {S : Finset VertexPtr} {ρ : VertexPtr → VertexPtr}
    {oldVertex newVertex v : VertexPtr} (hv : v ∈ S) (hρ : ρ v = oldVertex)
    (hne : oldVertex ≠ newVertex) :
    (insert newVertex (S.image ρ)).erase oldVertex =
      S.image (renameVertex oldVertex newVertex ∘ ρ) := by
  ext x
  simp only [Finset.mem_erase, Finset.mem_insert, Finset.mem_image,
    Function.comp_apply]
  constructor
  · rintro ⟨hx, rfl | ⟨u, hu, rfl⟩⟩
    · exact ⟨v, hv, by rw [hρ, renameVertex_self]⟩
    · exact ⟨u, hu, renameVertex_of_ne _ hx⟩
  · rintro ⟨u, hu, rfl⟩
    by_cases hold : ρ u = oldVertex
    · rw [hold, renameVertex_self]
      exact ⟨hne.symm, .inl rfl⟩
    · rw [renameVertex_of_ne _ hold]
      exact ⟨hold, .inr ⟨u, hu, rfl⟩⟩

namespace Heap

/-- The arc of an edge. -/
def arc (h : Heap) (e : EdgePtr) : Arc :=
  ⟨(h.edge e).source, (h.edge e).edgeType, (h.edge e).target⟩

/-- The arcs of the edges in `m_edges`. -/
def arcs (h : Heap) (g : GraphPtr) : Multiset Arc :=
  (h.graph g).edges.val.map h.arc

/-- The types and targets of the out-edges of a vertex. -/
def outArcs (h : Heap) (v : VertexPtr) : Multiset (EdgeType × VertexPtr) :=
  (h.vertex v).outEdges.val.map fun e =>
    ((h.edge e).edgeType, (h.edge e).target)

theorem card_outArcs (h : Heap) (v : VertexPtr) :
    (h.outArcs v).card = h.outDegree v := by
  simp [outArcs, outDegree]

/-- The edges of `g` are those that leave `M`, and those that enter it. -/
structure Encloses (h : Heap) (g : GraphPtr) (M : Set VertexPtr) : Prop where
  mem_edges_source : ∀ e, e ∈ (h.graph g).edges ↔ (h.edge e).source ∈ M
  mem_edges_target : ∀ e, e ∈ (h.graph g).edges ↔ (h.edge e).target ∈ M

namespace Consistent

variable {h : Heap} (hc : h.Consistent)

include hc

theorem nextEdge_notMem_edges (g : GraphPtr) :
    h.nextEdge ∉ (h.graph g).edges := by
  intro he
  exact hc.edges_attached g _ he hc.nextEdge_source

theorem arcs_addNewEdge (g : GraphPtr) (s t : VertexPtr) (ty : EdgeType) :
    (h.addNewEdge g s t ty).arcs g = ⟨s, ty, t⟩ ::ₘ h.arcs g := by
  have hnext := hc.nextEdge_notMem_edges g
  rw [arcs, addNewEdge_graph, if_pos rfl, Finset.insert_val,
    Multiset.ndinsert_of_notMem hnext, Multiset.map_cons, arcs]
  congr 1
  · simp [arc, addNewEdge_edge]
  · refine Multiset.map_congr rfl fun e he => ?_
    have hne : e ≠ h.nextEdge := fun heq => hnext (heq ▸ he)
    simp [arc, addNewEdge_edge, hne]

theorem arcs_vertexReplaced (g k : GraphPtr) {oldVertex newVertex : VertexPtr}
    (hold : oldVertex ≠ null) :
    (h.vertexReplaced g oldVertex newVertex).arcs k =
      (h.arcs k).map (Arc.map (renameVertex oldVertex newVertex)) := by
  rw [arcs, arcs, vertexReplaced_edges, Multiset.map_map]
  refine Multiset.map_congr rfl fun e _ => ?_
  simp only [arc, Arc.map, renameVertex, Function.comp_apply,
    hc.vertexReplaced_source g hold e, hc.vertexReplaced_target g hold e,
    vertexReplaced_edgeType]
  rfl

theorem null_notMem {g : GraphPtr} {M : Set VertexPtr} (hM : h.Encloses g M) :
    null ∉ M := by
  intro hmem
  have hnext := (hM.mem_edges_source h.nextEdge).mpr
    (hc.nextEdge_source ▸ hmem)
  exact hc.nextEdge_notMem_edges g hnext

/-- Out-edges read off the arcs of the graph. -/
theorem outArcs_eq {g : GraphPtr} {M : Set VertexPtr} (hM : h.Encloses g M)
    {v : VertexPtr} (hv : v ≠ null) (hvM : v ∈ M) :
    h.outArcs v =
      ((h.arcs g).filter (·.source = v)).map fun a => (a.edgeType, a.target) := by
  have hset : (h.vertex v).outEdges =
      (h.graph g).edges.filter fun e => (h.edge e).source = v := by
    ext e
    rw [hc.mem_outEdges, Finset.mem_filter, hM.mem_edges_source]
    constructor
    · rintro ⟨hsource, _⟩
      exact ⟨hsource ▸ hvM, hsource⟩
    · rintro ⟨_, hsource⟩
      exact ⟨hsource, hv⟩
  rw [outArcs, hset, Finset.filter_val, arcs, Multiset.filter_map,
    Multiset.map_map]
  rfl

/-- The in-degree read off the arcs of the graph. -/
theorem inDegree_eq {g : GraphPtr} {M : Set VertexPtr} (hM : h.Encloses g M)
    {v : VertexPtr} (hv : v ≠ null) (hvM : v ∈ M) :
    h.inDegree v = (h.arcs g).countP (·.target = v) := by
  have hset : (h.vertex v).inEdges =
      (h.graph g).edges.filter fun e => (h.edge e).target = v := by
    ext e
    rw [hc.mem_inEdges, Finset.mem_filter, hM.mem_edges_target]
    constructor
    · rintro ⟨htarget, _⟩
      exact ⟨htarget ▸ hvM, htarget⟩
    · rintro ⟨_, htarget⟩
      exact ⟨htarget, hv⟩
  rw [inDegree, hset, arcs, Multiset.countP_map]
  rfl

end Consistent

namespace Encloses

variable {h : Heap} {g : GraphPtr} {M : Set VertexPtr} (hM : h.Encloses g M)

include hM

theorem addNewEdge {s t : VertexPtr} (ty : EdgeType) (hs : s ∈ M) (ht : t ∈ M) :
    (h.addNewEdge g s t ty).Encloses g M where
  mem_edges_source e := by
    rw [addNewEdge_edges_self, addNewEdge_edge, Finset.mem_insert]
    have hold := hM.mem_edges_source e
    split_ifs with he
    · simp [he, hs]
    · simpa [he] using hold
  mem_edges_target e := by
    rw [addNewEdge_edges_self, addNewEdge_edge, Finset.mem_insert]
    have hold := hM.mem_edges_target e
    split_ifs with he
    · simp [he, ht]
    · simpa [he] using hold

theorem vertexReplaced (hc : h.Consistent) {oldVertex newVertex : VertexPtr}
    (hold : oldVertex ≠ null) (holdM : oldVertex ∈ M) (hnewM : newVertex ∈ M) :
    (h.vertexReplaced g oldVertex newVertex).Encloses g M where
  mem_edges_source e := by
    rw [hc.vertexReplaced_source g hold, vertexReplaced_edges]
    have hiff := hM.mem_edges_source e
    split_ifs with he
    · rw [he] at hiff
      exact hiff.trans (iff_of_true holdM hnewM)
    · exact hiff
  mem_edges_target e := by
    rw [hc.vertexReplaced_target g hold, vertexReplaced_edges]
    have hiff := hM.mem_edges_target e
    split_ifs with he
    · rw [he] at hiff
      exact hiff.trans (iff_of_true holdM hnewM)
    · exact hiff

/-- The smaller set does as well when no edge leads out of it. -/
theorem subset {N : Set VertexPtr} (hN : N ⊆ M)
    (hends : ∀ e ∈ (h.graph g).edges,
      (h.edge e).source ∈ N ∧ (h.edge e).target ∈ N) : h.Encloses g N where
  mem_edges_source e :=
    ⟨fun he => (hends e he).1, fun he => (hM.mem_edges_source e).mpr (hN he)⟩
  mem_edges_target e :=
    ⟨fun he => (hends e he).2, fun he => (hM.mem_edges_target e).mpr (hN he)⟩

theorem congr {h' : Heap} (hedge : h'.edge = h.edge)
    (hedges : (h'.graph g).edges = (h.graph g).edges) : h'.Encloses g M where
  mem_edges_source e := by rw [hedge, hedges]; exact hM.mem_edges_source e
  mem_edges_target e := by rw [hedge, hedges]; exact hM.mem_edges_target e

end Encloses

theorem arcs_congr {h h' : Heap} {g : GraphPtr} (hedge : h'.edge = h.edge)
    (hedges : (h'.graph g).edges = (h.graph g).edges) : h'.arcs g = h.arcs g := by
  have harc : h'.arc = h.arc := by
    funext e
    simp only [arc, hedge]
  rw [arcs, arcs, harc, hedges]

/-- From `h` to `k` only the graph `g` has been written to, and only edges
between vertices of `M`: no other edge has changed, no other has been added,
and no other vertex has been put into a graph. -/
structure Confined (h : Heap) (g : GraphPtr) (M : Set VertexPtr) (k : Heap) :
    Prop where
  nextEdge_le : h.nextEdge ≤ k.nextEdge
  graph : ∀ i, i ≠ g → k.graph i = h.graph i
  vertexIndex : ∀ v, v ∉ M → (k.vertex v).vertexIndex = (h.vertex v).vertexIndex
  old : ∀ e, e < h.nextEdge → (h.edge e).source ∉ M → (h.edge e).target ∉ M →
    k.edge e = h.edge e
  new : ∀ e, (k.edge e).source ∉ M → (k.edge e).target ∉ M →
    k.edge e = h.edge e ∨ (k.edge e).source = null

namespace Confined

variable {h k : Heap} {g : GraphPtr} {M : Set VertexPtr}

theorem refl (h : Heap) (g : GraphPtr) (M : Set VertexPtr) :
    h.Confined g M h where
  nextEdge_le := Nat.le_refl _
  graph _ _ := rfl
  vertexIndex _ _ := rfl
  old _ _ _ _ := rfl
  new _ _ _ := .inl rfl

theorem trans {k' : Heap} (hk : h.Confined g M k) (hk' : k.Confined g M k') :
    h.Confined g M k' where
  nextEdge_le := Nat.le_trans hk.nextEdge_le hk'.nextEdge_le
  graph i hi := (hk'.graph i hi).trans (hk.graph i hi)
  vertexIndex v hv := (hk'.vertexIndex v hv).trans (hk.vertexIndex v hv)
  old e he hsource htarget := by
    have hedge := hk.old e he hsource htarget
    rw [← hedge] at hsource htarget
    rw [← hedge]
    exact hk'.old e (Nat.lt_of_lt_of_le he hk.nextEdge_le) hsource htarget
  new e hsource htarget := by
    rcases hk'.new e hsource htarget with hedge | hnull
    · rw [hedge] at hsource htarget ⊢
      exact hk.new e hsource htarget
    · exact .inr hnull

/-- Whatever else is written to the vertices, the functions and the graph
`g`. -/
theorem congr {k' : Heap} (hk : h.Confined g M k) (hedge : k'.edge = k.edge)
    (hgraph : ∀ i, i ≠ g → k'.graph i = k.graph i)
    (hindex : ∀ v, v ∉ M →
      (k'.vertex v).vertexIndex = (k.vertex v).vertexIndex)
    (hnextEdge : k'.nextEdge = k.nextEdge) : h.Confined g M k' where
  nextEdge_le := hnextEdge ▸ hk.nextEdge_le
  graph i hi := (hgraph i hi).trans (hk.graph i hi)
  vertexIndex v hv := (hindex v hv).trans (hk.vertexIndex v hv)
  old := hedge ▸ hk.old
  new := hedge ▸ hk.new

theorem addNewEdge (hk : h.Confined g M k) {s : VertexPtr} (t : VertexPtr)
    (ty : EdgeType) (hs : s ∈ M) : h.Confined g M (k.addNewEdge g s t ty) where
  nextEdge_le := by
    rw [addNewEdge_nextEdge]
    exact Nat.le_succ_of_le hk.nextEdge_le
  graph i hi := by
    rw [addNewEdge_graph, if_neg hi]
    exact hk.graph i hi
  vertexIndex v hv := by
    rw [addNewEdge_vertexIndex]
    exact hk.vertexIndex v hv
  old e he hsource htarget := by
    have hne : e ≠ k.nextEdge :=
      Nat.ne_of_lt (Nat.lt_of_lt_of_le he hk.nextEdge_le)
    rw [addNewEdge_edge, if_neg hne]
    exact hk.old e he hsource htarget
  new e hsource htarget := by
    rw [addNewEdge_edge] at hsource htarget ⊢
    split_ifs at hsource htarget ⊢ with he
    · exact absurd hs hsource
    · exact hk.new e hsource htarget

theorem vertexReplaced (hk : h.Confined g M k) (hc : k.Consistent)
    {oldVertex newVertex : VertexPtr} (hne : oldVertex ≠ null)
    (hold : oldVertex ∈ M) (hnew : newVertex ∈ M) :
    h.Confined g M (k.vertexReplaced g oldVertex newVertex) := by
  have hends : ∀ e, (k.edge e).source ≠ oldVertex →
      (k.edge e).target ≠ oldVertex →
        (k.vertexReplaced g oldVertex newVertex).edge e = k.edge e := by
    intro e hsource htarget
    rw [vertexReplaced_edge, if_neg, if_neg]
    · exact fun hmem => htarget (hc.target_eq_of_mem hmem)
    · exact fun hmem => hsource (hc.source_eq_of_mem hmem)
  refine ⟨hk.nextEdge_le, fun i hi => ?_, fun v hv => ?_,
    fun e he hsource htarget => ?_, fun e hsource htarget => ?_⟩
  · rw [vertexReplaced_graph, if_neg hi]
    exact hk.graph i hi
  · rw [vertexReplaced_vertexIndex, if_neg fun heq : v = newVertex => hv (heq ▸ hnew)]
    exact hk.vertexIndex v hv
  · have hedge := hk.old e he hsource htarget
    rw [hends e, hedge]
    · rw [hedge]
      exact fun heq => hsource (heq ▸ hold)
    · rw [hedge]
      exact fun heq => htarget (heq ▸ hold)
  · rw [hc.vertexReplaced_source g hne] at hsource
    rw [hc.vertexReplaced_target g hne] at htarget
    have hs : (k.edge e).source ≠ oldVertex := by
      intro heq
      rw [if_pos heq] at hsource
      exact hsource hnew
    have ht : (k.edge e).target ≠ oldVertex := by
      intro heq
      rw [if_pos heq] at htarget
      exact htarget hnew
    rw [if_neg hs] at hsource
    rw [if_neg ht] at htarget
    rw [hends e hs ht]
    exact hk.new e hsource htarget

end Confined

end Heap

end CoFlo.Ports
