import CoFlo.Ports.GraphOperations

/-!
# Undoing an addition, and being refused one

`RemoveEdge` takes back what `AddEdge` did: edges that were added between
vertices of a graph, parallel ones and self edges among them, can be removed in
any order, and the heap is then the one it was before
(`removeEdges_addEdges`).

`AddVertex` is refused a vertex that is in the graph already, but has given it
a new index by then (`rejectedAdd_changes`).
-/

namespace CoFlo.Ports

namespace Heap

/-- Heaps are equal when everything in them is. -/
theorem eq_of_fields {h k : Heap} (hvertex : ∀ v, h.vertex v = k.vertex v)
    (hedge : ∀ e, h.edge e = k.edge e) (hgraph : ∀ g, h.graph g = k.graph g)
    (hfunction : h.function = k.function)
    (hnextVertex : h.nextVertex = k.nextVertex)
    (hnextEdge : h.nextEdge = k.nextEdge) : h = k := by
  cases h
  cases k
  congr
  · exact funext hvertex
  · exact funext hedge
  · exact funext hgraph

/-! ## Removal undoes addition -/

/-- The arguments of an `AddEdge`. -/
structure Attachment where
  source : VertexPtr
  target : VertexPtr
  edge : EdgePtr
  deriving DecidableEq, Repr

variable (h : Heap) (g : GraphPtr)

/-- One `AddEdge` after the other. -/
def addEdges (attachments : List Attachment) : Heap :=
  attachments.foldl (fun h a => h.addEdge g a.source a.target a.edge) h

/-- One `RemoveEdge` after the other. -/
def removeEdges (edges : List EdgePtr) : Result Heap :=
  edges.foldlM (fun h e => h.removeEdge g e) h

/-- An edge that is nowhere in the graph `g`. -/
structure Unattached (e : EdgePtr) : Prop where
  source : (h.edge e).source = null
  target : (h.edge e).target = null
  notMem_edges : e ∉ (h.graph g).edges
  notMem_outEdges : ∀ v ∈ (h.graph g).vertices, e ∉ (h.vertex v).outEdges
  notMem_inEdges : ∀ v ∈ (h.graph g).vertices, e ∉ (h.vertex v).inEdges

variable {h g}

/-- In a consistent graph an edge without ends is in no edge set. -/
theorem GraphConsistent.unattached (hg : h.GraphConsistent g)
    (hnull : null ∉ (h.graph g).vertices) {e : EdgePtr}
    (hsource : (h.edge e).source = null) (htarget : (h.edge e).target = null) :
    h.Unattached g e := by
  have hnotMem : e ∉ (h.graph g).edges := fun he =>
    hnull (hsource ▸ hg.source_mem e he)
  exact ⟨hsource, htarget, hnotMem,
    fun v hv he => hnotMem (hg.outEdges_subset v hv he),
    fun v hv he => hnotMem (hg.inEdges_subset v hv he)⟩

@[simp] theorem addEdge_vertices (s t : VertexPtr) (e : EdgePtr) (k : GraphPtr) :
    ((h.addEdge g s t e).graph k).vertices = (h.graph k).vertices := by
  rw [addEdge_graph]

/-- Adding another edge leaves an edge as it is. -/
theorem Unattached.addEdge {e d : EdgePtr} (he : h.Unattached g e)
    (hne : e ≠ d) (s t : VertexPtr) : (h.addEdge g s t d).Unattached g e where
  source := by
    rw [addEdge_edge, if_neg hne]
    exact he.source
  target := by
    rw [addEdge_edge, if_neg hne]
    exact he.target
  notMem_edges := by
    rw [addEdge_graph]
    simpa [hne] using he.notMem_edges
  notMem_outEdges v hv := by
    rw [addEdge_vertices] at hv
    rw [addEdge_vertex]
    dsimp only
    split_ifs
    · rw [Finset.mem_insert, not_or]
      exact ⟨hne, he.notMem_outEdges v hv⟩
    · exact he.notMem_outEdges v hv
  notMem_inEdges v hv := by
    rw [addEdge_vertices] at hv
    rw [addEdge_vertex]
    dsimp only
    split_ifs
    · rw [Finset.mem_insert, not_or]
      exact ⟨hne, he.notMem_inEdges v hv⟩
    · exact he.notMem_inEdges v hv

/-- Removing the edge that was added last. -/
theorem edgeRemoved_addEdge_self {s t : VertexPtr} {e : EdgePtr}
    (he : h.Unattached g e) (hs : s ∈ (h.graph g).vertices)
    (ht : t ∈ (h.graph g).vertices) :
    (h.addEdge g s t e).edgeRemoved g e = h := by
  have hself : (h.addEdge g s t e).edge e =
      { h.edge e with source := s, target := t } := by
    rw [addEdge_edge, if_pos rfl]
  refine eq_of_fields (fun v => ?_) (fun d => ?_) (fun k => ?_) rfl rfl rfl
  · rw [edgeRemoved_vertex, hself, addEdge_vertex]
    have hout := he.notMem_outEdges s hs
    have hin := he.notMem_inEdges t ht
    by_cases hvs : v = s <;> by_cases hvt : v = t <;>
      simp_all
  · rw [edgeRemoved_edge, addEdge_edge]
    split_ifs with hd
    · subst hd
      exact Edge.ext he.source.symm he.target.symm rfl rfl
    · rfl
  · rw [edgeRemoved_graph, addEdge_graph]
    by_cases hk : k = g
    · subst hk
      simp [Finset.erase_insert he.notMem_edges]
    · simp [hk]

/-- Removing an edge and adding another one commute. -/
theorem edgeRemoved_addEdge_of_ne {s t : VertexPtr} {d e : EdgePtr}
    (hne : e ≠ d) : (h.addEdge g s t d).edgeRemoved g e =
      (h.edgeRemoved g e).addEdge g s t d := by
  have hedge : (h.addEdge g s t d).edge e = h.edge e := by
    rw [addEdge_edge, if_neg hne]
  refine eq_of_fields (fun v => ?_) (fun c => ?_) (fun k => ?_) rfl rfl rfl
  · rw [edgeRemoved_vertex, hedge, addEdge_vertex, addEdge_vertex,
      edgeRemoved_vertex]
    dsimp only
    split_ifs <;> simp [Finset.erase_insert_of_ne hne.symm]
  · rw [edgeRemoved_edge, addEdge_edge, addEdge_edge, edgeRemoved_edge]
    by_cases hce : c = e
    · simp [hce, hne]
    · simp [hce]
  · rw [edgeRemoved_graph, addEdge_graph, addEdge_graph, edgeRemoved_graph]
    dsimp only
    split_ifs
    · rw [Finset.erase_insert_of_ne hne.symm]
    · rfl

section attachments

variable {l : List Attachment}

@[simp] theorem addEdges_cons (a : Attachment) (l : List Attachment) :
    h.addEdges g (a :: l) =
      (h.addEdge g a.source a.target a.edge).addEdges g l := rfl

/-- An edge that is not among the added ones. -/
theorem addEdges_edge_of_notMem {e : EdgePtr}
    (he : e ∉ l.map Attachment.edge) : (h.addEdges g l).edge e = h.edge e := by
  induction l generalizing h with
  | nil => rfl
  | cons a l ih =>
      rw [List.map_cons, List.mem_cons, not_or] at he
      rw [addEdges_cons, ih he.2, addEdge_edge, if_neg he.1]

/-- An edge that is among them. -/
theorem addEdges_edge_of_mem (hl : (l.map Attachment.edge).Nodup)
    {a : Attachment} (ha : a ∈ l) : (h.addEdges g l).edge a.edge =
      { h.edge a.edge with source := a.source, target := a.target } := by
  induction l generalizing h with
  | nil => exact absurd ha List.not_mem_nil
  | cons b l ih =>
      rw [List.map_cons, List.nodup_cons] at hl
      rw [addEdges_cons]
      rcases List.mem_cons.mp ha with rfl | hal
      · rw [addEdges_edge_of_notMem hl.1, addEdge_edge, if_pos rfl]
      · have hne : a.edge ≠ b.edge := fun heq =>
          hl.1 (heq ▸ List.mem_map_of_mem hal)
        rw [ih hl.2 hal, addEdge_edge, if_neg hne]

theorem edgeRemoved_addEdges_of_notMem {e : EdgePtr}
    (he : e ∉ l.map Attachment.edge) : (h.addEdges g l).edgeRemoved g e =
      (h.edgeRemoved g e).addEdges g l := by
  induction l generalizing h with
  | nil => rfl
  | cons a l ih =>
      rw [List.map_cons, List.mem_cons, not_or] at he
      rw [addEdges_cons, ih he.2, edgeRemoved_addEdge_of_ne he.1, addEdges_cons]

/-- Removing an added edge leaves the heap with the others. -/
theorem edgeRemoved_addEdges (hl : (l.map Attachment.edge).Nodup)
    {a : Attachment} (ha : a ∈ l) (hedge : h.Unattached g a.edge)
    (hs : a.source ∈ (h.graph g).vertices)
    (ht : a.target ∈ (h.graph g).vertices) :
    (h.addEdges g l).edgeRemoved g a.edge = h.addEdges g (l.erase a) := by
  induction l generalizing h with
  | nil => exact absurd ha List.not_mem_nil
  | cons b l ih =>
      rw [List.map_cons, List.nodup_cons] at hl
      by_cases hba : b = a
      · subst hba
        rw [List.erase_cons_head, addEdges_cons,
          edgeRemoved_addEdges_of_notMem hl.1, edgeRemoved_addEdge_self hedge hs ht]
      · have hal : a ∈ l := (List.mem_cons.mp ha).resolve_left fun h => hba h.symm
        have hne : a.edge ≠ b.edge := fun heq =>
          hl.1 (heq ▸ List.mem_map_of_mem hal)
        rw [List.erase_cons_tail (by simpa using hba), addEdges_cons, addEdges_cons]
        refine ih hl.2 hal (hedge.addEdge hne _ _) ?_ ?_
        · rw [addEdge_vertices]
          exact hs
        · rw [addEdge_vertices]
          exact ht

/-- Some of the added edges are removed: the heap is left with the others. -/
theorem removeEdges_addEdges_of_subperm (hnull : null ∉ (h.graph g).vertices)
    {l : List Attachment} (hdistinct : (l.map Attachment.edge).Nodup)
    (hunattached : ∀ a ∈ l, h.Unattached g a.edge)
    (hends : ∀ a ∈ l, a.source ∈ (h.graph g).vertices ∧
      a.target ∈ (h.graph g).vertices) {edges rest : List EdgePtr}
    (hperm : (edges ++ rest).Perm (l.map Attachment.edge)) :
    ∃ l' ⊆ l, rest.Perm (l'.map Attachment.edge) ∧
      (h.addEdges g l).removeEdges g edges = .ok (h.addEdges g l') := by
  induction edges generalizing l with
  | nil => exact ⟨l, fun _ ha => ha, hperm, rfl⟩
  | cons e edges ih =>
      obtain ⟨a, ha, rfl⟩ : ∃ a ∈ l, a.edge = e :=
        List.mem_map.mp (hperm.subset List.mem_cons_self)
      have herase : ∀ b ∈ l.erase a, b ∈ l := fun b hb => List.mem_of_mem_erase hb
      have hedge := addEdges_edge_of_mem (h := h) (g := g) hdistinct ha
      have hremove : (h.addEdges g l).removeEdge g a.edge =
          .ok (h.addEdges g (l.erase a)) := by
        rw [removeEdge_eq_ok, edgeRemoved_addEdges hdistinct ha
          (hunattached a ha) (hends a ha).1 (hends a ha).2]
        · rw [hedge]
          exact fun hsource => hnull (hsource ▸ (hends a ha).1)
        · rw [hedge]
          exact fun htarget => hnull (htarget ▸ (hends a ha).2)
      have hperm' : (edges ++ rest).Perm ((l.erase a).map Attachment.edge) := by
        have hcons := hperm.trans ((List.perm_cons_erase ha).map Attachment.edge)
        exact List.Perm.cons_inv hcons
      have hdistinct' : ((l.erase a).map Attachment.edge).Nodup :=
        hdistinct.sublist (List.erase_sublist.map _)
      obtain ⟨l', hsub, hrest, hrun⟩ := ih hdistinct'
        (fun b hb => hunattached b (herase b hb)) (fun b hb => hends b (herase b hb))
        hperm'
      refine ⟨l', fun b hb => herase b (hsub hb), hrest, ?_⟩
      unfold removeEdges at hrun ⊢
      rw [List.foldlM_cons, hremove]
      exact hrun

end attachments

end Heap

open Heap

/-- Edges that were added between vertices of a graph can be removed again in
any order.  On the way no other edge is changed, and at the end nothing is. -/
theorem removeEdges_addEdges {h : Heap} {g : GraphPtr}
    (hg : h.GraphConsistent g) (hnull : null ∉ (h.graph g).vertices)
    {l : List Attachment} (hdistinct : (l.map Attachment.edge).Nodup)
    (hunattached : ∀ a ∈ l,
      (h.edge a.edge).source = null ∧ (h.edge a.edge).target = null)
    (hends : ∀ a ∈ l, a.source ∈ (h.graph g).vertices ∧
      a.target ∈ (h.graph g).vertices) {edges : List EdgePtr}
    (hperm : edges.Perm (l.map Attachment.edge)) :
    (h.addEdges g l).removeEdges g edges = .ok h ∧
      ∀ removed, removed <+: edges →
        ∃ k, (h.addEdges g l).removeEdges g removed = .ok k ∧
          (k.graph g).vertices = (h.graph g).vertices ∧
            ∀ e, e ∉ l.map Attachment.edge → k.edge e = h.edge e := by
  have hfree : ∀ a ∈ l, h.Unattached g a.edge := fun a ha =>
    hg.unattached hnull (hunattached a ha).1 (hunattached a ha).2
  refine ⟨?_, ?_⟩
  · have hperm' : (edges ++ []).Perm (l.map Attachment.edge) := by
      rwa [List.append_nil]
    obtain ⟨l', _, hrest, hrun⟩ :=
      removeEdges_addEdges_of_subperm hnull hdistinct hfree hends hperm'
    have hnil : l' = [] := List.map_eq_nil_iff.mp hrest.symm.eq_nil
    rw [hrun, hnil]
    rfl
  · rintro removed ⟨rest, rfl⟩
    obtain ⟨l', hsub, _, hrun⟩ :=
      removeEdges_addEdges_of_subperm hnull hdistinct hfree hends hperm
    refine ⟨_, hrun, ?_, fun e he => addEdges_edge_of_notMem fun hmem => ?_⟩
    · have hvertices : ∀ (k : Heap) (as : List Attachment),
          ((k.addEdges g as).graph g).vertices = (k.graph g).vertices := by
        intro k as
        induction as generalizing k with
        | nil => rfl
        | cons a as ih => rw [addEdges_cons, ih, addEdge_vertices]
      exact hvertices h l'
    · obtain ⟨a, ha, rfl⟩ := List.mem_map.mp hmem
      exact he (List.mem_map_of_mem (hsub ha))

/-- A graph with two vertices and an edge. -/
def smallGraph : List (GraphPtr × GraphOperation) :=
  [(1, .addVertex 1), (1, .addVertex 2), (1, .addEdge 1 2 1)]

/-- The heap `smallGraph` is run on. -/
def emptyHeap : Heap := Heap.blank fun _ => ⟨.noOp, .unknown, null, ∅, ∅, 0⟩

theorem smallGraph_run : ∃ h, smallGraph.foldlM GraphOperation.step emptyHeap =
    .ok h ∧ GraphsInvariant (fun _ => 1) h ∧ (h.graph 1).vertices = {1, 2} ∧
      ∀ e ∈ [2, 3, 4], (h.edge e).source = null ∧ (h.edge e).target = null := by
  have hops : GraphOperation.AllAllowed (fun _ => 1) emptyHeap smallGraph := by
    decide +kernel
  have hcheck : (smallGraph.foldlM GraphOperation.step emptyHeap).Holds fun h =>
      (h.graph 1).vertices = {1, 2} ∧ ∀ e ∈ [2, 3, 4],
        (h.edge e).source = null ∧ (h.edge e).target = null := by
    decide +kernel
  obtain ⟨h, hrun, hi⟩ := (GraphsInvariant.empty fun _ => ⟨rfl, rfl⟩).run hops
  obtain ⟨h', hrun', hvertices, hedges⟩ := hcheck
  obtain rfl := Except.ok.inj (hrun.symm.trans hrun')
  exact ⟨h, hrun, hi, hvertices, hedges⟩

/-- Two parallel edges and a self edge, removed in another order. -/
theorem removeEdges_addEdges_smallGraph :
    ∃ h, smallGraph.foldlM GraphOperation.step emptyHeap = .ok h ∧
      (h.addEdges 1 [⟨1, 2, 2⟩, ⟨1, 2, 3⟩, ⟨2, 2, 4⟩]).removeEdges 1 [3, 4, 2] =
        .ok h := by
  obtain ⟨h, hrun, hi, hvertices, hedges⟩ := smallGraph_run
  refine ⟨h, hrun, (removeEdges_addEdges (hi.consistent 1) ?_ (by decide)
    (by simpa using hedges) ?_ (by decide)).1⟩
  · rw [hvertices]
    decide
  · rw [hvertices]
    decide

/-! ## A rejected add -/

/-- The graph `g`, its vertices and its edges are as they were. -/
structure Unchanged (h : Heap) (g : GraphPtr) (k : Heap) : Prop where
  vertices : (k.graph g).vertices = (h.graph g).vertices
  edges : (k.graph g).edges = (h.graph g).edges
  vertexIdState : (k.graph g).vertexIdState = (h.graph g).vertexIdState
  outEdges : ∀ v, (k.vertex v).outEdges = (h.vertex v).outEdges
  inEdges : ∀ v, (k.vertex v).inEdges = (h.vertex v).inEdges
  vertexIndex : ∀ v, (k.vertex v).vertexIndex = (h.vertex v).vertexIndex
  source : ∀ e, (k.edge e).source = (h.edge e).source
  target : ∀ e, (k.edge e).target = (h.edge e).target

/-- An add is rejected for a vertex that is in the graph, after the vertex has
been given an index. -/
theorem run_eq_duplicateAdd {h k : Heap} {g : GraphPtr} {op : GraphOperation}
    (hrun : op.run h g = .error ⟨.duplicateAdd, k⟩) :
    ∃ v ∈ (h.graph g).vertices, k = h.assignAVertexIndexToVertex g v ∧
      (op = .addVertex v ∨ ∃ oldVertex, op = .replaceVertex oldVertex v) := by
  cases op with
  | addVertex v =>
      have hcall : h.addVertex g v = .error ⟨.duplicateAdd, k⟩ := hrun
      by_cases hv : v ∈ (h.graph g).vertices
      · rw [addVertex_eq_error hv] at hcall
        injection hcall with hcall
        injection hcall with _ hk
        exact ⟨v, hv, hk.symm, .inl rfl⟩
      · rw [addVertex_eq_ok hv] at hcall
        exact absurd hcall (by simp)
  | replaceVertex oldVertex newVertex =>
      have hcall : h.replaceVertex g oldVertex newVertex =
        .error ⟨.duplicateAdd, k⟩ := hrun
      by_cases hv : newVertex ∈ (h.graph g).vertices
      · unfold replaceVertex at hcall
        rw [addVertex_eq_error hv] at hcall
        injection hcall with hcall
        injection hcall with _ hk
        exact ⟨newVertex, hv, hk.symm, .inr ⟨oldVertex, rfl⟩⟩
      · rw [replaceVertex_eq_ok hv] at hcall
        exact absurd hcall (by simp)
  | removeEdge e =>
      unfold GraphOperation.run removeEdge at hrun
      dsimp only at hrun
      split_ifs at hrun
      · exact absurd hrun (by simp)
      · exact absurd hrun (by simp)
  | _ => exact absurd hrun (by simp [GraphOperation.run])

/-- Every rejected add has drawn an id and written it to the vertex that was in
the graph already; nothing else is changed. -/
theorem rejectedAdd_changes {h k : Heap} {g : GraphPtr} {op : GraphOperation}
    (hrun : op.run h g = .error ⟨.duplicateAdd, k⟩) :
    ¬ Unchanged h g k ∧ ∃ v ∈ (h.graph g).vertices,
      (op = .addVertex v ∨ ∃ oldVertex, op = .replaceVertex oldVertex v) ∧
        (∀ i, k.graph i = { h.graph i with
          vertexIdState := if i = g then (h.graph g).vertexIdState + 1
            else (h.graph i).vertexIdState }) ∧
        (∀ w, k.vertex w = { h.vertex w with
          vertexIndex := if w = v then (h.graph g).vertexIdState
            else (h.vertex w).vertexIndex }) ∧
        k.edge = h.edge := by
  obtain ⟨v, hv, rfl, hop⟩ := run_eq_duplicateAdd hrun
  have hgraph : ∀ i, (h.assignAVertexIndexToVertex g v).graph i =
      { h.graph i with
        vertexIdState := if i = g then (h.graph g).vertexIdState + 1
          else (h.graph i).vertexIdState } := by
    intro i
    simp only [assignAVertexIndexToVertex, modifyVertex_graph, modifyGraph_graph]
    split_ifs with hi
    · rw [hi]
    · rfl
  refine ⟨fun hsame => ?_, v, hv, hop, hgraph, fun w => ?_, rfl⟩
  · have hstate := hsame.vertexIdState
    rw [hgraph, if_pos rfl] at hstate
    exact Nat.succ_ne_self _ hstate
  · simp only [assignAVertexIndexToVertex, modifyVertex_vertex, modifyGraph_vertex]
    split_ifs with hw
    · rw [hw]
    · rfl

/-- A vertex of `smallGraph` is added a second time. -/
theorem rejectedAdd_changes_smallGraph :
    ∃ h k, smallGraph.foldlM GraphOperation.step emptyHeap = .ok h ∧
      (GraphOperation.addVertex 1).run h 1 = .error ⟨.duplicateAdd, k⟩ ∧
        ¬ Unchanged h 1 k := by
  obtain ⟨h, hrun, _, hvertices, _⟩ := smallGraph_run
  have hrejected : (GraphOperation.addVertex 1).run h 1 =
      .error ⟨.duplicateAdd, h.assignAVertexIndexToVertex 1 1⟩ :=
    addVertex_eq_error (by rw [hvertices]; decide)
  exact ⟨h, _, hrun, hrejected, (rejectedAdd_changes hrejected).1⟩

/-- It has got the index 2 by then, and the next id is 3. -/
theorem smallGraph_not_unchanged :
    ∃ h k, GraphOperation.AllAllowed (fun _ => 1) emptyHeap smallGraph ∧
      smallGraph.foldlM GraphOperation.step emptyHeap = .ok h ∧
        (GraphOperation.addVertex 1).run h 1 = .error ⟨.duplicateAdd, k⟩ ∧
          (h.vertex 1).vertexIndex = 0 ∧ (k.vertex 1).vertexIndex = 2 ∧
            (h.graph 1).vertexIdState = 2 ∧ (k.graph 1).vertexIdState = 3 ∧
              ¬ Unchanged h 1 k := by
  have hcheck : (smallGraph.foldlM GraphOperation.step emptyHeap).Holds fun h =>
      1 ∈ (h.graph 1).vertices ∧ (h.vertex 1).vertexIndex = 0 ∧
        ((h.assignAVertexIndexToVertex 1 1).vertex 1).vertexIndex = 2 ∧
          (h.graph 1).vertexIdState = 2 ∧
            ((h.assignAVertexIndexToVertex 1 1).graph 1).vertexIdState = 3 := by
    decide +kernel
  obtain ⟨h, hrun, hmem, hindex, hindex', hstate, hstate'⟩ := hcheck
  refine ⟨h, _, by decide +kernel, hrun, addVertex_eq_error hmem, hindex, hindex',
    hstate, hstate', fun hsame => ?_⟩
  have hsame' := hsame.vertexIndex 1
  rw [hindex, hindex'] at hsame'
  exact absurd hsame' (by decide)

end CoFlo.Ports
