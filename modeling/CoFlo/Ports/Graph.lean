import CoFlo.Ports.Heap

/-!
# `Edge`, `Vertex` and `Graph`

The mutating methods of the three base classes, each as a function on the
heap under its own name, with one lemma per method and field that says what
the method leaves behind.  Later modules read a heap only through these
lemmas.

`Consistent` is the representation invariant of the pointer structure: the
edge sets of the vertices and the end pointers of the edges say the same
thing.  It speaks about every vertex object, also the ones that
`ReplaceVertex` has taken out of their graph.
-/

namespace CoFlo.Ports

namespace Heap

/-! ## Construction -/

/-- A `new` statement.  The constructors initialise the statement's own data,
its location and the two edge sets; `m_owning_function` and `m_vertex_index`
keep whatever the memory held. -/
def newVertex (h : Heap) (statement : Statement) (location : Location) :
    VertexPtr × Heap :=
  (h.nextVertex,
    { h.modifyVertex h.nextVertex (fun x =>
        { x with statement, location, outEdges := ∅, inEdges := ∅ }) with
      nextVertex := h.nextVertex + 1 })

/-- A `new` edge: both ends `NULL`, and not a back edge until told otherwise. -/
def newEdge (h : Heap) (edgeType : EdgeType) : EdgePtr × Heap :=
  (h.nextEdge,
    { h.modifyEdge h.nextEdge (fun _ => ⟨null, null, edgeType, false⟩) with
      nextEdge := h.nextEdge + 1 })

/-! ## `Edge` and `Vertex` -/

/-- `Vertex::AddInEdge`. -/
def addInEdge (h : Heap) (v : VertexPtr) (e : EdgePtr) : Heap :=
  h.modifyVertex v fun x => { x with inEdges := insert e x.inEdges }

/-- `Vertex::AddOutEdge`. -/
def addOutEdge (h : Heap) (v : VertexPtr) (e : EdgePtr) : Heap :=
  h.modifyVertex v fun x => { x with outEdges := insert e x.outEdges }

/-- `Vertex::RemoveInEdge`. -/
def removeInEdge (h : Heap) (v : VertexPtr) (e : EdgePtr) : Heap :=
  h.modifyVertex v fun x => { x with inEdges := x.inEdges.erase e }

/-- `Vertex::RemoveOutEdge`. -/
def removeOutEdge (h : Heap) (v : VertexPtr) (e : EdgePtr) : Heap :=
  h.modifyVertex v fun x => { x with outEdges := x.outEdges.erase e }

/-- `Edge::SetSourceAndTarget`. -/
def setSourceAndTarget (h : Heap) (e : EdgePtr) (source target : VertexPtr) :
    Heap :=
  h.modifyEdge e fun x => { x with source, target }

/-- `Edge::ClearSourceAndTarget`. -/
def clearSourceAndTarget (h : Heap) (e : EdgePtr) : Heap :=
  h.setSourceAndTarget e null null

/-- `Edge::ChangeSource`. -/
def changeSource (h : Heap) (e : EdgePtr) (source : VertexPtr) : Heap :=
  let h :=
    if (h.edge e).source ≠ null then h.removeOutEdge (h.edge e).source e else h
  let h := h.addOutEdge source e
  h.modifyEdge e fun x => { x with source }

/-- `Edge::ChangeTarget`. -/
def changeTarget (h : Heap) (e : EdgePtr) (target : VertexPtr) : Heap :=
  let h :=
    if (h.edge e).target ≠ null then h.removeInEdge (h.edge e).target e else h
  let h := h.addInEdge target e
  h.modifyEdge e fun x => { x with target }

/-- `CFGEdgeTypeBase::MarkAsBackEdge`. -/
def markAsBackEdge (h : Heap) (e : EdgePtr) (isBackEdge : Bool) : Heap :=
  h.modifyEdge e fun x => { x with isBackEdge }

/-- The loop of `TransferOwnedResourcesTo` over one edge set, which calls
`SetTarget(other)` on every edge in it. -/
def setTargets (h : Heap) (es : Finset EdgePtr) (other : VertexPtr) : Heap :=
  { h with edge := fun e =>
      if e ∈ es then { h.edge e with target := other } else h.edge e }

/-- The same loop with `SetSource(other)`. -/
def setSources (h : Heap) (es : Finset EdgePtr) (other : VertexPtr) : Heap :=
  { h with edge := fun e =>
      if e ∈ es then { h.edge e with source := other } else h.edge e }

/-- `Vertex::TransferOwnedResourcesTo`: the edges of `this` now end at
`other`, and the two vertices swap their edge sets. -/
def transferOwnedResourcesTo (h : Heap) (this other : VertexPtr) : Heap :=
  let h := h.setTargets (h.vertex this).inEdges other
  let h := h.setSources (h.vertex this).outEdges other
  let mine := h.vertex this
  let theirs := h.vertex other
  let h := h.modifyVertex this fun x =>
    { x with inEdges := theirs.inEdges, outEdges := theirs.outEdges }
  h.modifyVertex other fun x =>
    { x with inEdges := mine.inEdges, outEdges := mine.outEdges }

/-! ## `Graph` -/

/-- `Graph::AssignAVertexIndexToVertex`, with `GetNewVertexID` and
`SetVertexIndex`. -/
def assignAVertexIndexToVertex (h : Heap) (g : GraphPtr) (v : VertexPtr) :
    Heap :=
  let vertexIndex := (h.graph g).vertexIdState
  let h := h.modifyGraph g fun x => { x with vertexIdState := x.vertexIdState + 1 }
  h.modifyVertex v fun x => { x with vertexIndex }

/-- `Graph::AddVertex`.  The index is assigned before the insertion is found
to have failed. -/
def addVertex (h : Heap) (g : GraphPtr) (v : VertexPtr) : Result Heap :=
  let h := h.assignAVertexIndexToVertex g v
  if v ∈ (h.graph g).vertices then
    .error ⟨.duplicateAdd, h⟩
  else
    .ok (h.modifyGraph g fun x => { x with vertices := insert v x.vertices })

/-- `Graph::RemoveVertex`. -/
def removeVertex (h : Heap) (g : GraphPtr) (v : VertexPtr) : Heap :=
  h.modifyGraph g fun x => { x with vertices := x.vertices.erase v }

/-- `Graph::ReplaceVertex`. -/
def replaceVertex (h : Heap) (g : GraphPtr) (oldVertex newVertex : VertexPtr) :
    Result Heap := do
  let h ← h.addVertex g newVertex
  let h := h.transferOwnedResourcesTo oldVertex newVertex
  return h.removeVertex g oldVertex

/-- `Graph::AddEdge`. -/
def addEdge (h : Heap) (g : GraphPtr) (source target : VertexPtr)
    (e : EdgePtr) : Heap :=
  let h := h.addOutEdge source e
  let h := h.addInEdge target e
  let h := h.setSourceAndTarget e source target
  h.modifyGraph g fun x => { x with edges := insert e x.edges }

/-- `AddEdge(source, target, new T)`, the form in which every pass calls it. -/
def addNewEdge (h : Heap) (g : GraphPtr) (source target : VertexPtr)
    (edgeType : EdgeType) : Heap :=
  (h.newEdge edgeType).2.addEdge g source target (h.newEdge edgeType).1

/-- `Graph::RemoveEdge`, which calls a method on each end of the edge. -/
def removeEdge (h : Heap) (g : GraphPtr) (e : EdgePtr) : Result Heap :=
  let source := (h.edge e).source
  let target := (h.edge e).target
  if source = null then
    .error ⟨.nullDereference, h⟩
  else
    let h := h.removeOutEdge source e
    if target = null then
      .error ⟨.nullDereference, h⟩
    else
      let h := h.removeInEdge target e
      let h := h.clearSourceAndTarget e
      .ok (h.modifyGraph g fun x => { x with edges := x.edges.erase e })

/-- `InDegree()`. -/
def inDegree (h : Heap) (v : VertexPtr) : Nat :=
  (h.vertex v).inEdges.card

/-- `OutDegree()`. -/
def outDegree (h : Heap) (v : VertexPtr) : Nat :=
  (h.vertex v).outEdges.card

theorem newVertex_vertex_of_ne (h : Heap) (statement : Statement)
    (location : Location) {v : VertexPtr} (hv : v ≠ h.nextVertex) :
    (h.newVertex statement location).2.vertex v = h.vertex v := by
  simp only [newVertex, modifyVertex_vertex, if_neg hv]

theorem newVertex_statement (h : Heap) (statement : Statement)
    (location : Location) (v : VertexPtr) :
    ((h.newVertex statement location).2.vertex v).statement =
      if v = h.nextVertex then statement else (h.vertex v).statement := by
  simp only [newVertex, modifyVertex_vertex]
  split_ifs <;> rfl

@[simp] theorem newVertex_owningFunction (h : Heap) (statement : Statement)
    (location : Location) (v : VertexPtr) :
    ((h.newVertex statement location).2.vertex v).owningFunction =
      (h.vertex v).owningFunction := by
  simp only [newVertex, modifyVertex_vertex]
  split_ifs with hv
  · rw [hv]
  · rfl

@[simp] theorem newVertex_vertexIndex (h : Heap) (statement : Statement)
    (location : Location) (v : VertexPtr) :
    ((h.newVertex statement location).2.vertex v).vertexIndex =
      (h.vertex v).vertexIndex := by
  simp only [newVertex, modifyVertex_vertex]
  split_ifs with hv
  · rw [hv]
  · rfl

theorem markAsBackEdge_edge (h : Heap) (e d : EdgePtr) (isBackEdge : Bool) :
    (h.markAsBackEdge e isBackEdge).edge d =
      { h.edge d with
        isBackEdge := if d = e then isBackEdge else (h.edge d).isBackEdge } := by
  rw [markAsBackEdge, modifyEdge_edge]
  split_ifs with hd
  · rw [hd]
  · rfl

/-! ## What `ChangeSource` and `ChangeTarget` leave behind -/

section change

variable (h : Heap) (a : EdgePtr)

theorem changeSource_edge (s : VertexPtr) (e : EdgePtr) :
    (h.changeSource a s).edge e =
      { h.edge e with
        source := if e = a then s else (h.edge e).source } := by
  unfold changeSource
  simp only [modifyEdge_edge]
  split_ifs with ha hs <;> simp [addOutEdge, removeOutEdge, ha]

theorem changeTarget_edge (t : VertexPtr) (e : EdgePtr) :
    (h.changeTarget a t).edge e =
      { h.edge e with
        target := if e = a then t else (h.edge e).target } := by
  unfold changeTarget
  simp only [modifyEdge_edge]
  split_ifs with ha ht <;> simp [addInEdge, removeInEdge, ha]

theorem changeSource_graph (s : VertexPtr) :
    (h.changeSource a s).graph = h.graph := by
  unfold changeSource
  split_ifs <;> rfl

theorem changeTarget_graph (t : VertexPtr) :
    (h.changeTarget a t).graph = h.graph := by
  unfold changeTarget
  split_ifs <;> rfl

/-- Taking an edge out of a set it is put into right after. -/
theorem insert_erase_self (s : Finset EdgePtr) :
    insert a (s.erase a) = insert a s := by
  ext e
  simp only [Finset.mem_insert, Finset.mem_erase]
  by_cases he : e = a
  · simp [he]
  · simp [he]

theorem changeSource_vertex (ha : (h.edge a).source ≠ null) (s v : VertexPtr) :
    (h.changeSource a s).vertex v =
      { h.vertex v with
        outEdges :=
          if v = s then insert a (h.vertex v).outEdges
          else if v = (h.edge a).source then (h.vertex v).outEdges.erase a
          else (h.vertex v).outEdges } := by
  unfold changeSource
  simp only [if_pos ha, modifyEdge_vertex, addOutEdge, removeOutEdge,
    modifyVertex_vertex]
  by_cases hvs : v = s
  · subst hvs
    by_cases hva : v = (h.edge a).source
    · simp [← hva, insert_erase_self]
    · simp [hva]
  · simp only [if_neg hvs]
    split_ifs with hva
    · rw [hva]
    · rfl

theorem changeTarget_vertex (ha : (h.edge a).target ≠ null) (t v : VertexPtr) :
    (h.changeTarget a t).vertex v =
      { h.vertex v with
        inEdges :=
          if v = t then insert a (h.vertex v).inEdges
          else if v = (h.edge a).target then (h.vertex v).inEdges.erase a
          else (h.vertex v).inEdges } := by
  unfold changeTarget
  simp only [if_pos ha, modifyEdge_vertex, addInEdge, removeInEdge,
    modifyVertex_vertex]
  by_cases hvt : v = t
  · subst hvt
    by_cases hva : v = (h.edge a).target
    · simp [← hva, insert_erase_self]
    · simp [hva]
  · simp only [if_neg hvt]
    split_ifs with hva
    · rw [hva]
    · rfl

end change

/-! ## What `AddEdge` leaves behind -/

section addEdge

variable (h : Heap) (g : GraphPtr) (s t : VertexPtr) (e : EdgePtr)

theorem addEdge_vertex (v : VertexPtr) :
    (h.addEdge g s t e).vertex v =
      { h.vertex v with
        outEdges :=
          if v = s then insert e (h.vertex v).outEdges
          else (h.vertex v).outEdges
        inEdges :=
          if v = t then insert e (h.vertex v).inEdges
          else (h.vertex v).inEdges } := by
  simp only [addEdge, addOutEdge, addInEdge, setSourceAndTarget,
    modifyGraph_vertex, modifyEdge_vertex, modifyVertex_vertex]
  split_ifs <;> simp_all

theorem addEdge_edge (d : EdgePtr) :
    (h.addEdge g s t e).edge d =
      if d = e then { h.edge d with source := s, target := t }
      else h.edge d := by
  simp only [addEdge, addOutEdge, addInEdge, setSourceAndTarget,
    modifyGraph_edge, modifyEdge_edge, modifyVertex_edge]
  split_ifs with hd
  · rw [hd]
  · rfl

theorem addEdge_graph (k : GraphPtr) :
    (h.addEdge g s t e).graph k =
      { h.graph k with
        edges :=
          if k = g then insert e (h.graph k).edges
          else (h.graph k).edges } := by
  simp only [addEdge, addOutEdge, addInEdge, setSourceAndTarget,
    modifyGraph_graph, modifyEdge_graph, modifyVertex_graph]
  split_ifs with hk
  · rw [hk]
  · rfl

end addEdge

section addNewEdge

variable (h : Heap) (g : GraphPtr) (s t : VertexPtr) (ty : EdgeType)

theorem addNewEdge_vertex (v : VertexPtr) :
    (h.addNewEdge g s t ty).vertex v =
      { h.vertex v with
        outEdges :=
          if v = s then insert h.nextEdge (h.vertex v).outEdges
          else (h.vertex v).outEdges
        inEdges :=
          if v = t then insert h.nextEdge (h.vertex v).inEdges
          else (h.vertex v).inEdges } := by
  simp only [addNewEdge, addEdge, newEdge, addOutEdge, addInEdge,
    setSourceAndTarget, modifyGraph_vertex, modifyEdge_vertex,
    modifyVertex_vertex]
  split_ifs <;> simp_all

@[simp] theorem addNewEdge_statement (v : VertexPtr) :
    ((h.addNewEdge g s t ty).vertex v).statement = (h.vertex v).statement := by
  rw [addNewEdge_vertex]

theorem addNewEdge_edge (e : EdgePtr) :
    (h.addNewEdge g s t ty).edge e =
      if e = h.nextEdge then ⟨s, t, ty, false⟩ else h.edge e := by
  simp only [addNewEdge, addEdge, newEdge, addOutEdge, addInEdge,
    setSourceAndTarget, modifyGraph_edge, modifyEdge_edge, modifyVertex_edge,
    if_true]
  split_ifs <;> rfl

theorem addNewEdge_graph (k : GraphPtr) :
    (h.addNewEdge g s t ty).graph k =
      { h.graph k with
        edges :=
          if k = g then insert h.nextEdge (h.graph k).edges
          else (h.graph k).edges } := by
  simp only [addNewEdge, addEdge, newEdge, addOutEdge, addInEdge,
    setSourceAndTarget, modifyGraph_graph, modifyEdge_graph,
    modifyVertex_graph]
  split_ifs with hk
  · rw [hk]
  · rfl

@[simp] theorem addNewEdge_vertices (k : GraphPtr) :
    ((h.addNewEdge g s t ty).graph k).vertices = (h.graph k).vertices := by
  rw [addNewEdge_graph]

@[simp] theorem addNewEdge_edges_self :
    ((h.addNewEdge g s t ty).graph g).edges =
      insert h.nextEdge (h.graph g).edges := by
  rw [addNewEdge_graph]
  exact if_pos rfl

@[simp] theorem addNewEdge_owningFunction (v : VertexPtr) :
    ((h.addNewEdge g s t ty).vertex v).owningFunction =
      (h.vertex v).owningFunction := by
  rw [addNewEdge_vertex]

@[simp] theorem addNewEdge_vertexIndex (v : VertexPtr) :
    ((h.addNewEdge g s t ty).vertex v).vertexIndex =
      (h.vertex v).vertexIndex := by
  rw [addNewEdge_vertex]

@[simp] theorem addNewEdge_vertexIdState (k : GraphPtr) :
    ((h.addNewEdge g s t ty).graph k).vertexIdState =
      (h.graph k).vertexIdState := by
  rw [addNewEdge_graph]

@[simp] theorem addNewEdge_function :
    (h.addNewEdge g s t ty).function = h.function := rfl

@[simp] theorem addNewEdge_nextVertex :
    (h.addNewEdge g s t ty).nextVertex = h.nextVertex := rfl

@[simp] theorem addNewEdge_nextEdge :
    (h.addNewEdge g s t ty).nextEdge = h.nextEdge + 1 := rfl

end addNewEdge

/-! ## What `RemoveEdge` leaves behind -/

/-- The heap after a successful `RemoveEdge`. -/
def edgeRemoved (h : Heap) (g : GraphPtr) (e : EdgePtr) : Heap :=
  (((h.removeOutEdge (h.edge e).source e).removeInEdge (h.edge e).target
    e).clearSourceAndTarget e).modifyGraph g fun x =>
      { x with edges := x.edges.erase e }

theorem removeEdge_eq_ok {h : Heap} {g : GraphPtr} {e : EdgePtr}
    (hsource : (h.edge e).source ≠ null) (htarget : (h.edge e).target ≠ null) :
    h.removeEdge g e = .ok (h.edgeRemoved g e) := by
  unfold removeEdge
  simp only [if_neg hsource, if_neg htarget]
  rfl

section edgeRemoved

variable (h : Heap) (g : GraphPtr) (e : EdgePtr)

theorem edgeRemoved_vertex (v : VertexPtr) :
    (h.edgeRemoved g e).vertex v =
      { h.vertex v with
        outEdges :=
          if v = (h.edge e).source then (h.vertex v).outEdges.erase e
          else (h.vertex v).outEdges
        inEdges :=
          if v = (h.edge e).target then (h.vertex v).inEdges.erase e
          else (h.vertex v).inEdges } := by
  simp only [edgeRemoved, clearSourceAndTarget, setSourceAndTarget,
    removeInEdge, removeOutEdge, modifyGraph_vertex, modifyEdge_vertex,
    modifyVertex_vertex]
  split_ifs <;> simp_all

theorem edgeRemoved_edge (d : EdgePtr) :
    (h.edgeRemoved g e).edge d =
      if d = e then { h.edge d with source := null, target := null }
      else h.edge d := by
  simp only [edgeRemoved, clearSourceAndTarget, setSourceAndTarget,
    removeInEdge, removeOutEdge, modifyGraph_edge, modifyEdge_edge,
    modifyVertex_edge]
  split_ifs with hd
  · rw [hd]
  · rfl

theorem edgeRemoved_graph (k : GraphPtr) :
    (h.edgeRemoved g e).graph k =
      { h.graph k with
        edges :=
          if k = g then (h.graph k).edges.erase e else (h.graph k).edges } := by
  simp only [edgeRemoved, clearSourceAndTarget, setSourceAndTarget,
    removeInEdge, removeOutEdge, modifyGraph_graph, modifyEdge_graph,
    modifyVertex_graph]
  split_ifs with hk
  · rw [hk]
  · rfl

end edgeRemoved

/-! ## What `AddVertex` and `ReplaceVertex` leave behind -/

/-- The heap after a successful `AddVertex`. -/
def vertexAdded (h : Heap) (g : GraphPtr) (v : VertexPtr) : Heap :=
  (h.assignAVertexIndexToVertex g v).modifyGraph g fun x =>
    { x with vertices := insert v x.vertices }

theorem addVertex_eq_ok {h : Heap} {g : GraphPtr} {v : VertexPtr}
    (hv : v ∉ (h.graph g).vertices) :
    h.addVertex g v = .ok (h.vertexAdded g v) := by
  unfold addVertex
  rw [if_neg]
  · rfl
  · simpa [assignAVertexIndexToVertex, modifyGraph_graph] using hv

theorem addVertex_eq_error {h : Heap} {g : GraphPtr} {v : VertexPtr}
    (hv : v ∈ (h.graph g).vertices) :
    h.addVertex g v =
      .error ⟨.duplicateAdd, h.assignAVertexIndexToVertex g v⟩ := by
  unfold addVertex
  rw [if_pos]
  simpa [assignAVertexIndexToVertex, modifyGraph_graph] using hv

section vertexAdded

variable (h : Heap) (g : GraphPtr) (v : VertexPtr)

theorem vertexAdded_vertex (w : VertexPtr) :
    (h.vertexAdded g v).vertex w =
      { h.vertex w with
        vertexIndex :=
          if w = v then (h.graph g).vertexIdState
          else (h.vertex w).vertexIndex } := by
  simp only [vertexAdded, assignAVertexIndexToVertex, modifyGraph_vertex,
    modifyVertex_vertex]
  split_ifs with hw
  · rw [hw]
  · rfl

@[simp] theorem vertexAdded_statement (w : VertexPtr) :
    ((h.vertexAdded g v).vertex w).statement = (h.vertex w).statement := by
  rw [vertexAdded_vertex]

@[simp] theorem vertexAdded_owningFunction (w : VertexPtr) :
    ((h.vertexAdded g v).vertex w).owningFunction =
      (h.vertex w).owningFunction := by
  rw [vertexAdded_vertex]

@[simp] theorem vertexAdded_edge : (h.vertexAdded g v).edge = h.edge := rfl

theorem vertexAdded_graph (k : GraphPtr) :
    (h.vertexAdded g v).graph k =
      if k = g then
        { vertices := insert v (h.graph g).vertices
          edges := (h.graph g).edges
          vertexIdState := (h.graph g).vertexIdState + 1 }
      else h.graph k := by
  simp only [vertexAdded, assignAVertexIndexToVertex, modifyGraph_graph,
    modifyVertex_graph]
  split_ifs <;> rfl

@[simp] theorem vertexAdded_edges (k : GraphPtr) :
    ((h.vertexAdded g v).graph k).edges = (h.graph k).edges := by
  rw [vertexAdded_graph]
  split_ifs with hk
  · rw [hk]
  · rfl

@[simp] theorem vertexAdded_function :
    (h.vertexAdded g v).function = h.function := rfl

@[simp] theorem vertexAdded_nextVertex :
    (h.vertexAdded g v).nextVertex = h.nextVertex := rfl

@[simp] theorem vertexAdded_nextEdge :
    (h.vertexAdded g v).nextEdge = h.nextEdge := rfl

end vertexAdded

/-- The heap after a successful `ReplaceVertex`. -/
def vertexReplaced (h : Heap) (g : GraphPtr) (oldVertex newVertex : VertexPtr) :
    Heap :=
  ((h.vertexAdded g newVertex).transferOwnedResourcesTo oldVertex
    newVertex).removeVertex g oldVertex

theorem replaceVertex_eq_ok {h : Heap} {g : GraphPtr}
    {oldVertex newVertex : VertexPtr}
    (hnew : newVertex ∉ (h.graph g).vertices) :
    h.replaceVertex g oldVertex newVertex =
      .ok (h.vertexReplaced g oldVertex newVertex) := by
  unfold replaceVertex
  rw [addVertex_eq_ok hnew]
  rfl

section vertexReplaced

variable (h : Heap) (g : GraphPtr) {oldVertex newVertex : VertexPtr}

theorem vertexReplaced_vertex (hne : oldVertex ≠ newVertex) (v : VertexPtr) :
    (h.vertexReplaced g oldVertex newVertex).vertex v =
      { h.vertex v with
        outEdges :=
          if v = newVertex then (h.vertex oldVertex).outEdges
          else if v = oldVertex then (h.vertex newVertex).outEdges
          else (h.vertex v).outEdges
        inEdges :=
          if v = newVertex then (h.vertex oldVertex).inEdges
          else if v = oldVertex then (h.vertex newVertex).inEdges
          else (h.vertex v).inEdges
        vertexIndex :=
          if v = newVertex then (h.graph g).vertexIdState
          else (h.vertex v).vertexIndex } := by
  simp only [vertexReplaced, removeVertex, transferOwnedResourcesTo,
    setTargets, setSources, modifyGraph_vertex, modifyVertex_vertex,
    vertexAdded_vertex]
  by_cases hnew : v = newVertex
  · subst hnew
    simp [hne.symm]
  · by_cases hold : v = oldVertex
    · subst hold
      simp [hne]
    · simp [hnew, hold]

@[simp] theorem vertexReplaced_statement (v : VertexPtr) :
    ((h.vertexReplaced g oldVertex newVertex).vertex v).statement =
      (h.vertex v).statement := by
  simp only [vertexReplaced, removeVertex, transferOwnedResourcesTo,
    setTargets, setSources, modifyGraph_vertex, modifyVertex_vertex,
    vertexAdded_vertex]
  grind

@[simp] theorem vertexReplaced_owningFunction (v : VertexPtr) :
    ((h.vertexReplaced g oldVertex newVertex).vertex v).owningFunction =
      (h.vertex v).owningFunction := by
  simp only [vertexReplaced, removeVertex, transferOwnedResourcesTo,
    setTargets, setSources, modifyGraph_vertex, modifyVertex_vertex,
    vertexAdded_vertex]
  grind

theorem vertexReplaced_vertexIndex (v : VertexPtr) :
    ((h.vertexReplaced g oldVertex newVertex).vertex v).vertexIndex =
      if v = newVertex then (h.graph g).vertexIdState
      else (h.vertex v).vertexIndex := by
  simp only [vertexReplaced, removeVertex, transferOwnedResourcesTo,
    setTargets, setSources, modifyGraph_vertex, modifyVertex_vertex,
    vertexAdded_vertex]
  grind

theorem vertexReplaced_edge (e : EdgePtr) :
    (h.vertexReplaced g oldVertex newVertex).edge e =
      { h.edge e with
        source :=
          if e ∈ (h.vertex oldVertex).outEdges then newVertex
          else (h.edge e).source
        target :=
          if e ∈ (h.vertex oldVertex).inEdges then newVertex
          else (h.edge e).target } := by
  simp only [vertexReplaced, removeVertex, transferOwnedResourcesTo,
    setTargets, setSources, modifyGraph_edge, modifyVertex_edge,
    vertexAdded_vertex, vertexAdded_edge]
  split_ifs <;> rfl

@[simp] theorem vertexReplaced_edgeType (e : EdgePtr) :
    ((h.vertexReplaced g oldVertex newVertex).edge e).edgeType =
      (h.edge e).edgeType := by
  rw [vertexReplaced_edge]

@[simp] theorem vertexReplaced_isBackEdge (e : EdgePtr) :
    ((h.vertexReplaced g oldVertex newVertex).edge e).isBackEdge =
      (h.edge e).isBackEdge := by
  rw [vertexReplaced_edge]

theorem vertexReplaced_graph (k : GraphPtr) :
    (h.vertexReplaced g oldVertex newVertex).graph k =
      if k = g then
        { vertices := (insert newVertex (h.graph g).vertices).erase oldVertex
          edges := (h.graph g).edges
          vertexIdState := (h.graph g).vertexIdState + 1 }
      else h.graph k := by
  simp only [vertexReplaced, removeVertex, transferOwnedResourcesTo,
    setTargets, setSources, modifyGraph_graph, modifyVertex_graph,
    vertexAdded_graph]
  split_ifs <;> rfl

@[simp] theorem vertexReplaced_edges (k : GraphPtr) :
    ((h.vertexReplaced g oldVertex newVertex).graph k).edges =
      (h.graph k).edges := by
  rw [vertexReplaced_graph]
  split_ifs with hk
  · rw [hk]
  · rfl

@[simp] theorem vertexReplaced_function :
    (h.vertexReplaced g oldVertex newVertex).function = h.function := rfl

@[simp] theorem vertexReplaced_nextVertex :
    (h.vertexReplaced g oldVertex newVertex).nextVertex = h.nextVertex := rfl

@[simp] theorem vertexReplaced_nextEdge :
    (h.vertexReplaced g oldVertex newVertex).nextEdge = h.nextEdge := rfl

end vertexReplaced

end Heap

end CoFlo.Ports
