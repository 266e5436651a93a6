import CoFlo.Ports.GraphInvariant

/-!
# `RemoveRedundantNodes`

The last phase of `CreateControlFlowGraph` takes gotos and compiler-generated
labels out of the graph where they only pass control on.  Each one has a
single in-edge, which is pointed at the target of its single out-edge, so the
effect on the graph is a contraction (`Heap.contracted`).
-/

namespace CoFlo.Ports

/-- A `Goto`, or a label the compiler made, "i.e. `<D.1234>`". -/
def Statement.isRedundantKind : Statement → Bool
  | .gotoStatement => true
  | .label identifier => identifier.toList.head? = some '<'
  | _ => false

namespace Heap

/-- "It's redundant." -/
def isRedundant (h : Heap) (v : VertexPtr) : Bool :=
  (h.vertex v).statement.isRedundantKind &&
    (h.inDegree v = 1 && h.outDegree v = 1)

/-- One round of the loop over the vertices, with `vertices_to_remove`. -/
def removeRedundantNode (order : IterationOrder) (g : GraphPtr)
    (s : Heap × List VertexPtr) (v : VertexPtr) :
    Result (Heap × List VertexPtr) :=
  let (h, verticesToRemove) := s
  if h.isRedundant v then
    match order.inEdges.enum (h.vertex v).inEdges,
      order.outEdges.enum (h.vertex v).outEdges with
    | inEdge :: _, outEdge :: _ => do
        let targetVertexDesc := (h.edge outEdge).target
        -- Point the incoming edge to the target of our outgoing edge.
        let h := h.changeTarget inEdge targetVertexDesc
        let h ← h.removeEdge g outEdge
        if h.inDegree v ≠ 0 ∨ h.outDegree v ≠ 0 then
          return (h, verticesToRemove)
        else
          return (h, verticesToRemove ++ [v])
    | _, _ => .error ⟨.endDereference, h⟩
  else
    .ok s

/-- `RemoveRedundantNodes`. -/
def removeRedundantNodes (h : Heap) (order : IterationOrder) (g : GraphPtr) :
    Result Heap := do
  let (h, verticesToRemove) ←
    (order.vertices.enum (h.graph g).vertices).foldlM
      (removeRedundantNode order g) (h, [])
  return verticesToRemove.foldl (fun h v => h.removeVertex g v) h

end Heap

end CoFlo.Ports
