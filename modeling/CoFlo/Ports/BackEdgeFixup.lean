import CoFlo.Ports.Arcs
import CoFlo.Verified.SearchInvariant

/-!
# `FixupBackEdges` and its visitor

`FixupBackEdges` runs `boost::depth_first_search` with a
`BackEdgeFixupVisitor`, marks the back edges the visitor collected, and gives
some of their sources an `Impossible` edge "so topological sorting works
correctly".  The visitor reads the graph and its own predecessor map, and the
search looks at neither, so the port runs the search first and then hands the
visitor the events one by one.

`boost::depth_first_search` itself is the machine of
`CoFlo.Verified.DepthFirstSearch`, started at the entry vertex and then at the
vertices of the graph in their order.
-/

namespace CoFlo.Ports

open CoFlo.Verified

/-- `BackEdgeFixupVisitor::BackEdgeFixupInfo`. -/
structure BackEdgeFixupInfo where
  backEdge : EdgePtr
  impossibleTargetVertex : VertexPtr
  deriving DecidableEq, Repr

/-- The members of a `BackEdgeFixupVisitor`.  A key that is missing from
`m_predecessor_map` reads as `NULL`. -/
structure BackEdgeFixupVisitor where
  backEdges : List BackEdgeFixupInfo
  predecessorMap : VertexPtr → EdgePtr

namespace Heap

variable (h : Heap) (order : IterationOrder)

/-- What `boost::depth_first_search` sees of the heap. -/
def incidence : DepthFirstSearch.Incidence VertexPtr EdgePtr where
  out v := order.outEdges.enum (h.vertex v).outEdges
  target e := (h.edge e).target

/-- The vertices a depth-first search starts at: `start_vertex` first, then
every vertex of the graph that is still white. -/
def searchRoots (g : GraphPtr) (entry : VertexPtr) : List VertexPtr :=
  entry :: order.vertices.enum (h.graph g).vertices

/-- Everything a search from `roots` can come to. -/
def searchUniverse (roots : List VertexPtr) : Finset VertexPtr :=
  roots.toFinset ∪ Finset.range h.nextVertex

/-- `boost::depth_first_search`, up to its end. -/
def depthFirstSearch (roots : List VertexPtr) :
    DepthFirstSearch.State VertexPtr EdgePtr :=
  StepMachine.run (DepthFirstSearch.step (h.incidence order))
    (DepthFirstSearch.work (h.incidence order) (h.searchUniverse roots)
      (DepthFirstSearch.init roots))
    (DepthFirstSearch.init roots)

/-- `BackEdgeFixupVisitor::FindDifferentOutEdge`.  "If we get here, something
is wrong": the code then dereferences the `end()` iterator. -/
def findDifferentOutEdge (e : EdgePtr) : Except Fault EdgePtr :=
  match (order.outEdges.enum (h.vertex (h.edge e).source).outEdges).find?
      (· ≠ e) with
  | some other => .ok other
  | none => .error .endDereference

/-- The loop of `BackEdgeFixupVisitor::FindForwardTargetForBackEdge`, for a
back edge to `v`.  `fuel` bounds the number of rounds. -/
def findForwardTarget (predecessorMap : VertexPtr → EdgePtr) (v : VertexPtr) :
    Nat → VertexPtr → Except Fault VertexPtr
  | 0, _ => .error .diverges
  | fuel + 1, u =>
      let e := predecessorMap u
      if e = null then
        .error .nullDereference
      else
        let w := (h.edge e).source
        if (h.vertex w).statement.isDecisionStatement then do
          let otherEdge ← h.findDifferentOutEdge order e
          return (h.edge otherEdge).target
        else if w ≠ v then
          findForwardTarget predecessorMap v fuel w
        else
          .ok null

end Heap

namespace BackEdgeFixupVisitor

variable (h : Heap) (order : IterationOrder)

/-- The visitor at the start of the search. -/
def initial : BackEdgeFixupVisitor := ⟨[], fun _ => null⟩

/-- `BackEdgeFixupVisitor::tree_edge`. -/
def treeEdge (visitor : BackEdgeFixupVisitor) (e : EdgePtr) :
    BackEdgeFixupVisitor :=
  { visitor with
    predecessorMap :=
      Function.update visitor.predecessorMap (h.edge e).target e }

/-- The target `BackEdgeFixupVisitor::back_edge` chooses.  A tree path has
fewer edges than there are vertices, so the fuel is never used up
(`Heap.Consistent.findForwardTarget_eq`). -/
def impossibleTarget (visitor : BackEdgeFixupVisitor) (e : EdgePtr) :
    Except Fault VertexPtr :=
  if (h.edge e).source = (h.edge e).target then
    .ok null
  else
    h.findForwardTarget order visitor.predecessorMap (h.edge e).target
      h.nextVertex (h.edge e).source

/-- `BackEdgeFixupVisitor::back_edge`. -/
def backEdge (visitor : BackEdgeFixupVisitor) (e : EdgePtr) :
    Except Fault BackEdgeFixupVisitor := do
  let impossibleTargetVertex ← visitor.impossibleTarget h order e
  return { visitor with
    backEdges := visitor.backEdges ++ [⟨e, impossibleTargetVertex⟩] }

/-- One event of the search. -/
def visit (visitor : BackEdgeFixupVisitor) :
    DepthFirstSearch.Event VertexPtr EdgePtr →
      Except Fault BackEdgeFixupVisitor
  | .treeEdge e => .ok (visitor.treeEdge h e)
  | .backEdge e => visitor.backEdge h order e
  | .forwardOrCrossEdge _ | .finishVertex _ => .ok visitor

end BackEdgeFixupVisitor

namespace Heap

/-- One round of the loop "Mark the edges we found as back edges". -/
def fixupBackEdge (g : GraphPtr) (h : Heap) (fixinfo : BackEdgeFixupInfo) :
    Heap :=
  let e := fixinfo.backEdge
  let h := h.markAsBackEdge e true
  if fixinfo.impossibleTargetVertex = null then
    h
  else
    let src := (h.edge e).source
    if h.outDegree src = 1 then
      h.addNewEdge g src fixinfo.impossibleTargetVertex .impossible
    else
      h

/-- `FixupBackEdges`. -/
def fixupBackEdges (h : Heap) (order : IterationOrder) (g : GraphPtr)
    (entry : VertexPtr) : Result Heap :=
  let search := h.depthFirstSearch order (h.searchRoots order g entry)
  match search.trace.foldlM (BackEdgeFixupVisitor.visit h order) .initial with
  | .error fault => .error ⟨fault, h⟩
  | .ok visitor => .ok (visitor.backEdges.foldl (fixupBackEdge g) h)

end Heap

end CoFlo.Ports
