import CoFlo.Ports.DepthFirstTraversal
import CoFlo.Ports.StatementText

/-!
# Writing a dot file

`Function::PrintControlFlowGraphDot` sends `WriteGraphvizDotFileVisitor` on a
depth-first visit from ENTRY.  The visitor writes a line for every vertex it
discovers and one for every edge it does not ignore; vertices are called by
their index.
-/

namespace CoFlo.Ports

/-- What is streamed into the file, a line at a time.  The header is the text
up to the rank lines, with the name of the function for the label; the label
of a node ends with the line and column of its location. -/
inductive DotLine where
  | header (name : String)
  | node (index : Nat) (text : String) (location : Location)
      (color shape : String)
  | edge (source target : Nat) (label color style : String)
  deriving DecidableEq, Repr

namespace WriteGraphvizDotFileVisitor

variable (h : Heap)

/-- The line of a vertex. -/
def nodeLine (u : VertexPtr) : DotLine :=
  let p := (h.vertex u).statement
  .node (h.vertex u).vertexIndex (p.textDOT h) (h.vertex u).location
    p.dotSVGColor p.shapeTextDOT

/-- The line of an edge: `StreamOutEdgeAttributes`. -/
def edgeLine (e : EdgePtr) : DotLine :=
  .edge (h.vertex (h.edge e).source).vertexIndex
    (h.vertex (h.edge e).target).vertexIndex (h.edge e).edgeType.dotLabel
    (h.edge e).edgeType.dotSVGColor (h.edge e).dotStyle

/-- `start_vertex`. -/
def startVertex (u : VertexPtr) :
    Callback TraversalFault (List DotLine) VertexReturnValue :=
  fun out =>
    let f := (h.vertex u).owningFunction
    if f = null then .error .nullDereference
    else .ok (.ok, out ++ [.header (h.function f).functionId])

/-- An edge the visitor does not want to see. -/
def ignores (e : EdgePtr) : Bool :=
  (h.edge e).edgeType.isFunctionCall || (h.edge e).edgeType.isReturn ||
    (h.vertex (h.edge e).target).statement = .entry ||
    (h.vertex (h.edge e).source).statement = .exit

/-- `examine_edge`. -/
def examineEdge (e : EdgePtr) :
    Callback TraversalFault (List DotLine) EdgeReturnValue :=
  fun out => .ok (if ignores h e then .terminateBranch else .ok, out)

/-- `discover_vertex`. -/
def discoverVertex (u : VertexPtr) :
    Callback TraversalFault (List DotLine) VertexReturnValue :=
  fun out => .ok (.ok, out ++ [nodeLine h u])

/-- `tree_edge`, `back_edge` and `forward_or_cross_edge` differ in their
answer. -/
def streamOutEdge (r : EdgeReturnValue) (e : EdgePtr) :
    Callback TraversalFault (List DotLine) EdgeReturnValue :=
  fun out => .ok (r, out ++ [edgeLine h e])

/-- `WriteGraphvizDotFileVisitor`. -/
def visitor : DfsVisitor TraversalFault (List DotLine) :=
  { DfsVisitor.base with
    startVertex := startVertex h
    discoverVertex := discoverVertex h
    examineEdge := examineEdge h
    treeEdge := streamOutEdge h .ok
    backEdge := streamOutEdge h .terminateBranch
    forwardOrCrossEdge := streamOutEdge h .terminateBranch }

end WriteGraphvizDotFileVisitor

/-! ## `PrintControlFlowGraphDot` -/

namespace PrintControlFlowGraphDot

/-- A state of the visit of `PrintControlFlowGraphDot`. -/
abbrev State := ImprovedDepthFirstVisit.State TraversalFault (List DotLine)

variable (h : Heap) (o : SetOrder) (this : FunctionPtr)

/-- One step of the visit. -/
def step : State → Option State :=
  ImprovedDepthFirstVisit.step (WriteGraphvizDotFileVisitor.visitor h) h o

/-- Everything before the loop. -/
def start : State :=
  ImprovedDepthFirstVisit.start (WriteGraphvizDotFileVisitor.visitor h) h o
    (h.function this).entryVertexDesc []

end PrintControlFlowGraphDot

end CoFlo.Ports
