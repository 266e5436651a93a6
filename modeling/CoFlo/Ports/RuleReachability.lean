import CoFlo.Ports.StatementText
import CoFlo.Ports.TraversalDFS

/-!
# The reachability constraint

`RuleReachability` checks that no path leads from one function into another.
`RunRule` sends `ReachabilityVisitor` on a traversal that starts at the ENTRY
of the source.  The visitor keeps the list of the edges that lead to the
vertex on top of the stack, and ends the search when it discovers the ENTRY of
the sink; what is then in the list is the violating path.  When the search
comes to its end the list is empty, since the edge `RunRule` puts into it is
taken out when the first vertex is finished.
-/

namespace CoFlo.Ports

/-! ## The visitor -/

namespace ReachabilityVisitor

/-- `m_predecessor_list`, a deque with its front first. -/
abbrev Predecessors := List EdgePtr

variable (h : Heap)

/-- `examine_edge`. -/
def examineEdge (u : EdgePtr) :
    Callback TraversalFault Predecessors EdgeReturnValue :=
  .ok <|
    if (h.edge u).edgeType.isImpossible || (h.edge u).isBackEdge then
      .terminateBranch
    else .ok

/-- `discover_vertex`. -/
def discoverVertex (inspectVertex : VertexPtr → Bool) (u : VertexPtr) :
    Callback TraversalFault Predecessors VertexReturnValue :=
  .ok (if inspectVertex u then .terminateSearch else .ok)

/-- `tree_edge`. -/
def treeEdge (e : EdgePtr) : Callback TraversalFault Predecessors EdgeReturnValue :=
  fun predecessors => .ok (.ok, predecessors ++ [e])

/-- `finish_vertex`. -/
def finishVertex (_ : VertexPtr) :
    Callback TraversalFault Predecessors VertexReturnValue :=
  fun predecessors =>
    if predecessors = [] then .error .emptyDeque
    else .ok (.ok, predecessors.dropLast)

def visitor (inspectVertex : VertexPtr → Bool) :
    DfsVisitor TraversalFault Predecessors :=
  { DfsVisitor.base with
    discoverVertex := discoverVertex inspectVertex
    examineEdge := examineEdge h
    treeEdge := treeEdge
    finishVertex := finishVertex }

/-- The state of `Traverse` with this visitor. -/
abbrev State :=
  ControlFlowGraphTraversalDFS.State TraversalFault Predecessors

variable (o : SetOrder) (inspectVertex : VertexPtr → Bool)

/-- `Traverse` up to the loop, from ENTRY of a function.  The list is not empty
at the start: its caller has put the self edge of ENTRY into it, since the last
vertex will take an edge out. -/
def start (source : FunctionPtr) : State :=
  ControlFlowGraphTraversalDFS.start (visitor h inspectVertex) h o
    (h.function source).entryVertexDesc [(h.function source).entryVertexSelfEdge]

/-- One step of `Traverse`. -/
def step (s : State) : Option State :=
  ControlFlowGraphTraversalDFS.step (visitor h inspectVertex) h o s

end ReachabilityVisitor

/-! ## The rule -/

/-- A line of the report; the warnings come with the level they are indented
to. -/
inductive ReportLine where
  | inFunction (definitionFilePath identifier : String)
  | warning (location : Location) (indentLevel : Int) (text : String)
  | noViolation (source sink : String)
  deriving DecidableEq, Repr

namespace RuleReachability

/-- The state of the traversal; the state of the visitor is `m_predecessors`. -/
abbrev State := ReachabilityVisitor.State

variable (h : Heap) (o : SetOrder) (source sink : FunctionPtr)

/-- `ReachabilityPredicateSpecificVertex`. -/
def pred (v : VertexPtr) : Bool :=
  v = (h.function sink).entryVertexDesc

/-- `RunRule` up to the loop of `Traverse`, with the fake edge in the list. -/
def start : State :=
  ReachabilityVisitor.start h o (pred h sink) source

/-- One step of the `Traverse` of `RunRule`. -/
def step : State → Option State :=
  ReachabilityVisitor.step h o (pred h sink)

/-- Whether `RunRule` takes the branch "constraint violation" after
`Traverse`. -/
def violation (s : State) : Bool :=
  !s.visitor.isEmpty

/-- What `PrintCallChain` prints for an edge, and the level afterwards. -/
def chainLine (indentLevel : Int) (pred : EdgePtr) : Option ReportLine × Int :=
  let sb := h.vertex (h.edge pred).source
  if sb.statement.isFunctionCall then
    (some (.warning sb.location indentLevel (sb.statement.identifierCFG h)),
      indentLevel)
  else if sb.statement.isDecisionStatement then
    (some (.warning sb.location indentLevel
      (sb.statement.identifierCFG h ++ ", taking out edge \"" ++
        (h.edge pred).edgeType.label ++ "\"")), indentLevel)
  else if sb.statement = .entry then (none, indentLevel + 1)
  else if sb.statement = .exit then (none, indentLevel - 1)
  else (none, indentLevel)

def chainLines : Int → List EdgePtr → List ReportLine
  | _, [] => []
  | indentLevel, pred :: predecessors =>
      (chainLine h indentLevel pred).1.toList ++
        chainLines (chainLine h indentLevel pred).2 predecessors

/-- An edge out of a call that has not been resolved. -/
def leavesUnresolvedCall (pred : EdgePtr) : Bool :=
  match (h.vertex (h.edge pred).source).statement with
  | .functionCallUnresolved _ _ => true
  | _ => false

/-- What `PrintCallChain` leaves in `m_predecessors`. -/
def callChain (predecessors : List EdgePtr) : List EdgePtr :=
  predecessors.filter fun pred => !leavesUnresolvedCall h pred

/-- What `RunRule` prints after `Traverse`. -/
def report (predecessors : List EdgePtr) : List ReportLine :=
  match predecessors.getLast? with
  | none =>
      [.noViolation (h.function source).functionId (h.function sink).functionId]
  | some pred =>
      let violatingStatement := h.vertex (h.edge pred).source
      [.inFunction (h.function source).definitionFilePath
          (h.function source).functionId,
        .warning violatingStatement.location 0
          ("constraint violation: path exists in control flow graph to " ++
            violatingStatement.statement.identifierCFG h),
        .warning violatingStatement.location 0 "violating path follows"] ++
      chainLines h 0 (callChain h predecessors)

end RuleReachability

end CoFlo.Ports
