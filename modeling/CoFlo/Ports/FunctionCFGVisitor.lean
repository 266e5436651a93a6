import CoFlo.Ports.MatchedCalls
import CoFlo.Ports.StatementText
import CoFlo.Ports.TopologicalVisitKahn

/-!
# Printing a control flow graph

`Function::PrintControlFlowGraph` sends `FunctionCFGVisitor` on a topological
visit from the self edge of ENTRY.  The visitor follows resolved calls into
the graphs of the called functions: it pushes a frame when it discovers the
call and pops one when an EXIT is done, and it takes the `Return` edges of the
call on top of the stack only.
-/

namespace CoFlo.Ports

/-! ## The in-degree -/

/-- One round of the loop of `filtered_in_degree`: the count, and whether a
function call has been seen. -/
def countInEdge (h : Heap) (onlyDecisionPredecessors : Bool) (s : Int × Bool)
    (e : EdgePtr) : Int × Bool :=
  if (h.edge e).isBackEdge then s
  else if onlyDecisionPredecessors &&
      !(h.vertex (h.edge e).source).statement.isDecisionStatement then s
  else
    (if (h.edge e).edgeType.isReturn = false ∧ s.2 = false then s.1 + 1 else s.1,
      (h.edge e).edgeType.isFunctionCall || s.2)

/-- `filtered_in_degree` of `Function.cpp`. -/
def filteredInDegree (h : Heap) (o : SetOrder) (v : VertexPtr)
    (onlyDecisionPredecessors : Bool) : Int :=
  ((o.enum (h.vertex v).inEdges).foldl (countInEdge h onlyDecisionPredecessors)
    (0, false)).1

/-- The copy of `filtered_in_degree` in `FunctionCFGVisitor.cpp`. -/
def filteredInDegree' (h : Heap) (o : SetOrder) (v : VertexPtr) : Int :=
  ((o.enum (h.vertex v).inEdges).foldl (countInEdge h false) (0, false)).1

/-! ## The visitor -/

/-- What is printed on `std::cout`, a line at a time.  The brackets and the
statements come with the level they are indented to. -/
inductive CfgLine where
  | bracket (indentLevel : Int) (text : String)
  | statement (indentLevel : Int) (identifier : String)
      (vertexId : Option VertexPtr) (location : Location)
  | recursionDetected (function : FunctionPtr)
  | message (text : String)
  deriving DecidableEq, Repr

/-- What the constructor of the visitor is given. -/
structure PrintOptions where
  lastStatement : VertexPtr
  cfgVerbose : Bool
  cfgVertexIds : Bool

/-- The members of `FunctionCFGVisitor` that change, and the output. -/
structure FunctionCFGVisitor where
  callStack : DFSCallStack
  indentLevel : Int
  lastDiscoveredVertexIsRecursive : Bool
  output : List CfgLine

namespace FunctionCFGVisitor

/-- The constructor. -/
def new : FunctionCFGVisitor := ⟨.empty, 0, false, []⟩

def print (s : FunctionCFGVisitor) (line : CfgLine) : FunctionCFGVisitor :=
  { s with output := s.output ++ [line] }

/-- Prints a bracket and moves in. -/
def openBracket (s : FunctionCFGVisitor) (text : String) : FunctionCFGVisitor :=
  { s.print (.bracket s.indentLevel text) with indentLevel := s.indentLevel + 1 }

/-- Moves out and prints a bracket. -/
def closeBracket (s : FunctionCFGVisitor) (text : String) : FunctionCFGVisitor :=
  let s := { s with indentLevel := s.indentLevel - 1 }
  s.print (.bracket s.indentLevel text)

variable (h : Heap) (o : IterationOrder) (options : PrintOptions)

/-- `start_vertex`. -/
def startVertex (e : EdgePtr) :
    Callback TraversalFault FunctionCFGVisitor VertexReturnValue :=
  fun s =>
    let owner := (h.vertex (h.edge e).target).owningFunction
    if owner = null then .error .nullDereference
    else
      .ok (.ok,
        { s with
          callStack := s.callStack.pushCallStack
            (.new null (h.function owner).theCfg)
          indentLevel := 0 })

/-- The bracket of a function. -/
def printEntry (u : VertexPtr) (s : FunctionCFGVisitor) : FunctionCFGVisitor :=
  if (h.vertex u).statement = .entry then s.openBracket "[" else s

/-- The brackets of branches that start or come together in `u`. -/
def printBranches (u : VertexPtr) (e : EdgePtr) (s : FunctionCFGVisitor) :
    FunctionCFGVisitor :=
  let fid := filteredInDegree' h o.inEdges u
  if fid = 1 then
    if (h.vertex (h.edge e).source).statement.isDecisionStatement then
      s.openBracket "\x7b"
    else s
  else if 2 < fid then
    (closeBracket · "\x7d")^[(fid - 2).toNat] s
  else s

/-- The line of a statement. -/
def printStatement (u : VertexPtr) (s : FunctionCFGVisitor) :
    FunctionCFGVisitor :=
  let p := (h.vertex u).statement
  if options.cfgVerbose || p.isDecisionStatement || p.isFunctionCall then
    s.print (.statement s.indentLevel (p.identifierCFG h)
      (if options.cfgVertexIds then some u else none) (h.vertex u).location)
  else s

/-- Tracks the call context. -/
def trackCall (u : VertexPtr) (s : FunctionCFGVisitor) : FunctionCFGVisitor :=
  match (h.vertex u).statement with
  | .functionCallResolved targetFunction _ =>
      let (recursing, callStack) := s.callStack.areWeRecursing targetFunction
      if recursing then
        { s with
          callStack
          lastDiscoveredVertexIsRecursive := true
          output := s.output ++ [.recursionDetected targetFunction] }
      else
        { s with
          callStack := callStack.pushCallStack
            (.new u (h.function targetFunction).theCfg)
          lastDiscoveredVertexIsRecursive := false }
  | _ => s

/-- `discover_vertex`. -/
def discoverVertex (u : VertexPtr) (e : EdgePtr) :
    Callback TraversalFault FunctionCFGVisitor VertexReturnValue :=
  fun s =>
    .ok (.ok, trackCall h u (printStatement h options u
      (printBranches h o u e (printEntry h u s))))

/-- Whether a `Return` edge is one that is not to be followed, with what is
printed about it. -/
def skipReturn (s : FunctionCFGVisitor) (functionCall : VertexPtr) :
    Bool × FunctionCFGVisitor :=
  match s.callStack.callStack with
  | [] => (false, s.print (.message "EMPTY"))
  | top :: _ =>
      if top.functionCallWhichPushedThisFrame = null then
        (true, s.print (.message "NULL"))
      else
        (decide (functionCall ≠ top.functionCallWhichPushedThisFrame), s)

/-- Which of the ways out of a resolved call is not taken. -/
def skipFromCall (s : FunctionCFGVisitor) (ed : EdgePtr) :
    Bool × FunctionCFGVisitor :=
  match (h.vertex (h.edge ed).source).statement with
  | .functionCallResolved _ _ =>
      if s.lastDiscoveredVertexIsRecursive && (h.edge ed).edgeType.isFunctionCall
      then
        (true, s.print (.message "t3"))
      else
        (!s.lastDiscoveredVertexIsRecursive && (h.edge ed).edgeType.isFallthrough,
          s)
  | _ => (false, s)

/-- The answer of `examine_edge`, with what is printed. -/
def skipEdge (ed : EdgePtr) (s : FunctionCFGVisitor) :
    Bool × FunctionCFGVisitor :=
  if (h.edge ed).source = (h.edge ed).target then (true, s)
  else if (h.edge ed).isBackEdge then (true, s)
  else
    match (h.edge ed).edgeType with
    | .returnEdge functionCall =>
        let (skip, s) := s.skipReturn functionCall
        if skip then (true, s) else skipFromCall h s ed
    | _ => skipFromCall h s ed

/-- `examine_edge`. -/
def examineEdge (ed : EdgePtr) :
    Callback TraversalFault FunctionCFGVisitor EdgeReturnValue :=
  fun s =>
    let (skip, s) := skipEdge h ed s
    .ok (if skip then .terminateBranch else .ok, s)

/-- The brackets of branches that end with `u`. -/
def closeBranches (numVerticesPushed : Nat) (e : Option EdgePtr)
    (s : FunctionCFGVisitor) : Except TraversalFault FunctionCFGVisitor :=
  if numVerticesPushed = 0 then .ok (s.closeBracket "\x7d")
  else if numVerticesPushed = 1 then
    match e with
    | none => .error .nullDereference
    | some e =>
        .ok (if 1 < filteredInDegree' h o.inEdges (h.edge e).target then
          s.closeBracket "\x7d"
        else s)
  else .ok s

/-- `vertex_visit_complete`. -/
def vertexVisitComplete (u : VertexPtr) (numVerticesPushed : Nat)
    (e : Option EdgePtr) : Callback TraversalFault FunctionCFGVisitor Unit :=
  fun s => do
    if (h.vertex u).statement = .exit then
      let callStack ← s.callStack.popCallStack h
      let s := { s with callStack }.closeBracket "]"
      if options.lastStatement = u then return ((), s)
      else return ((), ← closeBranches h o numVerticesPushed e s)
    else return ((), ← closeBranches h o numVerticesPushed e s)

/-- `FunctionCFGVisitor`; `tree_edge` is not overridden. -/
def visitor : KahnVisitor TraversalFault FunctionCFGVisitor where
  startVertex := startVertex h
  discoverVertex := discoverVertex h o options
  examineEdge := examineEdge h
  treeEdge _ := .ok .ok
  vertexVisitComplete := vertexVisitComplete h o options

end FunctionCFGVisitor

/-! ## `PrintControlFlowGraph` -/

namespace PrintControlFlowGraph

/-- A state of the visit of `PrintControlFlowGraph`. -/
abbrev State := TopologicalVisitKahn.State TraversalFault FunctionCFGVisitor

variable (h : Heap) (o : IterationOrder) (this : FunctionPtr)
  (cfgVerbose cfgVertexIds : Bool)

/-- `cfg_visitor`. -/
def visitor : KahnVisitor TraversalFault FunctionCFGVisitor :=
  FunctionCFGVisitor.visitor h o
    ⟨(h.function this).exitVertexDesc, cfgVerbose, cfgVertexIds⟩

/-- One step of the visit. -/
def step : State → Option State :=
  TopologicalVisitKahn.step (visitor h o this cfgVerbose cfgVertexIds) h
    o.outEdges (filteredInDegree h o.inEdges · false)

/-- Everything before the loop. -/
def start : State :=
  TopologicalVisitKahn.start (visitor h o this cfgVerbose cfgVertexIds)
    (h.function this).entryVertexSelfEdge .new .empty

end PrintControlFlowGraph

end CoFlo.Ports
