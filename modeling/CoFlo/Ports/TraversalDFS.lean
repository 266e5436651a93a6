import CoFlo.Ports.DepthFirstTraversal

/-!
# `ControlFlowGraphTraversalDFS`

`Traverse` walks the control flow graphs of a program depth first, across
calls.  It is `improved_depth_first_visit` with a call stack in place of the
color map stack: following a `FunctionCall` edge pushes a frame with an empty
color map, and `SkipEdge` pops the top frame when it lets a `Return` edge
pass.  Nothing brings a frame back when the search backtracks.
-/

namespace CoFlo.Ports

open CoFlo.Verified.DepthFirstSearch (Color)

namespace ControlFlowGraphTraversalDFS

/-- The call stack and the local variables of `Traverse`. -/
structure State (ε σ : Type) where
  callStack : DFSCallStack
  dfsStack : List VertexInfo
  visitor : σ
  stop : Option (Stop ε)

/-- `SkipEdge`: whether the edge is skipped, and the call stack afterwards. -/
def skipEdge (h : Heap) (callStack : DFSCallStack) (e : EdgePtr) :
    Except TraversalFault (Bool × DFSCallStack) :=
  if (h.edge e).isBackEdge then
    .ok (true, callStack)
  else
    match (h.edge e).edgeType with
    | .returnEdge functionCall => do
        let top ← callStack.topCallStack
        if functionCall ≠ top.functionCallWhichPushedThisFrame then
          return (true, callStack)
        else
          let callStack ← callStack.popCallStack h
          return (false, callStack)
    | .functionCallBypass => .ok (true, callStack)
    | _ => .ok (false, callStack)

/-- A `FunctionCall` edge pushes a new stack frame. -/
def enterCall (h : Heap) (callStack : DFSCallStack) (e : EdgePtr) :
    DFSCallStack :=
  match (h.edge e).edgeType with
  | .functionCall functionCall targetCfg =>
      callStack.pushCallStack (.new functionCall targetCfg)
  | _ => callStack

variable {ε σ : Type} (V : DfsVisitor ε σ) (h : Heap) (o : SetOrder)

/-- Calls a callback; what goes wrong in it ends the traversal. -/
def visit {ρ : Type} (callback : Callback ε σ ρ) (s : State ε σ)
    (next : ρ → State ε σ → State ε σ) : State ε σ :=
  match callback s.visitor with
  | .error err => { s with stop := some (.visitorFault err) }
  | .ok (r, visitor) => next r { s with visitor }

/-- Gives the top frame another color map. -/
def setColorMap (s : State ε σ) (top : CallStackFrame)
    (frames : List CallStackFrame) (colorMap : ColorMap) : State ε σ :=
  { s with
    callStack :=
      { s.callStack with callStack := { top with colorMap } :: frames } }

/-- What is done with an edge by the color of its target. -/
def follow (u : VertexPtr) (e : EdgePtr) (ei : List EdgePtr)
    (rest : List VertexInfo) (s : State ε σ) : State ε σ :=
  let v := (h.edge e).target
  match s.callStack.callStack with
  | [] => { s with stop := some (.fault .emptyStack) }
  | top :: frames =>
      let (color, colorMap) := top.colorMap.get v
      let s := setColorMap s top frames colorMap
      match color with
      | .white =>
          visit (V.treeEdge e) s fun _ s =>
            let s := setColorMap s top frames (colorMap.put v .gray)
            visit (V.discoverVertex v) { s with dfsStack := ⟨u, ei⟩ :: rest }
              fun r s =>
                match r with
                | .ok =>
                    { s with
                      dfsStack := ⟨v, h.outEdgeList o v⟩ :: s.dfsStack }
                | .terminateBranch =>
                    { s with dfsStack := ⟨v, []⟩ :: s.dfsStack }
                | .terminateSearch => { s with stop := some .returned }
      | .gray =>
          visit (V.backEdge e) s fun _ s => { s with dfsStack := ⟨u, ei⟩ :: rest }
      | .black =>
          visit (V.forwardOrCrossEdge e) s fun _ s =>
            { s with dfsStack := ⟨u, ei⟩ :: rest }

/-- One round of the inner loop. -/
def examine (u : VertexPtr) (e : EdgePtr) (ei : List EdgePtr)
    (rest : List VertexInfo) (s : State ε σ) : State ε σ :=
  match skipEdge h s.callStack e with
  | .error fault => { s with stop := some (.fault fault) }
  | .ok (true, callStack) =>
      { s with callStack, dfsStack := ⟨u, ei⟩ :: rest }
  | .ok (false, callStack) =>
      visit (V.examineEdge e) { s with callStack } fun r s =>
        match r with
        | .terminateBranch => { s with dfsStack := ⟨u, ei⟩ :: rest }
        | .terminateSearch => { s with stop := some .returned }
        | _ =>
            follow V h o u e ei rest
              { s with callStack := enterCall h s.callStack e }

/-- The end of the inner loop. -/
def finish (u : VertexPtr) (rest : List VertexInfo) (s : State ε σ) :
    State ε σ :=
  match s.callStack.callStack with
  | [] => { s with stop := some (.fault .emptyStack) }
  | top :: frames =>
      visit (V.finishVertex u) (setColorMap s top frames (top.colorMap.put u .black))
        fun _ s => { s with dfsStack := rest }

/-- One step of the traversal. -/
def step (s : State ε σ) : Option (State ε σ) :=
  if s.stop.isSome then none
  else
    match s.dfsStack with
    | [] => none
    | ⟨u, []⟩ :: rest => some (finish V u rest s)
    | ⟨u, e :: ei⟩ :: rest => some (examine V h o u e ei rest s)

/-- The frame of the dummy "function call", for which the owning function of
the source is asked for its graph. -/
def startFrame (source : VertexPtr) : CallStackFrame :=
  (CallStackFrame.new null
    (h.function (h.vertex source).owningFunction).theCfg).putColor source .gray

/-- Everything before the loop.  A source that does not know its function is
asked through `NULL`. -/
def start (source : VertexPtr) (visitor : σ) : State ε σ :=
  let s : State ε σ := ⟨⟨[startFrame h source], ∅⟩, [], visitor, none⟩
  if (h.vertex source).owningFunction = null then
    { s with stop := some (.fault .nullDereference) }
  else
    visit (V.discoverVertex source) s fun r s =>
      -- For terminate_search, too, only the edge range is made empty.
      let outEdges := if r = .ok then h.outEdgeList o source else []
      { s with dfsStack := [⟨source, outEdges⟩] }

end ControlFlowGraphTraversalDFS

end CoFlo.Ports
