import CoFlo.Ports.CallStack

/-!
# Visitors

The traversals hand what they come across to the callbacks of a visitor, and
the callbacks answer whether to go on.  A visitor is its callbacks on a state
of its own; a callback that goes wrong throws an `ε`, and a visitor whose
callbacks always return has `ε = Empty`.

`recording` makes of a visitor one that writes down the calls made to it,
with their answers.  A statement about the calls of a traversal is a statement
about the run of the traversal with the recording visitor.
-/

namespace CoFlo.Ports

/-- `vertex_return_value_t`. -/
inductive VertexReturnValue where
  | ok
  | terminateBranch
  | terminateSearch
  deriving DecidableEq, Repr

/-- `edge_return_value_t`. -/
inductive EdgeReturnValue where
  | ok
  | terminateBranch
  | terminateSearch
  | pushColorContext
  | popColorContext
  deriving DecidableEq, Repr

/-- Why a traversal stopped before it was done. -/
inductive Stop (ε : Type) where
  /-- The `return` after `terminate_search`. -/
  | returned
  | fault (fault : TraversalFault)
  | visitorFault (err : ε)
  deriving DecidableEq

/-- A callback of a visitor with the state `σ`. -/
abbrev Callback (ε σ ρ : Type) := σ → Except ε (ρ × σ)

/-- A callback that does nothing. -/
def Callback.ok {ε σ ρ : Type} (r : ρ) : Callback ε σ ρ :=
  fun s => .ok (r, s)

/-- A visitor of the depth-first traversals. -/
structure DfsVisitor (ε σ : Type) where
  startVertex : VertexPtr → Callback ε σ VertexReturnValue
  discoverVertex : VertexPtr → Callback ε σ VertexReturnValue
  examineEdge : EdgePtr → Callback ε σ EdgeReturnValue
  treeEdge : EdgePtr → Callback ε σ EdgeReturnValue
  backEdge : EdgePtr → Callback ε σ EdgeReturnValue
  forwardOrCrossEdge : EdgePtr → Callback ε σ EdgeReturnValue
  finishVertex : VertexPtr → Callback ε σ VertexReturnValue

/-- The callbacks of `ControlFlowGraphVisitorBase`. -/
def DfsVisitor.base {ε σ : Type} : DfsVisitor ε σ where
  startVertex _ := .ok .ok
  discoverVertex _ := .ok .ok
  examineEdge _ := .ok .ok
  treeEdge _ := .ok .ok
  backEdge _ := .ok .ok
  forwardOrCrossEdge _ := .ok .ok
  finishVertex _ := .ok .ok

/-- A visitor of `topological_visit_kahn`.  The edge given to
`vertex_visit_complete` is not initialised when nothing was pushed. -/
structure KahnVisitor (ε σ : Type) where
  startVertex : EdgePtr → Callback ε σ VertexReturnValue
  discoverVertex : VertexPtr → EdgePtr → Callback ε σ VertexReturnValue
  examineEdge : EdgePtr → Callback ε σ EdgeReturnValue
  treeEdge : EdgePtr → Callback ε σ EdgeReturnValue
  vertexVisitComplete : VertexPtr → Nat → Option EdgePtr → Callback ε σ Unit

/-! ## Recording the calls -/

/-- A call of a callback and the answer. -/
inductive VisitorCall where
  | startVertex (u : VertexPtr) (r : VertexReturnValue)
  | startEdge (e : EdgePtr) (r : VertexReturnValue)
  | discoverVertex (u : VertexPtr) (r : VertexReturnValue)
  | examineEdge (e : EdgePtr) (r : EdgeReturnValue)
  | treeEdge (e : EdgePtr) (r : EdgeReturnValue)
  | backEdge (e : EdgePtr) (r : EdgeReturnValue)
  | forwardOrCrossEdge (e : EdgePtr) (r : EdgeReturnValue)
  | finishVertex (u : VertexPtr) (r : VertexReturnValue)
  | vertexVisitComplete (u : VertexPtr)
  deriving DecidableEq, Repr

/-- A call of `discover_vertex` or `examine_edge` that was answered with
`terminate_search`. -/
def VisitorCall.terminatesSearch : VisitorCall → Bool
  | discoverVertex _ r => r = .terminateSearch
  | examineEdge _ r => r = .terminateSearch
  | _ => false

/-- The state of a visitor and the calls made so far. -/
structure Recorded (σ : Type) where
  visitor : σ
  calls : List VisitorCall

/-- Makes a callback and writes the call down. -/
def Recorded.call {ε σ ρ : Type} (entry : ρ → VisitorCall)
    (callback : Callback ε σ ρ) : Callback ε (Recorded σ) ρ :=
  fun s => do
    let (r, visitor) ← callback s.visitor
    return (r, ⟨visitor, s.calls ++ [entry r]⟩)

/-- The visitor that records its calls. -/
def DfsVisitor.recording {ε σ : Type} (V : DfsVisitor ε σ) :
    DfsVisitor ε (Recorded σ) where
  startVertex u := Recorded.call (.startVertex u) (V.startVertex u)
  discoverVertex u := Recorded.call (.discoverVertex u) (V.discoverVertex u)
  examineEdge e := Recorded.call (.examineEdge e) (V.examineEdge e)
  treeEdge e := Recorded.call (.treeEdge e) (V.treeEdge e)
  backEdge e := Recorded.call (.backEdge e) (V.backEdge e)
  forwardOrCrossEdge e :=
    Recorded.call (.forwardOrCrossEdge e) (V.forwardOrCrossEdge e)
  finishVertex u := Recorded.call (.finishVertex u) (V.finishVertex u)

/-- The same for a visitor of `topological_visit_kahn`, whose `start_vertex` is
given an edge. -/
def KahnVisitor.recording {ε σ : Type} (V : KahnVisitor ε σ) :
    KahnVisitor ε (Recorded σ) where
  startVertex e := Recorded.call (.startEdge e) (V.startVertex e)
  discoverVertex u e :=
    Recorded.call (.discoverVertex u) (V.discoverVertex u e)
  examineEdge e := Recorded.call (.examineEdge e) (V.examineEdge e)
  treeEdge e := Recorded.call (.treeEdge e) (V.treeEdge e)
  vertexVisitComplete u n e :=
    Recorded.call (fun _ => .vertexVisitComplete u)
      (V.vertexVisitComplete u n e)

end CoFlo.Ports
