import CoFlo.Ports.Visitors

/-!
# `improved_depth_first_visit`

The depth-first visit of `algorithms/depth_first_traversal.hpp`, for a graph
given by its heap.  A visitor may answer `push_color_context` and
`pop_color_context`, so the colors are in a stack of maps, and the last map
can be popped as well; a look-up in an empty stack is a fault.

The machine holds the vertex whose out-edges are being walked on top of the
stack the source keeps the others on.  One step is one round of the inner
loop, or the end of it.
-/

namespace CoFlo.Ports

open CoFlo.Verified.DepthFirstSearch (Color)

/-- `VertexInfo`: a vertex and the out-edges from `m_ei` to `m_eend`. -/
structure VertexInfo where
  vertex : VertexPtr
  outEdges : List EdgePtr
  deriving DecidableEq, Repr

/-- The out-edges of a vertex in the order in which they are walked. -/
def Heap.outEdgeList (h : Heap) (o : SetOrder) (u : VertexPtr) : List EdgePtr :=
  o.enum (h.vertex u).outEdges

namespace ImprovedDepthFirstVisit

/-- `T_COLOR_MAP`, a `std::map`. -/
abbrev ColorMap := VertexPtr → Option Color

/-- The local variables of `improved_depth_first_visit`. -/
structure State (ε σ : Type) where
  colorMapStack : List ColorMap
  dfsStack : List VertexInfo
  visitor : σ
  stop : Option (Stop ε)

namespace State

variable {ε σ : Type}

/-- `(*color_map_stack.top())[u] = color`. -/
def putColor (s : State ε σ) (u : VertexPtr) (color : Color) : State ε σ :=
  match s.colorMapStack with
  | [] => { s with stop := some (.fault .emptyStack) }
  | top :: maps =>
      { s with colorMapStack := Function.update top u (some color) :: maps }

/-- `push_color_context` and `pop_color_context`. -/
def changeColorContext (s : State ε σ) : EdgeReturnValue → State ε σ
  | .pushColorContext =>
      { s with colorMapStack := (fun _ => none) :: s.colorMapStack }
  | .popColorContext => { s with colorMapStack := s.colorMapStack.tail }
  | _ => s

end State

variable {ε σ : Type} (V : DfsVisitor ε σ) (h : Heap) (o : SetOrder)

/-- Calls a callback; what goes wrong in it ends the visit. -/
def visit {ρ : Type} (callback : Callback ε σ ρ) (s : State ε σ)
    (next : ρ → State ε σ → State ε σ) : State ε σ :=
  match callback s.visitor with
  | .error err => { s with stop := some (.visitorFault err) }
  | .ok (r, visitor) => next r { s with visitor }

/-- Goes to `u`: colors it, lets the visitor look at it, and walks its
out-edges unless the visitor does not want to. -/
def discover (u : VertexPtr) (s : State ε σ) : State ε σ :=
  let s := s.putColor u .gray
  if s.stop.isSome then s
  else
    visit (V.discoverVertex u) s fun r s =>
      let outEdges := if r = .ok then h.outEdgeList o u else []
      { s with dfsStack := ⟨u, outEdges⟩ :: s.dfsStack }

/-- What is done with an edge by the color of its target. -/
def follow (u : VertexPtr) (e : EdgePtr) (ei : List EdgePtr)
    (rest : List VertexInfo) (s : State ε σ) : State ε σ :=
  let v := (h.edge e).target
  match s.colorMapStack with
  | [] => { s with stop := some (.fault .emptyStack) }
  | top :: maps =>
      match top v with
      | some .gray =>
          visit (V.backEdge e) s fun _ s => { s with dfsStack := ⟨u, ei⟩ :: rest }
      | some .black =>
          visit (V.forwardOrCrossEdge e) s fun _ s =>
            { s with dfsStack := ⟨u, ei⟩ :: rest }
      | color =>
          -- A vertex that is not in the map yet is entered as white.
          let top := if color = none then Function.update top v (some .white) else top
          visit (V.treeEdge e) { s with colorMapStack := top :: maps } fun r s =>
            let s := s.changeColorContext r
            discover V h o v { s with dfsStack := ⟨u, ei⟩ :: rest }

/-- One round of the inner loop. -/
def examine (u : VertexPtr) (e : EdgePtr) (ei : List EdgePtr)
    (rest : List VertexInfo) (s : State ε σ) : State ε σ :=
  visit (V.examineEdge e) s fun r s =>
    if r = .terminateBranch then { s with dfsStack := ⟨u, ei⟩ :: rest }
    -- For terminate_search the `break` only leaves the switch.
    else follow V h o u e ei rest (s.changeColorContext r)

/-- The end of the inner loop. -/
def finish (u : VertexPtr) (rest : List VertexInfo) (s : State ε σ) :
    State ε σ :=
  let s := s.putColor u .black
  if s.stop.isSome then s
  else visit (V.finishVertex u) s fun _ s => { s with dfsStack := rest }

/-- One step of the visit. -/
def step (s : State ε σ) : Option (State ε σ) :=
  if s.stop.isSome then none
  else
    match s.dfsStack with
    | [] => none
    | ⟨u, []⟩ :: rest => some (finish V u rest s)
    | ⟨u, e :: ei⟩ :: rest => some (examine V h o u e ei rest s)

/-- Everything before the loop. -/
def start (source : VertexPtr) (visitor : σ) : State ε σ :=
  visit (V.startVertex source) ⟨[fun _ => none], [], visitor, none⟩ fun _ s =>
    discover V h o source s

end ImprovedDepthFirstVisit

end CoFlo.Ports
