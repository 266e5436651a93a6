import CoFlo.Ports.BuiltFunction
import CoFlo.Ports.SparsePropertyMap
import CoFlo.Verified.DepthFirstSearch

/-!
# The call stack of a traversal

Traversals follow `FunctionCall` edges into the graphs of other functions.  A
frame remembers the call that pushed it and has a color map of its own, which
makes it appear to the search as if every call had its own copy of the called
function.  Next to the stack `DFSCallStack` keeps a set of functions;
`AreWeRecursing` both asks for a function and enters it.
-/

namespace CoFlo.Ports

open CoFlo.Verified.DepthFirstSearch (Color)

/-- What goes wrong in a traversal: a method call through `NULL`, `top()` or
`pop()` of an empty stack, `pop_back()` of an empty deque. -/
inductive TraversalFault where
  | nullDereference
  | emptyStack
  | emptyDeque
  deriving DecidableEq, Repr

/-- `T_COLOR_MAP`; `white` is the default and the value no longer needed. -/
abbrev ColorMap := SparsePropertyMap VertexPtr Color

namespace ColorMap

/-- `put`. -/
def put (m : ColorMap) (v : VertexPtr) (c : Color) : ColorMap :=
  SparsePropertyMap.put .white m v c

/-- `get`. -/
def get (m : ColorMap) (v : VertexPtr) : Color × ColorMap :=
  SparsePropertyMap.get (fun _ => .white) m v

/-- The color of a vertex. -/
def color (m : ColorMap) (v : VertexPtr) : Color :=
  m.lookup (fun _ => .white) v

@[simp] theorem get_fst (m : ColorMap) (v : VertexPtr) :
    (m.get v).1 = m.color v :=
  SparsePropertyMap.get_fst _ _ _

@[simp] theorem color_get (m : ColorMap) (v w : VertexPtr) :
    (m.get v).2.color w = m.color w :=
  SparsePropertyMap.lookup_get _ _ _ _

/-- White is the default, so a color map is an ordinary map. -/
theorem color_put (m : ColorMap) (v w : VertexPtr) (c : Color) :
    (m.put v c).color w = if w = v then c else m.color w := by
  unfold color put
  rw [SparsePropertyMap.lookup_put]
  by_cases hc : c = .white
  · simp [hc]
  · simp [hc]

end ColorMap

/-- `CallStackFrameBase`. -/
structure CallStackFrame where
  functionCallWhichPushedThisFrame : VertexPtr
  callingCfg : GraphPtr
  colorMap : ColorMap

namespace CallStackFrame

/-- The constructor, which makes an empty color map. -/
def new (functionCall : VertexPtr) (cfg : GraphPtr) : CallStackFrame :=
  ⟨functionCall, cfg, .empty⟩

/-- `GetColorMap()->put`. -/
def putColor (frame : CallStackFrame) (v : VertexPtr) (c : Color) :
    CallStackFrame :=
  { frame with colorMap := frame.colorMap.put v c }

end CallStackFrame

/-- `DFSCallStack`; the top of the stack is the head of the list. -/
structure DFSCallStack where
  callStack : List CallStackFrame
  callSet : Finset FunctionPtr

namespace DFSCallStack

/-- The constructor. -/
def empty : DFSCallStack := ⟨[], ∅⟩

/-- `PushCallStack`. -/
def pushCallStack (s : DFSCallStack) (frame : CallStackFrame) : DFSCallStack :=
  { s with callStack := frame :: s.callStack }

/-- `TopCallStack`. -/
def topCallStack (s : DFSCallStack) : Except TraversalFault CallStackFrame :=
  match s.callStack with
  | [] => .error .emptyStack
  | frame :: _ => .ok frame

/-- `PopCallStack`, which reads `m_target_function` of the call that pushed the
frame. -/
def popCallStack (s : DFSCallStack) (h : Heap) :
    Except TraversalFault DFSCallStack :=
  match s.callStack with
  | [] => .error .emptyStack
  | frame :: rest =>
      if frame.functionCallWhichPushedThisFrame = null then
        .error .nullDereference
      else
        let targetFunction := (h.vertex
          frame.functionCallWhichPushedThisFrame).statement.calledFunction
        .ok ⟨rest, s.callSet.erase (targetFunction.getD null)⟩

/-- `IsCallStackEmpty`. -/
def isCallStackEmpty (s : DFSCallStack) : Bool :=
  s.callStack.isEmpty

/-- `AreWeRecursing`, which enters the function it asks for. -/
def areWeRecursing (s : DFSCallStack) (function : FunctionPtr) :
    Bool × DFSCallStack :=
  (decide (function ∈ s.callSet),
    { s with callSet := insert function s.callSet })

end DFSCallStack

end CoFlo.Ports
