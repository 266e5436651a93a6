import Mathlib.Data.Finset.Lattice.Fold
import Mathlib.Data.Finset.Range
import Mathlib.Logic.Function.Basic
import Mathlib.Order.Lattice.Nat

/-!
# The objects of a CoFlo run

CoFlo keeps its control flow graphs as C++ objects that point at each other:
a `Graph` holds two hash sets of `Vertex*` and `Edge*`, every `Vertex` holds
the hash sets of its in- and out-edges, and every `Edge` points back at its
two ends.  The same edge object is reached along three of these pointers, and
`Graph::ReplaceVertex` moves edges between vertices in place, so the port
keeps the pointers: an object is a number, `0` is `NULL`, and one `Heap` holds
what every number points at.

The hash sets are finite sets.  What an iterator over one of them yields first
is not determined by the program, so every loop over a set takes the order of
that walk as a parameter (`SetOrder`).
-/

namespace CoFlo.Ports

/-! ## Pointers -/

/-- A `Vertex*`; every vertex of a `ControlFlowGraph` is a `StatementBase`. -/
abbrev VertexPtr := Nat

/-- An `Edge*`; every edge of a `ControlFlowGraph` is a `CFGEdgeTypeBase`. -/
abbrev EdgePtr := Nat

/-- A `ControlFlowGraph*`. -/
abbrev GraphPtr := Nat

/-- A `Function*`. -/
abbrev FunctionPtr := Nat

/-- `NULL`, and the `null_vertex()` and `null_edge()` of the graph classes. -/
def null : Nat := 0

/-! ## Statements and edge types -/

/-- A `Location`, by the constructor that made it.  The passes only copy it. -/
inductive Location where
  | unknown
  | fileLine (fileName : String) (line column : Int)
  | ofString (locationString : String)
  deriving DecidableEq, Repr

/-- The concrete subclasses of `StatementBase`, with the data their methods
read.  The last five are the subclasses of `FlowControlUnlinked`. -/
inductive Statement where
  | entry
  | exit
  | noOp
  | placeholder
  | merge
  | label (identifier : String)
  | functionCallUnresolved (identifier params : String)
  | functionCallResolved (targetFunction : FunctionPtr) (params : String)
  | gotoStatement
  | ifStatement (condition : String)
  | switchStatement
  | gotoUnlinked (linkTargetName : String)
  | returnUnlinked (returnVarName : String)
  | ifUnlinked (condition ifTrue ifFalse : String)
  | caseUnlinked (linkTargetName : String)
  | switchUnlinked (caseList : List String)
  deriving DecidableEq, Repr

namespace Statement

/-- `IsType<FlowControlUnlinked>()`. -/
def isFlowControlUnlinked : Statement → Bool
  | gotoUnlinked _ | returnUnlinked _ | ifUnlinked _ _ _ | caseUnlinked _
  | switchUnlinked _ => true
  | _ => false

/-- `IsDecisionStatement()`, which only `If` and `Switch` override. -/
def isDecisionStatement : Statement → Bool
  | ifStatement _ | switchStatement => true
  | _ => false

/-- `IsFunctionCall()`. -/
def isFunctionCall : Statement → Bool
  | functionCallUnresolved _ _ | functionCallResolved _ _ => true
  | _ => false

/-- The identifier of a `Label`, when the statement is one. -/
def labelIdentifier : Statement → Option String
  | label identifier => some identifier
  | _ => none

end Statement

/-- The subclasses of `CFGEdgeTypeBase`.  `returnEdge` is `CFGEdgeTypeReturn`;
it and `functionCall` carry the `FunctionCallResolved` that made them. -/
inductive EdgeType where
  | fallthrough
  | ifTrue
  | ifFalse
  | impossible
  | functionCall (functionCall : VertexPtr) (targetCfg : GraphPtr)
  | returnEdge (functionCall : VertexPtr)
  | functionCallBypass
  | goto
  | exceptional
  deriving DecidableEq, Repr

namespace EdgeType

/-- `dynamic_cast<CFGEdgeTypeFallthrough*>`: the two `if` edges derive from
`CFGEdgeTypeFallthrough`. -/
def isFallthrough : EdgeType → Bool
  | fallthrough | ifTrue | ifFalse => true
  | _ => false

/-- `IsImpossible()`. -/
def isImpossible : EdgeType → Bool
  | impossible => true
  | _ => false

/-- `dynamic_cast<CFGEdgeTypeFunctionCall*>`, as a test. -/
def isFunctionCall : EdgeType → Bool
  | functionCall _ _ => true
  | _ => false

/-- `dynamic_cast<CFGEdgeTypeReturn*>`, as a test. -/
def isReturn : EdgeType → Bool
  | returnEdge _ => true
  | _ => false

end EdgeType

/-! ## The objects -/

/-- A `StatementBase` object. -/
structure Vertex where
  statement : Statement
  location : Location
  owningFunction : FunctionPtr
  outEdges : Finset EdgePtr
  inEdges : Finset EdgePtr
  vertexIndex : Nat
  deriving DecidableEq

/-- A `CFGEdgeTypeBase` object. -/
@[ext] structure Edge where
  source : VertexPtr
  target : VertexPtr
  edgeType : EdgeType
  isBackEdge : Bool
  deriving DecidableEq

/-- A `Graph` object. -/
@[ext] structure Graph where
  vertices : Finset VertexPtr
  edges : Finset EdgePtr
  vertexIdState : Nat
  deriving DecidableEq

/-- A `Function` object; `definitionFilePath` is what `GetDefinitionFilePath()`
reads from the translation unit. -/
structure Function where
  functionId : String
  definitionFilePath : String
  entryVertexDesc : VertexPtr
  exitVertexDesc : VertexPtr
  entryVertexSelfEdge : EdgePtr
  exitVertexSelfEdge : EdgePtr
  theCfg : GraphPtr
  deriving DecidableEq

/-- What every pointer points at.  `new` hands out `nextVertex` and `nextEdge`
and moves them on; both stay above `null`. -/
structure Heap where
  vertex : VertexPtr → Vertex
  edge : EdgePtr → Edge
  graph : GraphPtr → Graph
  function : FunctionPtr → Function
  nextVertex : VertexPtr
  nextEdge : EdgePtr

/-- The ways a run of the modelled code goes wrong: the `duplicate_add`
exception, a method call through `NULL`, the dereference of an `end()`
iterator, and a loop that does not come to its end. -/
inductive Fault where
  | duplicateAdd
  | nullDereference
  | endDereference
  | diverges
  deriving DecidableEq, Repr

/-- A fault together with the heap at the moment it happened. -/
structure Thrown where
  fault : Fault
  heap : Heap

/-- The result of code that either finishes or goes wrong. -/
abbrev Result (α : Type) := Except Thrown α

/-- The code finishes, and `P` holds of what it returns. -/
def Result.Holds {α : Type} (P : α → Prop) (r : Result α) : Prop :=
  ∃ a, r = .ok a ∧ P a

@[simp] theorem Result.holds_ok {α : Type} {P : α → Prop} {a : α} :
    Result.Holds P (.ok a) ↔ P a := by
  simp [Result.Holds]

@[simp] theorem Result.not_holds_error {α : Type} {P : α → Prop} {err : Thrown} :
    ¬ Result.Holds P (.error err) := by
  simp [Result.Holds]

instance {α : Type} (P : α → Prop) [DecidablePred P] (r : Result α) :
    Decidable (r.Holds P) :=
  match r with
  | .ok a => decidable_of_iff (P a) Result.holds_ok.symm
  | .error _ => isFalse Result.not_holds_error

/-! ## Orders of a walk over a hash set -/

/-- One way to enumerate hash sets: every set is listed completely and without
repetition.  Nothing else is promised about the order. -/
structure SetOrder where
  enum : Finset Nat → List Nat
  coe_enum : ∀ s : Finset Nat, (enum s : Multiset Nat) = s.val

namespace SetOrder

variable (o : SetOrder) (s : Finset Nat)

@[simp] theorem mem_enum {a : Nat} : a ∈ o.enum s ↔ a ∈ s := by
  rw [← Multiset.mem_coe, o.coe_enum s, Finset.mem_val]

theorem nodup_enum : (o.enum s).Nodup := by
  rw [← Multiset.coe_nodup, o.coe_enum s]
  exact s.nodup

@[simp] theorem length_enum : (o.enum s).length = s.card := by
  rw [← Multiset.coe_card, o.coe_enum s, Finset.card_val]

@[simp] theorem enum_singleton (a : Nat) : o.enum {a} = [a] := by
  have h := o.coe_enum {a}
  simpa using h

/-- A set listed along `ascending` comes out sorted. -/
def ascending : SetOrder where
  enum s := (List.range (s.sup id + 1)).filter (· ∈ s)
  coe_enum s := by
    rw [← Multiset.filter_coe, Multiset.coe_range, ← Finset.range_val,
      ← Finset.filter_val]
    congr 1
    ext a
    simp only [Finset.mem_filter, Finset.mem_range, and_iff_right_iff_imp]
    intro ha
    exact Nat.lt_succ_of_le (Finset.le_sup (f := id) ha)

/-- The reverse of `ascending`. -/
def descending : SetOrder where
  enum s := (ascending.enum s).reverse
  coe_enum s := by
    rw [← Multiset.coe_reverse, List.reverse_reverse, ascending.coe_enum]

end SetOrder

/-- The orders in which one pass walks the vertex set of a graph and the out-
and in-edge sets of its vertices. -/
structure IterationOrder where
  vertices : SetOrder
  outEdges : SetOrder
  inEdges : SetOrder

/-- Everything in ascending order of the pointers. -/
def IterationOrder.ascending : IterationOrder where
  vertices := .ascending
  outEdges := .ascending
  inEdges := .ascending

/-! ## Writing to the heap -/

namespace Heap

/-- Writes through a `Vertex*`. -/
def modifyVertex (h : Heap) (v : VertexPtr) (f : Vertex → Vertex) : Heap :=
  { h with vertex := Function.update h.vertex v (f (h.vertex v)) }

/-- Writes through an `Edge*`. -/
def modifyEdge (h : Heap) (e : EdgePtr) (f : Edge → Edge) : Heap :=
  { h with edge := Function.update h.edge e (f (h.edge e)) }

/-- Writes through a `ControlFlowGraph*`. -/
def modifyGraph (h : Heap) (g : GraphPtr) (f : Graph → Graph) : Heap :=
  { h with graph := Function.update h.graph g (f (h.graph g)) }

/-- Writes through a `Function*`. -/
def modifyFunction (h : Heap) (p : FunctionPtr) (f : Function → Function) :
    Heap :=
  { h with function := Function.update h.function p (f (h.function p)) }

section

variable (h : Heap)

theorem modifyVertex_vertex (v w : VertexPtr) (f : Vertex → Vertex) :
    (h.modifyVertex v f).vertex w =
      if w = v then f (h.vertex v) else h.vertex w := by
  simp [modifyVertex, Function.update_apply]

@[simp] theorem modifyVertex_edge (v : VertexPtr) (f : Vertex → Vertex) :
    (h.modifyVertex v f).edge = h.edge := rfl

@[simp] theorem modifyVertex_graph (v : VertexPtr) (f : Vertex → Vertex) :
    (h.modifyVertex v f).graph = h.graph := rfl

@[simp] theorem modifyVertex_function (v : VertexPtr) (f : Vertex → Vertex) :
    (h.modifyVertex v f).function = h.function := rfl

@[simp] theorem modifyVertex_nextVertex (v : VertexPtr) (f : Vertex → Vertex) :
    (h.modifyVertex v f).nextVertex = h.nextVertex := rfl

@[simp] theorem modifyVertex_nextEdge (v : VertexPtr) (f : Vertex → Vertex) :
    (h.modifyVertex v f).nextEdge = h.nextEdge := rfl

@[simp] theorem modifyEdge_vertex (e : EdgePtr) (f : Edge → Edge) :
    (h.modifyEdge e f).vertex = h.vertex := rfl

theorem modifyEdge_edge (e d : EdgePtr) (f : Edge → Edge) :
    (h.modifyEdge e f).edge d = if d = e then f (h.edge e) else h.edge d := by
  simp [modifyEdge, Function.update_apply]

@[simp] theorem modifyEdge_graph (e : EdgePtr) (f : Edge → Edge) :
    (h.modifyEdge e f).graph = h.graph := rfl

@[simp] theorem modifyEdge_function (e : EdgePtr) (f : Edge → Edge) :
    (h.modifyEdge e f).function = h.function := rfl

@[simp] theorem modifyEdge_nextVertex (e : EdgePtr) (f : Edge → Edge) :
    (h.modifyEdge e f).nextVertex = h.nextVertex := rfl

@[simp] theorem modifyEdge_nextEdge (e : EdgePtr) (f : Edge → Edge) :
    (h.modifyEdge e f).nextEdge = h.nextEdge := rfl

@[simp] theorem modifyGraph_vertex (g : GraphPtr) (f : Graph → Graph) :
    (h.modifyGraph g f).vertex = h.vertex := rfl

@[simp] theorem modifyGraph_edge (g : GraphPtr) (f : Graph → Graph) :
    (h.modifyGraph g f).edge = h.edge := rfl

theorem modifyGraph_graph (g k : GraphPtr) (f : Graph → Graph) :
    (h.modifyGraph g f).graph k =
      if k = g then f (h.graph g) else h.graph k := by
  simp [modifyGraph, Function.update_apply]

@[simp] theorem modifyGraph_function (g : GraphPtr) (f : Graph → Graph) :
    (h.modifyGraph g f).function = h.function := rfl

@[simp] theorem modifyGraph_nextVertex (g : GraphPtr) (f : Graph → Graph) :
    (h.modifyGraph g f).nextVertex = h.nextVertex := rfl

@[simp] theorem modifyGraph_nextEdge (g : GraphPtr) (f : Graph → Graph) :
    (h.modifyGraph g f).nextEdge = h.nextEdge := rfl

@[simp] theorem modifyFunction_vertex (p : FunctionPtr)
    (f : Function → Function) : (h.modifyFunction p f).vertex = h.vertex := rfl

@[simp] theorem modifyFunction_edge (p : FunctionPtr)
    (f : Function → Function) : (h.modifyFunction p f).edge = h.edge := rfl

@[simp] theorem modifyFunction_graph (p : FunctionPtr)
    (f : Function → Function) : (h.modifyFunction p f).graph = h.graph := rfl

theorem modifyFunction_function (p q : FunctionPtr) (f : Function → Function) :
    (h.modifyFunction p f).function q =
      if q = p then f (h.function p) else h.function q := by
  simp [modifyFunction, Function.update_apply]

@[simp] theorem modifyFunction_nextVertex (p : FunctionPtr)
    (f : Function → Function) :
    (h.modifyFunction p f).nextVertex = h.nextVertex := rfl

@[simp] theorem modifyFunction_nextEdge (p : FunctionPtr)
    (f : Function → Function) :
    (h.modifyFunction p f).nextEdge = h.nextEdge := rfl

end

end Heap

end CoFlo.Ports
