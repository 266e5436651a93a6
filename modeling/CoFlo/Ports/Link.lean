import CoFlo.Ports.CreateControlFlowGraph
import CoFlo.Ports.TranslationUnit
import CoFlo.Verified.Multimap
import Mathlib.Data.String.Basic

/-!
# `Program::Parse`: build every function, then link the calls

`BuildFunctionsFromThreeAddressFormStatementLists` builds the functions one
after the other and enters each into the program-wide function map, where a
later definition of the same name takes the place of an earlier one.  When all
translation units have been parsed, `Function::Link` is run once on every
function.  It replaces the calls whose name is in the map by
`FunctionCallResolved` vertices, and joins the graph of the caller to that of
the callee with a `FunctionCall` edge and a `Return` edge.
-/

namespace CoFlo.Ports

/-- What the parser delivers for one function. -/
structure FunctionInfo where
  definitionFilePath : String
  identifier : String
  statementList : List (Statement × Location)

/-- The statements the actions of the grammar make. -/
def Statement.isParsed : Statement → Bool
  | noOp | placeholder | label _ | functionCallUnresolved _ _ | gotoUnlinked _
  | returnUnlinked _ | ifUnlinked _ _ _ | caseUnlinked _ | switchUnlinked _ =>
      true
  | _ => false

/-- `std::map<std::string, Function*>`. -/
abbrev FunctionMap := String → Option FunctionPtr

/-- `std::multimap<std::string, FunctionCallUnresolved*>`. -/
abbrev UnresolvedFunctionCallMap :=
  CoFlo.Verified.Multimap String VertexPtr

/-- The local variables of `Function::Link`, with its output argument. -/
structure LinkState where
  heap : Heap
  unresolvedFunctionCalls : UnresolvedFunctionCallMap
  vertexReplacementInfo : List (VertexPtr × VertexPtr)

namespace Heap

/-- One round of the loop that looks for `FunctionCallUnresolved` vertices. -/
def resolveCall (functionMap : FunctionMap) (s : LinkState) (v : VertexPtr) :
    LinkState :=
  match (s.heap.vertex v).statement with
  | .functionCallUnresolved identifier params =>
      match functionMap identifier with
      | none =>
          { s with
            unresolvedFunctionCalls :=
              s.unresolvedFunctionCalls.insertEntry identifier v }
      | some f =>
          let new := s.heap.newVertex (.functionCallResolved f params)
            (s.heap.vertex v).location
          { s with
            heap := new.2
            vertexReplacementInfo := s.vertexReplacementInfo ++ [(v, new.1)] }
  | _ => s

/-- `GetFirstOutEdgeOfType<CFGEdgeTypeFallthrough>()`. -/
def firstFallthrough (h : Heap) (order : SetOrder) (v : VertexPtr) :
    Option EdgePtr :=
  (order.enum (h.vertex v).outEdges).find? fun e =>
    (h.edge e).edgeType.isFallthrough

/-- One round of the loop that puts the `FunctionCallResolved` vertices in
place. -/
def replaceCall (outEdges : SetOrder) (cfg : GraphPtr) (h : Heap)
    (p : VertexPtr × VertexPtr) : Result Heap := do
  let h ← h.replaceVertex cfg p.1 p.2
  let fcr := p.2
  match (h.vertex fcr).statement with
  | .functionCallResolved f _ =>
      let callee := h.function f
      let fallthroughEdge := h.firstFallthrough outEdges fcr
      let h := h.addNewEdge cfg fcr callee.entryVertexDesc
        (.functionCall fcr callee.theCfg)
      match fallthroughEdge with
      | some e =>
          .ok (h.addNewEdge callee.theCfg callee.exitVertexDesc
            (h.edge e).target (.returnEdge fcr))
      | none => .error ⟨.nullDereference, h⟩
  | _ => .error ⟨.nullDereference, h⟩

/-- `Function::Link`, with `unresolved_function_calls` as it leaves it. -/
def link (h : Heap) (order : IterationOrder) (this : FunctionPtr)
    (functionMap : FunctionMap)
    (unresolvedFunctionCalls : UnresolvedFunctionCallMap) :
    Result (Heap × UnresolvedFunctionCallMap) := do
  let cfg := (h.function this).theCfg
  let s := (order.vertices.enum (h.graph cfg).vertices).foldl
    (resolveCall functionMap) ⟨h, unresolvedFunctionCalls, []⟩
  let h ← s.vertexReplacementInfo.foldlM (replaceCall order.outEdges cfg) s.heap
  return (h, s.unresolvedFunctionCalls)

end Heap

/-- The orders in which the passes walk over the graph of each function. -/
structure PassOrders where
  fixup : FunctionPtr → IterationOrder
  removal : FunctionPtr → IterationOrder
  link : FunctionPtr → IterationOrder

/-- A program that is being parsed: `functions` are the `m_function_defs` of
all translation units, in order. -/
structure Program where
  heap : Heap
  functions : List FunctionPtr
  functionMap : FunctionMap
  unresolvedFunctionCalls : UnresolvedFunctionCallMap

namespace Program

/-- Before the first translation unit. -/
def initial (memory : VertexPtr → Vertex) : Program where
  heap := Heap.blank memory
  functions := []
  functionMap := fun _ => none
  unresolvedFunctionCalls := []

/-- One round of the loop of
`BuildFunctionsFromThreeAddressFormStatementLists`. -/
def buildFunction (orders : PassOrders) (p : Program) (fi : FunctionInfo) :
    Result Program := do
  let this := p.functions.length + 1
  let (statementList, h) := p.heap.newStatements fi.statementList
  let h := h.newFunction this fi.identifier fi.definitionFilePath
  let h ← h.createControlFlowGraph (orders.fixup this) (orders.removal this)
    this statementList
  return { p with
    heap := h
    functions := p.functions ++ [this]
    functionMap := Function.update p.functionMap fi.identifier (some this) }

/-- One round of the linking loop. -/
def linkFunction (orders : PassOrders) (p : Program) (this : FunctionPtr) :
    Result Program := do
  let (h, unresolvedFunctionCalls) ← p.heap.link (orders.link this) this
    p.functionMap p.unresolvedFunctionCalls
  return { p with heap := h, unresolvedFunctionCalls }

/-- The functions of all translation units, before they are linked. -/
def build (memory : VertexPtr → Vertex) (orders : PassOrders)
    (fis : List FunctionInfo) : Result Program :=
  fis.foldlM (buildFunction orders) (initial memory)

/-- `Program::Parse`. -/
def parse (memory : VertexPtr → Vertex) (orders : PassOrders)
    (fis : List FunctionInfo) : Result Program := do
  let p ← build memory orders fis
  p.functions.foldlM (linkFunction orders) p

end Program

end CoFlo.Ports
