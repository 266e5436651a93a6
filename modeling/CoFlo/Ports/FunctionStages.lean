import CoFlo.Ports.ParseHelpers

/-!
# `Function::CreateControlFlowGraph`, up to the back edges

`CreateControlFlowGraph` is one long method.  Its phases are ported one by
one, in source order and each under a name of its own; the local variables
that live across phases are the fields of `CreateState`.  The two algorithms
it ends with, `FixupBackEdges` and `RemoveRedundantNodes`, have their own
modules, and `CoFlo.Ports.CreateControlFlowGraph` puts all of it together.
-/

namespace CoFlo.Ports

/-- `BasicBlockLeaderInfo`. -/
structure BasicBlockLeaderInfo where
  leader : VertexPtr
  immediatePredecessor : VertexPtr
  deriving DecidableEq, Repr

/-- The local variables of `CreateControlFlowGraph` while it adds the
statements. -/
structure CreateState where
  heap : Heap
  labelMap : LabelMap
  prevVertex : VertexPtr
  prevVertexEndedBasicBlock : Bool
  listOfLeaderInfo : List BasicBlockLeaderInfo
  listOfStatementsWithNoInEdgeYet : List VertexPtr
  listOfUnlinkedFlowControlStatements : List VertexPtr

namespace Heap

/-- `SetOwningFunction`. -/
def setOwningFunction (h : Heap) (v : VertexPtr) (owningFunction : FunctionPtr) :
    Heap :=
  h.modifyVertex v fun x => { x with owningFunction }

/-- The location of `ENTRY` and `EXIT`. -/
def pseudoLocation (h : Heap) (this : FunctionPtr) : Location :=
  .ofString ("[" ++ (h.function this).definitionFilePath ++ " : 0]")

/-- Creates the ENTRY and EXIT vertices and the label map with `"EXIT"`. -/
def createEntryAndExit (h : Heap) (this : FunctionPtr) : Result CreateState := do
  let cfg := (h.function this).theCfg
  let (entryPtr, h) := h.newVertex .entry (h.pseudoLocation this)
  let (exitPtr, h) := h.newVertex .exit (h.pseudoLocation this)
  let h := h.setOwningFunction entryPtr this
  let h := h.setOwningFunction exitPtr this
  let h ← h.addVertex cfg entryPtr
  let h := h.modifyFunction this fun x => { x with entryVertexDesc := entryPtr }
  let h ← h.addVertex cfg exitPtr
  let h := h.modifyFunction this fun x => { x with exitVertexDesc := exitPtr }
  return {
    heap := h
    labelMap := LabelMap.set (fun _ => none) "EXIT" exitPtr
    prevVertex := entryPtr
    prevVertexEndedBasicBlock := false
    listOfLeaderInfo := []
    listOfStatementsWithNoInEdgeYet := []
    listOfUnlinkedFlowControlStatements := [] }

end Heap

/-- "If this is a label, add it to the map."  A second label of the same name
takes the place of the first. -/
def LabelMap.addLabel (labelMap : LabelMap) (statement : Statement)
    (vid : VertexPtr) : LabelMap :=
  match statement.labelIdentifier with
  | some identifier => labelMap.set identifier vid
  | none => labelMap

/-- One round of the loop over `statement_list`. -/
def CreateState.addStatement (this : FunctionPtr) (s : CreateState)
    (sbp : VertexPtr) : Result CreateState := do
  let cfg := (s.heap.function this).theCfg
  let h := s.heap.setOwningFunction sbp this
  let h ← h.addVertex cfg sbp
  let s := { s with
    labelMap := s.labelMap.addLabel (h.vertex sbp).statement sbp }
  let s :=
    if s.prevVertexEndedBasicBlock = false then
      { s with heap := h.addNewEdge cfg s.prevVertex sbp .fallthrough }
    else
      { s with
        heap := h
        listOfStatementsWithNoInEdgeYet :=
          s.listOfStatementsWithNoInEdgeYet ++ [sbp]
        listOfLeaderInfo := s.listOfLeaderInfo ++ [⟨sbp, s.prevVertex⟩] }
  let s :=
    if (s.heap.vertex sbp).statement.isFlowControlUnlinked then
      { s with
        listOfUnlinkedFlowControlStatements :=
          s.listOfUnlinkedFlowControlStatements ++ [sbp]
        prevVertexEndedBasicBlock := true }
    else
      { s with prevVertexEndedBasicBlock := false }
  return { s with prevVertex := sbp }

/-- The fallthrough of the last statement to EXIT. -/
def CreateState.addExitFallthrough (this : FunctionPtr) (s : CreateState) :
    CreateState :=
  let cfg := (s.heap.function this).theCfg
  let exitVertexDesc := (s.heap.function this).exitVertexDesc
  if s.prevVertexEndedBasicBlock = false then
    { s with heap := s.heap.addNewEdge cfg s.prevVertex exitVertexDesc .fallthrough }
  else
    s

namespace Heap

/-- Everything before "Now we must link the basic blocks together". -/
def addStatements (h : Heap) (this : FunctionPtr)
    (statementList : List VertexPtr) : Result CreateState := do
  let s ← h.createEntryAndExit this
  let s ← statementList.foldlM (CreateState.addStatement this) s
  return s.addExitFallthrough this

/-- One round of the linking loop. -/
def linkStatement (cfg : GraphPtr) (labelMap : LabelMap) (h : Heap)
    (vd : VertexPtr) : Result Heap :=
  match h.resolveLinks cfg vd labelMap with
  | (some replacementStatement, h) => h.replaceVertex cfg vd replacementStatement
  | (none, h) => .ok h

end Heap

/-- The linking loop: "Link the FlowControlUnlinked-derived statements". -/
def CreateState.linkStatements (this : FunctionPtr) (s : CreateState) :
    Result Heap :=
  s.listOfUnlinkedFlowControlStatements.foldlM
    (Heap.linkStatement (s.heap.function this).theCfg s.labelMap) s.heap

namespace Heap

/-- One round of `AddImpossibleEdges`. -/
def addImpossibleEdge (cfg : GraphPtr) (h : Heap) (p : BasicBlockLeaderInfo) :
    Heap :=
  if h.inDegree p.leader ≠ 0 then h
  else h.addNewEdge cfg p.immediatePredecessor p.leader .impossible

/-- `Function::AddImpossibleEdges`. -/
def addImpossibleEdges (h : Heap) (cfg : GraphPtr)
    (leaderInfoList : List BasicBlockLeaderInfo) : Heap :=
  leaderInfoList.foldl (addImpossibleEdge cfg) h

/-- `Function::CheckForNoInEdges`: the return value and the list `output`. -/
def checkForNoInEdges (h : Heap)
    (listOfStatementsWithNoInEdgeYet : List VertexPtr) : Bool × List VertexPtr :=
  let output :=
    listOfStatementsWithNoInEdgeYet.filter fun vd => h.inDegree vd = 0
  (!output.isEmpty, output)

/-- Adds the self edges to the ENTRY and EXIT vertices. -/
def addSelfEdges (h : Heap) (this : FunctionPtr) : Heap :=
  let cfg := (h.function this).theCfg
  let entryVertexDesc := (h.function this).entryVertexDesc
  let exitVertexDesc := (h.function this).exitVertexDesc
  let h := h.modifyFunction this fun x =>
    { x with entryVertexSelfEdge := h.nextEdge }
  let h := h.addNewEdge cfg entryVertexDesc entryVertexDesc .impossible
  let h := h.modifyFunction this fun x =>
    { x with exitVertexSelfEdge := h.nextEdge }
  h.addNewEdge cfg exitVertexDesc exitVertexDesc .impossible

/-- `CreateControlFlowGraph` up to and including the linking loop, with the
local variables it leaves for the phases after it. -/
def linkedFlow (h : Heap) (this : FunctionPtr)
    (statementList : List VertexPtr) : Result CreateState := do
  let s ← h.addStatements this statementList
  let heap ← s.linkStatements this
  return { s with heap }

/-- `CreateControlFlowGraph` up to "Fixing up back edges".  What
`CheckForNoInEdges` finds is only printed. -/
def connectedFlow (h : Heap) (this : FunctionPtr)
    (statementList : List VertexPtr) : Result Heap := do
  let s ← h.linkedFlow this statementList
  let cfg := (s.heap.function this).theCfg
  let h := s.heap.addImpossibleEdges cfg s.listOfLeaderInfo
  let _statementsWithNoInEdge :=
    h.checkForNoInEdges s.listOfStatementsWithNoInEdgeYet
  return h.addSelfEdges this

end Heap

end CoFlo.Ports
