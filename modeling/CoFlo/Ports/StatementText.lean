import CoFlo.Ports.Heap

/-!
# How statements and edges are printed

`GetIdentifierCFG()` is the text of a statement in the printed control flow
graph; `GetStatementTextDOT()`, `GetDotSVGColor()` and `GetShapeTextDOT()`
are what a dot file says of it.  A resolved call is printed by the name of the
function it calls.
-/

namespace CoFlo.Ports

/-- `EscapeifyForUseInDotLabel` puts a backslash before every quote and before
every backslash that is followed by an `n`. -/
def escapeifyForUseInDotLabel : List Char → List Char
  | [] => []
  | '\\' :: 'n' :: cs => '\\' :: '\\' :: 'n' :: escapeifyForUseInDotLabel cs
  | c :: cs =>
      if c = '\"' then '\\' :: c :: escapeifyForUseInDotLabel cs
      else c :: escapeifyForUseInDotLabel cs

namespace Statement

/-- `GetIdentifierCFG()`. -/
def identifierCFG (h : Heap) : Statement → String
  | entry => "ENTRY"
  | exit => "EXIT"
  | noOp => "NoOp"
  | placeholder => "PLACEHOLDER"
  | merge => "MERGE"
  | label identifier => identifier
  | functionCallUnresolved identifier params =>
      identifier ++ "( " ++ params ++ " )"
  | functionCallResolved targetFunction params =>
      (h.function targetFunction).functionId ++ "( " ++ params ++ " )"
  | gotoStatement => "GOTO"
  | ifStatement condition => "if(" ++ condition ++ ")"
  | switchStatement => "switch()"
  | gotoUnlinked _ => "GOTO_UNLINKED"
  | returnUnlinked _ => "RETURN_UNLINKED"
  | ifUnlinked _ _ _ => "IF_UNLINKED"
  | caseUnlinked _ => "CASE_UNLINKED"
  | switchUnlinked _ => "SWITCH_UNLINKED"

/-- `GetStatementTextDOT()`: only the calls have another text. -/
def textDOT (h : Heap) : Statement → String
  | functionCallUnresolved identifier params =>
      identifier ++ "(" ++ .ofList (escapeifyForUseInDotLabel params.toList) ++ ")"
  | functionCallResolved targetFunction _ =>
      (h.function targetFunction).functionId ++ "()"
  | st => st.identifierCFG h

/-- `GetDotSVGColor()`. -/
def dotSVGColor : Statement → String
  | functionCallUnresolved _ _ => "red"
  | _ => "black"

/-- `GetShapeTextDOT()`. -/
def shapeTextDOT : Statement → String
  | ifStatement _ | switchStatement | merge => "diamond"
  | _ => "rectangle"

end Statement

namespace EdgeType

/-- `GetLabel()`. -/
def label : EdgeType → String
  | ifTrue => "true"
  | ifFalse => "false"
  | _ => ""

/-- `GetDotLabel()`. -/
def dotLabel : EdgeType → String
  | ifTrue => "\\[true\\]"
  | ifFalse => "\\[false\\]"
  | impossible => "Impossible"
  | returnEdge _ => "Return"
  | functionCallBypass => "CallBypass"
  | _ => ""

/-- `GetDotSVGColor()`. -/
def dotSVGColor : EdgeType → String
  | impossible => "gray"
  | functionCallBypass => "blue"
  | _ => "black"

end EdgeType

/-- `GetDotStyle()`. -/
def Edge.dotStyle (e : Edge) : String :=
  if e.isBackEdge then "dashed" else "solid"

end CoFlo.Ports
