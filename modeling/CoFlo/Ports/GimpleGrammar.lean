import CoFlo.Ports.LocationString
import CoFlo.Verified.SyntaxActions

/-!
# The grammar of GIMPLE

The productions of `function_definition` and of the statements in it, and their
actions.  An action addresses the children of its node by position, `$0` and so on; the
members of their user data are pointers, and an action that passes one on with
`M_PROPAGATE_PTR` takes it away from the child.

Symbols that stand for terminals only, and have no action, are tokens here, such as the
operators and the constants.  `(...)?`, `(...)*` and `(...)+` are symbols of their own, as
they are one child of the node.
-/

namespace CoFlo.Ports

open CoFlo.Verified.SyntaxActions

/-! ## Symbols and productions -/

/-- The symbols of the grammar. -/
inductive GimpleSymbol where
  | functionDefinition
  | location
  | realLocation
  | paramDeclsList
  | statementList
  | statement
  | statementOneLine
  | returnStatement
  | statementPossiblySplitAcrossLines
  | assignmentStatement
  | assignmentStatementInternals
  | ifStatement
  | scope
  | functionCall
  | gotoStatement
  | labelStatement
  | switchStatement
  | switchCaseList
  | switchCaseList453
  | case453
  | varId
  | syntheticLabelId
  | integer
  | identifierSsa
  | identifier
  | paramDecls
  | optIdentifier
  | optDeclarationListNewline
  | optDeclarationList
  | declarationList
  | declaration
  | varDeclaration
  | localFunctionDeclaration
  | declSpecs
  | declSpecsTail
  | declSpec
  | condition
  | castExpression
  | typeName
  | varOrConstant
  | cases
  | case
  | argumentExpressionList
  | lhs
  | rhs
  | nestedLhs
  | nestedRhs
  -- a terminal in quotes, and the regular expression of a terminal with an action
  | literal (text : String)
  | pattern
  -- symbols for terminals only
  | newline
  | path
  | comment
  | postLineText
  | optSemicolon
  | declKeyword
  | declaratorSuffixes
  | optInitializer
  | stringLiteral
  | constant
  | comparisonOperator
  | bitwiseBinaryOperator
  | arithmeticBinaryOperator
  | minOrMax
  deriving DecidableEq, Repr

namespace GimpleSymbol

/-- Symbols without productions. -/
def isToken : GimpleSymbol → Bool
  | literal _ | pattern | newline | path | comment | postLineText | optSemicolon
  | declKeyword | declaratorSuffixes | optInitializer | stringLiteral | constant
  | comparisonOperator | bitwiseBinaryOperator | arithmeticBinaryOperator | minOrMax => true
  | _ => false

end GimpleSymbol

/-- The productions, in the order of the grammar. -/
inductive GimpleProduction where
  | functionDefinitionC
  | functionDefinitionCpp
  | locationReal
  | locationNothing
  | realLocationColumn
  | realLocationLine
  | paramDeclsListMore
  | paramDeclsListOne
  | paramDeclsListNothing
  | statementListStatement
  | statementListOneStatement
  | statementListScope
  | statementListOneScope
  | statementListNothing
  | statementOneLine
  | statementComment
  | statementSplit
  | statementLabel
  | oneLineAssignment
  | oneLineReturn
  | oneLineCall
  | oneLineGoto
  | returnVar
  | returnNothing
  | splitIf
  | splitSwitch
  | assignment
  | assignBitwise
  | assignCastExpression
  | assignComplement
  | assignMinus
  | assignArithmetic
  | assignCast
  | assignCall
  | assignMinOrMax
  | assignBitField
  | assignCondition
  | assignNested
  | ifGotos
  | scope
  | callIdentifier
  | callSsa
  | gotoSynthetic
  | gotoIdentifier
  | labelSynthetic
  | labelIdentifier
  | switch
  | caseListAngleBrackets
  | caseListBraces
  | caseList453More
  | caseList453One
  | case453Case
  | case453Default
  | varIdSsa
  | varIdIdentifier
  | varIdRetval
  | syntheticLabelId
  | integer
  | identifierSsa
  | identifier
  | paramDecls
  | optIdentifierOne
  | optIdentifierNothing
  | optDeclarationListNewlineOne
  | optDeclarationListNewlineNothing
  | optDeclarationListOne
  | optDeclarationListNothing
  | declarationListMore
  | declarationListOne
  | declarationVar
  | declarationLocalFunction
  | varDeclaration
  | localFunctionDeclaration
  | declSpecsMore
  | declSpecsOne
  | declSpecsTailMore
  | declSpecsTailNothing
  | declSpecKeyword
  | declSpecStruct
  | declSpecIdentifier
  | declSpecArray
  | declSpecParentheses
  | condition
  | castRhs
  | castString
  | typeName
  | varOrConstantVar
  | varOrConstantConstant
  | casesMore
  | casesNothing
  | caseRhs
  | caseDefault
  | argumentsMore
  | argumentsOne
  | argumentsNothing
  | lhsNested
  | rhsNested
  | nestedLhsMember
  | nestedLhsArrow
  | nestedLhsIndex
  | nestedLhsDereference
  | nestedLhsVar
  | nestedRhsMember
  | nestedRhsArrow
  | nestedRhsIndex
  | nestedRhsDereference
  | nestedRhsAddress
  | nestedRhsVar
  | nestedRhsConstant
  | nestedRhsString
  | nestedRhsLocationVar
  deriving DecidableEq, Repr

namespace GimpleProduction

/-- The left-hand side. -/
def lhs : GimpleProduction → GimpleSymbol
  | functionDefinitionC | functionDefinitionCpp => .functionDefinition
  | locationReal | locationNothing => .location
  | realLocationColumn | realLocationLine => .realLocation
  | paramDeclsListMore | paramDeclsListOne | paramDeclsListNothing => .paramDeclsList
  | statementListStatement | statementListOneStatement | statementListScope
  | statementListOneScope | statementListNothing => .statementList
  | statementOneLine | statementComment | statementSplit | statementLabel => .statement
  | oneLineAssignment | oneLineReturn | oneLineCall | oneLineGoto => .statementOneLine
  | returnVar | returnNothing => .returnStatement
  | splitIf | splitSwitch => .statementPossiblySplitAcrossLines
  | assignment => .assignmentStatement
  | assignBitwise | assignCastExpression | assignComplement | assignMinus
  | assignArithmetic | assignCast | assignCall | assignMinOrMax | assignBitField
  | assignCondition | assignNested => .assignmentStatementInternals
  | ifGotos => .ifStatement
  | scope => .scope
  | callIdentifier | callSsa => .functionCall
  | gotoSynthetic | gotoIdentifier => .gotoStatement
  | labelSynthetic | labelIdentifier => .labelStatement
  | switch => .switchStatement
  | caseListAngleBrackets | caseListBraces => .switchCaseList
  | caseList453More | caseList453One => .switchCaseList453
  | case453Case | case453Default => .case453
  | varIdSsa | varIdIdentifier | varIdRetval => .varId
  | syntheticLabelId => .syntheticLabelId
  | integer => .integer
  | identifierSsa => .identifierSsa
  | identifier => .identifier
  | paramDecls => .paramDecls
  | optIdentifierOne | optIdentifierNothing => .optIdentifier
  | optDeclarationListNewlineOne | optDeclarationListNewlineNothing =>
      .optDeclarationListNewline
  | optDeclarationListOne | optDeclarationListNothing => .optDeclarationList
  | declarationListMore | declarationListOne => .declarationList
  | declarationVar | declarationLocalFunction => .declaration
  | varDeclaration => .varDeclaration
  | localFunctionDeclaration => .localFunctionDeclaration
  | declSpecsMore | declSpecsOne => .declSpecs
  | declSpecsTailMore | declSpecsTailNothing => .declSpecsTail
  | declSpecKeyword | declSpecStruct | declSpecIdentifier | declSpecArray
  | declSpecParentheses => .declSpec
  | condition => .condition
  | castRhs | castString => .castExpression
  | typeName => .typeName
  | varOrConstantVar | varOrConstantConstant => .varOrConstant
  | casesMore | casesNothing => .cases
  | caseRhs | caseDefault => .case
  | argumentsMore | argumentsOne | argumentsNothing => .argumentExpressionList
  | lhsNested => .lhs
  | rhsNested => .rhs
  | nestedLhsMember | nestedLhsArrow | nestedLhsIndex | nestedLhsDereference
  | nestedLhsVar => .nestedLhs
  | nestedRhsMember | nestedRhsArrow | nestedRhsIndex | nestedRhsDereference
  | nestedRhsAddress | nestedRhsVar | nestedRhsConstant | nestedRhsString
  | nestedRhsLocationVar => .nestedRhs

open GimpleSymbol in
/-- The right-hand side. -/
def rhs : GimpleProduction → List GimpleSymbol
  | functionDefinitionC =>
      [.identifier, literal "(", .paramDeclsList, literal ")", newline, .location, literal "\x7b",
        newline, optDeclarationListNewline, .statementList, literal "\x7d"]
  | functionDefinitionCpp =>
      [declSpecs, .identifier, literal "(", .paramDeclsList, literal ")", literal "(",
        .paramDeclsList, literal ")", newline, .location, literal "\x7b", newline,
        optDeclarationListNewline, .statementList, literal "\x7d"]
  | locationReal => [.realLocation]
  | locationNothing => []
  | realLocationColumn =>
      [literal "[", path, literal ":", .integer, literal ":", .integer, literal "]"]
  | realLocationLine => [literal "[", path, literal ":", .integer, literal "]"]
  | paramDeclsListMore => [.paramDeclsList, literal ",", .paramDecls]
  | paramDeclsListOne => [.paramDecls]
  | paramDeclsListNothing => []
  | statementListStatement => [.statementList, .statement, newline]
  | statementListOneStatement => [.statement, newline]
  | statementListScope => [.statementList, .scope, newline]
  | statementListOneScope => [.scope, newline]
  | statementListNothing => []
  | statementOneLine => [.statementOneLine, literal ";", postLineText]
  | statementComment => [.location, comment]
  | statementSplit => [.statementPossiblySplitAcrossLines]
  | statementLabel => [.labelStatement, optSemicolon]
  | oneLineAssignment => [.assignmentStatement]
  | oneLineReturn => [.returnStatement]
  | oneLineCall => [.functionCall]
  | oneLineGoto => [.gotoStatement]
  | returnVar => [.location, literal "return", .varId]
  | returnNothing => [.location, literal "return"]
  | splitIf => [.ifStatement]
  | splitSwitch => [.switchStatement]
  | assignment => [.realLocation, .assignmentStatementInternals]
  | assignBitwise =>
      [.lhs, literal "=", .rhs, bitwiseBinaryOperator, .rhs]
  | assignCastExpression => [nestedLhs, literal "=", castExpression]
  | assignComplement => [.lhs, literal "=", literal "~", .rhs]
  | assignMinus => [.lhs, literal "=", literal "-", .rhs]
  | assignArithmetic =>
      [.lhs, literal "=", .rhs, arithmeticBinaryOperator, .rhs]
  | assignCast =>
      [.lhs, literal "=", literal "(", declSpecs, literal ")", .rhs]
  | assignCall => [.lhs, literal "=", .functionCall]
  | assignMinOrMax =>
      [.lhs, literal "=", minOrMax, literal "<", argumentExpressionList, literal ">"]
  | assignBitField =>
      [.lhs, literal "=", .realLocation, literal "BIT_FIELD_REF", literal "<", .rhs,
        literal ",", constant, literal ",", constant, literal ">"]
  | assignCondition => [.lhs, literal "=", .condition]
  | assignNested => [nestedLhs, literal "=", .rhs]
  | ifGotos =>
      [.location, literal "if", literal "(", .condition, literal ")", .gotoStatement,
        literal ";", literal "else", .gotoStatement, literal ";"]
  | scope =>
      [.location, literal "\x7b", newline, optDeclarationList, newline, .statementList,
        literal "\x7d"]
  | callIdentifier =>
      [.location, .identifier, literal "(", argumentExpressionList, literal ")"]
  | callSsa =>
      [.location, .identifierSsa, literal "(", argumentExpressionList, literal ")"]
  | gotoSynthetic => [.location, literal "goto", .syntheticLabelId]
  | gotoIdentifier => [.location, literal "goto", .identifier]
  | labelSynthetic => [.location, .syntheticLabelId, literal ":"]
  | labelIdentifier => [.location, .identifier, literal ":"]
  | switch =>
      [.location, literal "switch", literal "(", varOrConstant, literal ")", .switchCaseList]
  | caseListAngleBrackets => [literal "<", .switchCaseList453, literal ">"]
  | caseListBraces => [literal "\x7b", GimpleSymbol.cases, literal "\x7d"]
  | caseList453More => [.switchCaseList453, literal ",", .case453]
  | caseList453One => [.case453]
  | case453Case => [.location, literal "case", .rhs, literal ":", .syntheticLabelId]
  | case453Default => [.location, literal "default:", .syntheticLabelId]
  | varIdSsa => [.identifierSsa]
  | varIdIdentifier => [.identifier]
  | varIdRetval => [literal "<retval>"]
  | syntheticLabelId => [literal "<", .identifierSsa, literal ">"]
  | integer => [pattern]
  | identifierSsa => [pattern]
  | identifier => [pattern]
  | paramDecls => [declSpecs, optIdentifier]
  | optIdentifierOne => [.identifier]
  | optIdentifierNothing => []
  | optDeclarationListNewlineOne => [declarationList, newline]
  | optDeclarationListNewlineNothing => []
  | optDeclarationListOne => [declarationList]
  | optDeclarationListNothing => []
  | declarationListMore => [declarationList, declaration, newline]
  | declarationListOne => [declaration, newline]
  | declarationVar => [.varDeclaration]
  | declarationLocalFunction => [.localFunctionDeclaration]
  | varDeclaration => [declSpecs, .varId, declaratorSuffixes, optInitializer, literal ";"]
  | localFunctionDeclaration =>
      [declSpecs, .identifier, literal "(", .paramDeclsList, literal ")", literal ";"]
  | declSpecsMore => [declSpecs, declSpec]
  | declSpecsOne => [declSpec]
  | declSpecsTailMore => [declSpecsTail, literal ",", declSpecs]
  | declSpecsTailNothing => []
  | declSpecKeyword => [declKeyword]
  | declSpecStruct => [literal "struct", .identifier]
  | declSpecIdentifier => [.identifier]
  | declSpecArray => [literal "[", constant, literal "]"]
  | declSpecParentheses => [literal "(", declSpecs, declSpecsTail, literal ")"]
  | condition => [varOrConstant, comparisonOperator, .rhs]
  | castRhs => [literal "(", .typeName, literal ")", .rhs]
  | castString =>
      [literal "(", .typeName, literal ")", literal "&", stringLiteral, literal "[", constant,
        literal "]"]
  | typeName => [declSpecs]
  | varOrConstantVar => [.varId]
  | varOrConstantConstant => [constant]
  | casesMore => [GimpleSymbol.cases, .case]
  | casesNothing => []
  | caseRhs =>
      [.location, literal "case", .rhs, literal ":", .gotoStatement, literal ";"]
  | caseDefault => [.location, literal "default:", .gotoStatement, literal ";"]
  | argumentsMore => [argumentExpressionList, literal ",", .rhs]
  | argumentsOne => [.rhs]
  | argumentsNothing => []
  | lhsNested => [nestedLhs]
  | rhsNested => [nestedRhs]
  | nestedLhsMember => [.location, nestedLhs, literal ".", .varId]
  | nestedLhsArrow => [.location, nestedLhs, literal "->", .identifier]
  | nestedLhsIndex => [.location, nestedLhs, literal "[", varOrConstant, literal "]"]
  | nestedLhsDereference => [.location, literal "*", .varId]
  | nestedLhsVar => [.varId]
  | nestedRhsMember => [.location, nestedRhs, literal ".", .varId]
  | nestedRhsArrow => [.location, nestedRhs, literal "->", .identifier]
  | nestedRhsIndex => [.location, nestedRhs, literal "[", varOrConstant, literal "]"]
  | nestedRhsDereference => [.location, literal "*", nestedRhs]
  | nestedRhsAddress => [.realLocation, literal "&", nestedRhs]
  | nestedRhsVar => [.varId]
  | nestedRhsConstant => [constant]
  | nestedRhsString => [.location, stringLiteral]
  | nestedRhsLocationVar => [.realLocation, .varId]

end GimpleProduction

/-! ## The user data of a node -/

/-- The members of `gcc_gimple_parser_ParseNode_User` that are pointers. -/
inductive PtrMember where
  | str
  | location
  | statement
  | statementList
  | functionInfo
  deriving DecidableEq, Repr

/-- `gcc_gimple_parser_ParseNode_User`. -/
structure ParseNodeUser where
  int : Int
  ptr : PtrMember → Nat

namespace ParseNodeUser

/-- Before the action of a node. -/
def zero : ParseNodeUser := ⟨0, fun _ => null⟩

/-- `m_... = p`. -/
def set (user : ParseNodeUser) (member : PtrMember) (p : Nat) : ParseNodeUser :=
  { user with ptr := Function.update user.ptr member p }

@[simp] theorem set_ptr_self (user : ParseNodeUser) (member : PtrMember) (p : Nat) :
    (user.set member p).ptr member = p := Function.update_self ..

end ParseNodeUser

/-- `D_ParseNode`. -/
structure ParseNode where
  text : String
  user : ParseNodeUser

/-- What the pointers point to. -/
inductive ParserObject where
  | str (s : String)
  | location (l : Location)
  | statement (statement : Statement) (location : Location)
  | statementList (statements : List Nat)
  | functionInfo (location identifier statementList : Nat)
  deriving DecidableEq, Repr

/-! ## Actions -/

/-- The nodes `$0`, `$1`, ... and `$$` of an action, and the memory. -/
structure ActionState where
  children : List ParseNode
  self : ParseNodeUser
  memory : Memory ParserObject

namespace ActionState

/-- `$nk`. -/
def child (s : ActionState) (k : Nat) : ParseNode :=
  s.children.getD k ⟨"", .zero⟩

end ActionState

abbrev ActionM := StateT ActionState (Except Fault)

namespace ActionM

/-- `$k.m_...`. -/
def childPtr (k : Nat) (member : PtrMember) : ActionM Nat := fun s =>
  .ok ((s.child k).user.ptr member, s)

/-- `$k.m_int`. -/
def childInt (k : Nat) : ActionM Int := fun s => .ok ((s.child k).user.int, s)

/-- `M_TO_STR($nk)`. -/
def childText (k : Nat) : ActionM String := fun s => .ok ((s.child k).text, s)

/-- `$$.m_... = p`. -/
def setSelf (member : PtrMember) (p : Nat) : ActionM Unit := fun s =>
  .ok ((), { s with self := s.self.set member p })

/-- `$$.m_int = i`. -/
def setSelfInt (i : Int) : ActionM Unit := fun s =>
  .ok ((), { s with self.int := i })

/-- `$k.m_... = NULL`. -/
def clearChild (k : Nat) (member : PtrMember) : ActionM Unit := fun s =>
  .ok ((), { s with
    children := s.children.modify k fun n => { n with user := n.user.set member null } })

/-- `M_PROPAGATE_PTR($k, $$, m_...)`. -/
def propagatePtr (k : Nat) (member : PtrMember) : ActionM Unit := do
  setSelf member (← childPtr k member)
  clearChild k member

/-- `new`. -/
def new (o : ParserObject) : ActionM Nat := fun s =>
  .ok (s.memory.allocated + 1, { s with memory := s.memory.new o })

/-- `*p` of a string. -/
def str (p : Nat) : ActionM String := fun s =>
  match s.memory.object p with
  | some (.str x) => .ok (x, s)
  | _ => .error .nullDereference

/-- `*p` of a `Location`. -/
def location (p : Nat) : ActionM Location := fun s =>
  match s.memory.object p with
  | some (.location l) => .ok (l, s)
  | _ => .error .nullDereference

/-- The elements of `*p`, a `StatementList`. -/
def statements (p : Nat) : ActionM (List Nat) := fun s =>
  match s.memory.object p with
  | some (.statementList l) => .ok (l, s)
  | _ => .error .nullDereference

/-- `p->push_back(statement)`. -/
def pushBack (p statement : Nat) : ActionM Unit := fun s =>
  match s.memory.object p with
  | some (.statementList l) =>
      .ok ((), { s with memory := s.memory.write p (.statementList (l ++ [statement])) })
  | _ => .error .nullDereference

/-- `p->SetLocation(l)`. -/
def setLocation (p : Nat) (l : Location) : ActionM Unit := fun s =>
  match s.memory.object p with
  | some (.statement st _) =>
      .ok ((), { s with memory := s.memory.write p (.statement st l) })
  | _ => .error .nullDereference

/-- `dynamic_cast<GotoUnlinked*>(p)->GetTarget()`.  An `IfUnlinked` keeps the pointer
and follows it when it is linked. -/
def gotoTarget (p : Nat) : ActionM String := fun s =>
  match s.memory.object p with
  | some (.statement (.gotoUnlinked target) _) => .ok (target, s)
  | _ => .error .nullDereference

/-- `dynamic_cast<CaseUnlinked*>(p)->GetTarget()`, in the same way. -/
def caseTarget (p : Nat) : ActionM String := fun s =>
  match s.memory.object p with
  | some (.statement (.caseUnlinked target) _) => .ok (target, s)
  | _ => .error .nullDereference

/-- `dynamic_cast<SwitchUnlinked*>(p)->InsertCase(...)`. -/
def insertCase (p : Nat) (target : String) : ActionM Unit := fun s =>
  match s.memory.object p with
  | some (.statement (.switchUnlinked caseList) l) =>
      .ok ((), { s with
        memory := s.memory.write p (.statement (.switchUnlinked (caseList ++ [target])) l) })
  | _ => .error .nullDereference

/-- `$$.m_statement = new ...(*($0.m_location), ...)`. -/
def newStatement (st : Statement) : ActionM Unit := do
  let l ← location (← childPtr 0 .location)
  setSelf .statement (← new (.statement st l))

/-- The actions of `function_definition`. -/
def newFunctionInfo (identifier location statementList : Nat) : ActionM Unit := do
  let l ← childPtr location .location
  let name ← childPtr identifier .str
  let list ← childPtr statementList .statementList
  setSelf .functionInfo (← new (.functionInfo l name list))

end ActionM

namespace GimpleProduction

open ActionM

/-- The action of a production. -/
def action : GimpleProduction → ActionM Unit
  | functionDefinitionC => do
      let _ ← str (← childPtr 0 .str)
      let _ ← ActionM.location (← childPtr 5 .location)
      let _ ← statements (← childPtr 9 .statementList)
      newFunctionInfo 0 5 9
  | functionDefinitionCpp => do
      let _ ← str (← childPtr 1 .str)
      let _ ← statements (← childPtr 13 .statementList)
      newFunctionInfo 1 9 13
  | locationReal => propagatePtr 0 .location
  | locationNothing => do setSelf .location (← new (.location .unknown))
  | realLocationColumn => do
      setSelf .location
        (← new (.location (.fileLine (← childText 1) (← childInt 3) (← childInt 5))))
  | realLocationLine => do
      setSelf .location (← new (.location (.fileLine (← childText 1) (← childInt 3) (-1))))
  | paramDeclsListMore => do
      pushBack (← childPtr 0 .statementList) null
      propagatePtr 0 .statementList
  | paramDeclsListOne => do setSelf .statementList (← new (.statementList [null]))
  | paramDeclsListNothing => do setSelf .statementList (← new (.statementList []))
  | statementListStatement => do
      pushBack (← childPtr 0 .statementList) (← childPtr 1 .statement)
      propagatePtr 0 .statementList
  | statementListOneStatement => do
      let list ← new (.statementList [])
      setSelf .statementList list
      pushBack list (← childPtr 0 .statement)
  | statementListScope => do
      (← statements (← childPtr 1 .statementList)).forM fun st => do
        pushBack (← childPtr 0 .statementList) st
      propagatePtr 0 .statementList
  | statementListOneScope => propagatePtr 0 .statementList
  | statementListNothing => do setSelf .statementList (← new (.statementList []))
  | statementOneLine => propagatePtr 0 .statement
  | statementComment => do setSelf .statement (← new (.statement .noOp .unknown))
  | statementSplit => propagatePtr 0 .statement
  | statementLabel => propagatePtr 0 .statement
  | oneLineAssignment => propagatePtr 0 .statement
  | oneLineReturn => propagatePtr 0 .statement
  | oneLineCall => propagatePtr 0 .statement
  | oneLineGoto => propagatePtr 0 .statement
  | returnVar => do newStatement (.returnUnlinked (← str (← childPtr 2 .str)))
  | returnNothing => newStatement (.returnUnlinked "")
  | splitIf => propagatePtr 0 .statement
  | splitSwitch => propagatePtr 0 .statement
  | assignment => do
      setLocation (← childPtr 1 .statement) (← ActionM.location (← childPtr 0 .location))
      propagatePtr 1 .statement
  | assignBitwise | assignCastExpression | assignComplement | assignMinus
  | assignArithmetic | assignCast | assignMinOrMax | assignBitField | assignCondition
  | assignNested => do setSelf .statement (← new (.statement .placeholder .unknown))
  | assignCall => propagatePtr 2 .statement
  | ifGotos => do
      let condition ← new (.str (← childText 3))
      setSelf .str condition
      let ifTrue ← gotoTarget (← childPtr 5 .statement)
      let ifFalse ← gotoTarget (← childPtr 8 .statement)
      newStatement (.ifUnlinked (← str condition) ifTrue ifFalse)
  | scope => propagatePtr 5 .statementList
  | callIdentifier => do
      newStatement (.functionCallUnresolved (← childText 1) (← childText 3))
  | callSsa => do
      newStatement (.functionCallUnresolved (← childText 1) (← childText 3))
  | gotoSynthetic => do newStatement (.gotoUnlinked (← str (← childPtr 2 .str)))
  | gotoIdentifier => do newStatement (.gotoUnlinked (← str (← childPtr 2 .str)))
  | labelSynthetic => do newStatement (.label (← str (← childPtr 1 .str)))
  | labelIdentifier => do newStatement (.label (← str (← childPtr 1 .str)))
  | switch => do
      let st ← new (.statement (.switchUnlinked [])
        (← ActionM.location (← childPtr 0 .location)))
      setSelf .statement st
      clearChild 0 .location
      (← statements (← childPtr 5 .statementList)).forM fun c => do
        insertCase st (← caseTarget c)
  | caseListAngleBrackets => propagatePtr 1 .statementList
  -- "SWITCH CASE STYLE UNIMPLEMENTED"
  | caseListBraces => pure ()
  | caseList453More => do
      pushBack (← childPtr 0 .statementList) (← childPtr 2 .statement)
      propagatePtr 0 .statementList
  | caseList453One => do
      let list ← new (.statementList [])
      setSelf .statementList list
      pushBack list (← childPtr 0 .statement)
  | case453Case => do newStatement (.caseUnlinked (← str (← childPtr 4 .str)))
  | case453Default => do newStatement (.caseUnlinked (← str (← childPtr 2 .str)))
  | varIdSsa => propagatePtr 0 .str
  | varIdIdentifier => propagatePtr 0 .str
  | varIdRetval => do setSelf .str (← new (.str "<retval>"))
  | syntheticLabelId => do
      setSelf .str (← new (.str ("<" ++ (← str (← childPtr 1 .str)) ++ ">")))
      clearChild 1 .str
  | integer => do setSelfInt (atoi (← childText 0).toList)
  | identifierSsa => do setSelf .str (← new (.str (← childText 0)))
  | identifier => do setSelf .str (← new (.str (← childText 0)))
  | lhsNested | rhsNested | nestedLhsMember | nestedLhsArrow | nestedLhsIndex
  | nestedLhsDereference | nestedRhsMember | nestedRhsArrow | nestedRhsIndex
  | nestedRhsDereference | nestedRhsAddress | nestedRhsString | nestedRhsLocationVar =>
      propagatePtr 0 .location
  | nestedLhsVar | nestedRhsVar | nestedRhsConstant => do
      setSelf .location (← new (.location .unknown))
  -- no action
  | paramDecls | optIdentifierOne | optIdentifierNothing | optDeclarationListNewlineOne
  | optDeclarationListNewlineNothing | optDeclarationListOne | optDeclarationListNothing
  | declarationListMore | declarationListOne | declarationVar | declarationLocalFunction
  | varDeclaration | localFunctionDeclaration | declSpecsMore | declSpecsOne
  | declSpecsTailMore | declSpecsTailNothing | declSpecKeyword | declSpecStruct
  | declSpecIdentifier | declSpecArray | declSpecParentheses | condition | castRhs
  | castString | typeName | varOrConstantVar | varOrConstantConstant | casesMore
  | casesNothing | caseRhs | caseDefault | argumentsMore | argumentsOne
  | argumentsNothing => pure ()

end GimpleProduction

/-- A parse tree. -/
abbrev GimpleTree := ParseTree GimpleSymbol GimpleProduction

/-- The grammar with its actions. -/
def gimpleGrammar :
    Grammar GimpleSymbol GimpleProduction ParseNode ParserObject Fault where
  isToken := GimpleSymbol.isToken
  lhs := GimpleProduction.lhs
  rhs := GimpleProduction.rhs
  token text := ⟨text, .zero⟩
  action p text children memory :=
    match p.action.run ⟨children, .zero, memory⟩ with
    | .ok ((), s) => .ok (⟨text, s.self⟩, s.memory)
    | .error fault => .error fault

end CoFlo.Ports
