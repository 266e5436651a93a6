import CoFlo.Ports.GimpleGrammar

/-!
# What the grammar actions keep

What is to be found in a parse tree: its statement nodes, the labels of its jumps and the
functions it calls.  `GimpleTree.Means` relates a statement object to the node it was
made for.

Each symbol delivers one kind of result through the user data of its node
(`GimpleSymbol.result`), which is the specification of its actions.
-/

namespace CoFlo.Ports

open CoFlo.Verified.SyntaxActions CoFlo.Verified.SyntaxActions.Grammar

/-! ## What is in a tree -/

namespace GimpleTree

/-- Symbols below which there are no statements, and no labels. -/
def isQuiet : GimpleSymbol → Bool
  | .location | .realLocation | .paramDeclsList | .varId | .integer | .identifierSsa
  | .identifier | .paramDecls | .optIdentifier | .optDeclarationListNewline
  | .optDeclarationList | .declarationList | .declaration | .varDeclaration
  | .localFunctionDeclaration | .declSpecs | .declSpecsTail | .declSpec | .condition
  | .castExpression | .typeName | .varOrConstant | .argumentExpressionList | .lhs | .rhs
  | .nestedLhs | .nestedRhs => true
  | s => s.isToken

def findStatement (t : GimpleTree) : Option (List GimpleTree) :=
  if gimpleGrammar.symbol t = .statement then some [t] else none

/-- The nodes that are statements, in source order. -/
def statementNodes (t : GimpleTree) : List GimpleTree := t.collect findStatement

def findName : GimpleTree → Option (List String)
  | .token .pattern text => some [text]
  | _ => none

/-- The name of a label, or of anything else that is an identifier. -/
def name (t : GimpleTree) : String :=
  if gimpleGrammar.symbol t = .syntheticLabelId then
    "<" ++ String.join (t.collect findName) ++ ">"
  else String.join (t.collect findName)

def findLinkTarget : GimpleTree → Option (List String)
  | .token _ _ => none
  | .node p text ts =>
      if p = .syntheticLabelId then some [name (.node p text ts)]
      else if p = .gotoIdentifier then
        some ((ts.filter (gimpleGrammar.symbol · = .identifier)).map name)
      else none

/-- The labels that control can go to, in source order: the synthetic ones, and the
identifiers behind `goto`. -/
def linkTargets (t : GimpleTree) : List String := t.collect findLinkTarget

def findLabel : GimpleTree → Option (List String)
  | .token _ _ => none
  | .node p _ ts =>
      if p.lhs = .labelStatement then
        some ((ts.filter fun t => gimpleGrammar.symbol t = .identifier ∨
          gimpleGrammar.symbol t = .syntheticLabelId).map name)
      else none

/-- The labels that label statements define. -/
def labels (t : GimpleTree) : List String := t.collect findLabel

def findCalled : GimpleTree → Option (List String)
  | .token _ _ => none
  | .node p _ ts =>
      if p.lhs = .functionCall then
        some ((ts.filter fun t => gimpleGrammar.symbol t = .identifier ∨
          gimpleGrammar.symbol t = .identifierSsa).map ParseTree.text)
      else none

/-- The functions that are called, by the identifiers in the source. -/
def calledIdentifiers (t : GimpleTree) : List String := t.collect findCalled

end GimpleTree

/-- What a statement is. -/
inductive StatementKind where
  | goto
  | ifElse
  | switch
  | return
  | call
  | label
  | assignment
  | comment
  deriving DecidableEq, Repr

namespace GimpleTree

/-- The kind of a production. -/
def kindOf : GimpleProduction → Option StatementKind
  | .gotoSynthetic | .gotoIdentifier => some .goto
  | .ifGotos => some .ifElse
  | .switch => some .switch
  | .returnVar | .returnNothing => some .return
  | .callIdentifier | .callSsa => some .call
  | .labelSynthetic | .labelIdentifier => some .label
  | .statementComment => some .comment
  | .assignBitwise | .assignCastExpression | .assignComplement | .assignMinus
  | .assignArithmetic | .assignCast | .assignMinOrMax | .assignBitField
  | .assignCondition | .assignNested => some .assignment
  | _ => none

def findKind : GimpleTree → Option (List StatementKind)
  | .token _ _ => none
  | .node p _ _ => (kindOf p).map ([·])

/-- The kinds of the statements in a tree.  What is in a statement, such as the jumps
of an `if`, does not count. -/
def kinds (t : GimpleTree) : List StatementKind := t.collect findKind

/-- The statement object that belongs to a node. -/
def Means (t : GimpleTree) : Statement → Prop
  | .gotoUnlinked target => t.kinds = [.goto] ∧ t.linkTargets = [target]
  | .ifUnlinked _ ifTrue ifFalse => t.kinds = [.ifElse] ∧ t.linkTargets = [ifTrue, ifFalse]
  | .switchUnlinked caseList => t.kinds = [.switch] ∧ t.linkTargets = caseList
  | .returnUnlinked _ => t.kinds = [.return] ∧ t.linkTargets = []
  | .functionCallUnresolved identifier _ =>
      t.kinds = [.call] ∧ t.calledIdentifiers = [identifier]
  | .label identifier => t.kinds = [.label] ∧ t.labels = [identifier]
  | .placeholder => t.kinds = [.assignment]
  | .noOp => t.kinds = [.comment]
  | _ => False

/-! ## Quiet symbols -/

theorem quiet_rhs (p : GimpleProduction) (hp : isQuiet p.lhs = true) :
    ∀ s ∈ p.rhs, isQuiet s = true := by
  rw [← List.all_eq_true]
  revert hp
  cases p <;> decide

/-- A finder that does not look at tokens is as quiet as the productions it looks at
are not. -/
theorem quiet_of_node {α : Type*} {f : GimpleTree → Option (List α)}
    (htoken : ∀ s text, f (.token s text) = none)
    (hnode : ∀ p text ts, isQuiet p.lhs = true → f (.node p text ts) = none) :
    Quiet gimpleGrammar isQuiet f where
  eq_none t ht := by
    cases t with
    | token s text => exact htoken s text
    | node p text ts => exact hnode p text ts ht
  rhs := quiet_rhs

theorem quiet_findStatement : Quiet gimpleGrammar isQuiet findStatement where
  eq_none t ht := by
    unfold findStatement
    rw [if_neg]
    intro hsymbol
    rw [hsymbol] at ht
    exact absurd ht (by decide)
  rhs := quiet_rhs

theorem quiet_findLinkTarget : Quiet gimpleGrammar isQuiet findLinkTarget := by
  apply quiet_of_node
  · exact fun _ _ => rfl
  · intro p text ts hp
    have h₁ : p ≠ .syntheticLabelId := by
      rintro rfl
      exact absurd hp (by decide)
    have h₂ : p ≠ .gotoIdentifier := by
      rintro rfl
      exact absurd hp (by decide)
    rw [findLinkTarget, if_neg h₁, if_neg h₂]

theorem quiet_findLabel : Quiet gimpleGrammar isQuiet findLabel := by
  apply quiet_of_node
  · exact fun _ _ => rfl
  · intro p text ts hp
    rw [findLabel, if_neg]
    intro hlhs
    rw [hlhs] at hp
    exact absurd hp (by decide)

theorem quiet_findCalled : Quiet gimpleGrammar isQuiet findCalled := by
  apply quiet_of_node
  · exact fun _ _ => rfl
  · intro p text ts hp
    rw [findCalled, if_neg]
    intro hlhs
    rw [hlhs] at hp
    exact absurd hp (by decide)

theorem quiet_findKind : Quiet gimpleGrammar isQuiet findKind := by
  apply quiet_of_node
  · exact fun _ _ => rfl
  · intro p text ts hp
    have hkind : kindOf p = none := by
      revert hp
      cases p <;> decide
    rw [findKind, hkind]
    rfl

end GimpleTree

/-! ## What the symbols deliver -/

/-- The member of the user data that a symbol delivers, and what it points to. -/
inductive GimpleResult where
  | nothing
  | location
  | name
  | variable
  | params
  | statements
  | statement
  | cases
  | case
  | functionInfo
  deriving DecidableEq, Repr

def GimpleSymbol.result : GimpleSymbol → GimpleResult
  | functionDefinition => .functionInfo
  | location | realLocation => .location
  | paramDeclsList => .params
  | statementList | scope => .statements
  | statement | statementOneLine | returnStatement | statementPossiblySplitAcrossLines
  | assignmentStatement | assignmentStatementInternals | ifStatement | functionCall
  | gotoStatement | labelStatement | switchStatement => .statement
  | switchCaseList | switchCaseList453 => .cases
  | case453 => .case
  | varId => .variable
  | syntheticLabelId | identifierSsa | identifier => .name
  | _ => .nothing

section deliveries

variable (lo hi p : Nat) (m : Memory ParserObject)

/-- `p` is the statement object of `t`. -/
def DeliversStatement (t : GimpleTree) : Prop :=
  ∃ st l, m.Has lo hi p (.statement st l) ∧ t.Means st

/-- `p` is the list of the statement objects of `nodes`; they were made in that order. -/
def DeliversStatements (nodes : List GimpleTree) : Prop :=
  ∃ l, m.Has lo hi p (.statementList l) ∧ l.Pairwise (· < ·) ∧
    List.Forall₂ (fun q node => DeliversStatement lo hi q m node) l nodes

/-- `p` is a case with the given label. -/
def DeliversCase (target : String) : Prop :=
  ∃ l, m.Has lo hi p (.statement (.caseUnlinked target) l)

/-- `p` is a list of cases with the labels in `targets`. -/
def DeliversCases (targets : List String) : Prop :=
  ∃ l, m.Has lo hi p (.statementList l) ∧
    List.Forall₂ (fun q target => DeliversCase lo hi q m target) l targets

end deliveries

/-- What a symbol with the given result delivers. -/
def DeliversAs (result : GimpleResult) (t : GimpleTree) (lo hi : Nat)
    (user : ParseNodeUser) (m : Memory ParserObject) : Prop :=
  match result with
  | .nothing => True
  | .location => ∃ l, m.Has lo hi (user.ptr .location) (.location l)
  | .name => m.Has lo hi (user.ptr .str) (.str t.name)
  | .variable => ∃ s, m.Has lo hi (user.ptr .str) (.str s)
  | .params => ∃ l, m.Has lo hi (user.ptr .statementList) (.statementList l)
  | .statements => DeliversStatements lo hi (user.ptr .statementList) m t.statementNodes
  | .statement => DeliversStatement lo hi (user.ptr .statement) m t
  | .cases => DeliversCases lo hi (user.ptr .statementList) m t.linkTargets
  | .case => ∃ target, t.linkTargets = [target] ∧
      DeliversCase lo hi (user.ptr .statement) m target
  | .functionInfo => ∃ l name list,
      m.Has lo hi (user.ptr .functionInfo) (.functionInfo l name list) ∧
        DeliversStatements lo hi list m t.statementNodes

/-- What a tree delivers. -/
def Delivers : Delivery GimpleSymbol GimpleProduction ParseNode ParserObject :=
  fun t lo hi n m =>
    n.text = t.text ∧ DeliversAs (gimpleGrammar.symbol t).result t lo hi n.user m

section mono

variable {lo hi lo' hi' p : Nat} {m m' : Memory ParserObject}

theorem DeliversStatement.transport {t : GimpleTree} (h : DeliversStatement lo hi p m t)
    (hhas : ∀ q o, m.Has lo hi q o → m'.Has lo' hi' q o) :
    DeliversStatement lo' hi' p m' t := by
  obtain ⟨st, l, hst, hmeans⟩ := h
  exact ⟨st, l, hhas _ _ hst, hmeans⟩

theorem DeliversStatements.transport {nodes : List GimpleTree}
    (h : DeliversStatements lo hi p m nodes)
    (hhas : ∀ q o, m.Has lo hi q o → m'.Has lo' hi' q o) :
    DeliversStatements lo' hi' p m' nodes := by
  obtain ⟨l, hl, hsorted, hall⟩ := h
  exact ⟨l, hhas _ _ hl, hsorted, hall.imp fun _ _ hq => hq.transport hhas⟩

theorem DeliversCase.transport {target : String} (h : DeliversCase lo hi p m target)
    (hhas : ∀ q o, m.Has lo hi q o → m'.Has lo' hi' q o) :
    DeliversCase lo' hi' p m' target := by
  obtain ⟨l, hl⟩ := h
  exact ⟨l, hhas _ _ hl⟩

theorem DeliversCases.transport {targets : List String} (h : DeliversCases lo hi p m targets)
    (hhas : ∀ q o, m.Has lo hi q o → m'.Has lo' hi' q o) :
    DeliversCases lo' hi' p m' targets := by
  obtain ⟨l, hl, hall⟩ := h
  exact ⟨l, hhas _ _ hl, hall.imp fun _ _ hq => hq.transport hhas⟩

/-- What has been delivered stays delivered as long as its objects are there. -/
theorem DeliversAs.transport {result : GimpleResult} {t : GimpleTree}
    {user : ParseNodeUser} (h : DeliversAs result t lo hi user m)
    (hhas : ∀ q o, m.Has lo hi q o → m'.Has lo' hi' q o) :
    DeliversAs result t lo' hi' user m' := by
  cases result with
  | nothing => trivial
  | location =>
      obtain ⟨l, hl⟩ := h
      exact ⟨l, hhas _ _ hl⟩
  | name => exact hhas _ _ h
  | «variable» =>
      obtain ⟨s, hs⟩ := h
      exact ⟨s, hhas _ _ hs⟩
  | params =>
      obtain ⟨l, hl⟩ := h
      exact ⟨l, hhas _ _ hl⟩
  | statements => exact DeliversStatements.transport h hhas
  | statement => exact DeliversStatement.transport h hhas
  | cases => exact DeliversCases.transport h hhas
  | case =>
      obtain ⟨target, htarget, hcase⟩ := h
      exact ⟨target, htarget, hcase.transport hhas⟩
  | functionInfo =>
      obtain ⟨l, name, list, hinfo, hlist⟩ := h
      exact ⟨l, name, list, hhas _ _ hinfo, hlist.transport hhas⟩

end mono

end CoFlo.Ports
