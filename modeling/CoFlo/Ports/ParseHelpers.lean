import CoFlo.Ports.GraphInvariant

/-!
# Linking flow control statements

The parser delivers jumps as `FlowControlUnlinked` statements that name their
labels.  `ResolveLinks` looks the labels up, adds one edge per jump target and
returns the statement that is to replace the unlinked one, or `NULL`.

`linkArcs` and `linkedStatement` say in closed form what the five overrides
have in common; `resolveLinks_eq` is the only fact about `ResolveLinks` that
later modules use.
-/

namespace CoFlo.Ports

/-- `LabelMap`, a `std::map< std::string, StatementBase* >`. -/
abbrev LabelMap := String → Option VertexPtr

/-- The constructor's `label_map[identifier] = v`. -/
def LabelMap.set (labelMap : LabelMap) (identifier : String) (v : VertexPtr) :
    LabelMap :=
  Function.update labelMap identifier (some v)

namespace Heap

variable (h : Heap) (cfg : GraphPtr) (thisVertex : VertexPtr)
  (labelMap : LabelMap)

/-- `return new T(this->GetLocation())`. -/
def newLinked (statement : Statement) : Option VertexPtr × Heap :=
  let new := h.newVertex statement (h.vertex thisVertex).location
  (some new.1, new.2)

/-- `GotoUnlinked::ResolveLinks`. -/
def resolveLinksGoto (linkTargetName : String) : Option VertexPtr × Heap :=
  match labelMap linkTargetName with
  | none => (none, h)
  | some target =>
      (h.addNewEdge cfg thisVertex target .fallthrough).newLinked thisVertex
        .gotoStatement

/-- `ReturnUnlinked::ResolveLinks`.  There is no `Return` class yet, so the
replacement is a `Goto`. -/
def resolveLinksReturn : Option VertexPtr × Heap :=
  match labelMap "EXIT" with
  | none => (none, h)
  | some target =>
      (h.addNewEdge cfg thisVertex target .fallthrough).newLinked thisVertex
        .gotoStatement

/-- `IfUnlinked::ResolveLinks`. -/
def resolveLinksIf (condition ifTrue ifFalse : String) :
    Option VertexPtr × Heap :=
  match labelMap ifTrue with
  | none => (none, h)
  | some targetTrue =>
      match labelMap ifFalse with
      | none => (none, h)
      | some targetFalse =>
          let h := h.addNewEdge cfg thisVertex targetTrue .ifTrue
          let h := h.addNewEdge cfg thisVertex targetFalse .ifFalse
          h.newLinked thisVertex (.ifStatement condition)

/-- `CaseUnlinked::ResolveLinks`, which should never be called. -/
def resolveLinksCase : Option VertexPtr × Heap :=
  (none, h)

/-- One round of the loop of `SwitchUnlinked::ResolveLinks`; the flag is
`resolved_any_links`. -/
def resolveCase (s : Heap × Bool) (target : String) : Heap × Bool :=
  match labelMap target with
  | none => s
  | some v => (s.1.addNewEdge cfg thisVertex v .fallthrough, true)

/-- `SwitchUnlinked::ResolveLinks`. -/
def resolveLinksSwitch (caseList : List String) : Option VertexPtr × Heap :=
  let s := caseList.foldl (resolveCase cfg thisVertex labelMap) (h, false)
  if s.2 then
    s.1.newLinked thisVertex .switchStatement
  else
    (none, s.1)

/-- The virtual call `fcl->ResolveLinks(cfg, thisVertex, labelMap)`.  Only
`FlowControlUnlinked` statements have the method. -/
def resolveLinks : Option VertexPtr × Heap :=
  match (h.vertex thisVertex).statement with
  | .gotoUnlinked linkTargetName =>
      h.resolveLinksGoto cfg thisVertex labelMap linkTargetName
  | .returnUnlinked _ => h.resolveLinksReturn cfg thisVertex labelMap
  | .ifUnlinked condition ifTrue ifFalse =>
      h.resolveLinksIf cfg thisVertex labelMap condition ifTrue ifFalse
  | .caseUnlinked _ => h.resolveLinksCase
  | .switchUnlinked caseList =>
      h.resolveLinksSwitch cfg thisVertex labelMap caseList
  | _ => (none, h)

/-! ## What linking adds -/

/-- Adds a list of out-edges to `thisVertex`. -/
def addOutArcs (arcs : List (EdgeType × VertexPtr)) : Heap :=
  arcs.foldl (fun h arc => h.addNewEdge cfg thisVertex arc.2 arc.1) h

@[simp] theorem addOutArcs_nil : h.addOutArcs cfg thisVertex [] = h := rfl

@[simp] theorem addOutArcs_cons (arc : EdgeType × VertexPtr)
    (arcs : List (EdgeType × VertexPtr)) :
    h.addOutArcs cfg thisVertex (arc :: arcs) =
      (h.addNewEdge cfg thisVertex arc.2 arc.1).addOutArcs cfg thisVertex
        arcs := rfl

/-- The arcs of the cases whose labels are known. -/
def caseArcs (caseList : List String) : List (EdgeType × VertexPtr) :=
  (caseList.filterMap labelMap).map fun v => (.fallthrough, v)

/-- The out-edges `ResolveLinks` adds to an unlinked statement. -/
def linkArcs : Statement → List (EdgeType × VertexPtr)
  | .gotoUnlinked linkTargetName => caseArcs labelMap [linkTargetName]
  | .returnUnlinked _ => caseArcs labelMap ["EXIT"]
  | .ifUnlinked _ ifTrue ifFalse =>
      match labelMap ifTrue, labelMap ifFalse with
      | some targetTrue, some targetFalse =>
          [(.ifTrue, targetTrue), (.ifFalse, targetFalse)]
      | _, _ => []
  | .switchUnlinked caseList => caseArcs labelMap caseList
  | _ => []

/-- The statement `ResolveLinks` makes to replace an unlinked one. -/
def linkedStatement : Statement → Option Statement
  | .gotoUnlinked linkTargetName =>
      (labelMap linkTargetName).map fun _ => .gotoStatement
  | .returnUnlinked _ => (labelMap "EXIT").map fun _ => .gotoStatement
  | .ifUnlinked condition ifTrue ifFalse =>
      match labelMap ifTrue, labelMap ifFalse with
      | some _, some _ => some (.ifStatement condition)
      | _, _ => none
  | .switchUnlinked caseList =>
      if (caseList.filterMap labelMap).isEmpty then none
      else some .switchStatement
  | _ => none

theorem foldl_resolveCase (caseList : List String) (b : Bool) :
    caseList.foldl (resolveCase cfg thisVertex labelMap) (h, b) =
      (h.addOutArcs cfg thisVertex (caseArcs labelMap caseList),
        b || !(caseList.filterMap labelMap).isEmpty) := by
  induction caseList generalizing h b with
  | nil => simp [caseArcs]
  | cons name rest ih =>
      rw [List.foldl_cons]
      cases hname : labelMap name with
      | none =>
          simp only [resolveCase, hname, ih, caseArcs, List.filterMap_cons]
      | some v =>
          simp [resolveCase, hname, ih, caseArcs]

/-- `ResolveLinks` adds the link arcs, and then makes the replacement. -/
theorem resolveLinks_eq :
    h.resolveLinks cfg thisVertex labelMap =
      let st := (h.vertex thisVertex).statement
      let linked := h.addOutArcs cfg thisVertex (linkArcs labelMap st)
      match linkedStatement labelMap st with
      | none => (none, linked)
      | some new => linked.newLinked thisVertex new := by
  unfold resolveLinks
  cases hst : (h.vertex thisVertex).statement with
  | gotoUnlinked linkTargetName =>
      cases hname : labelMap linkTargetName <;>
        simp [resolveLinksGoto, linkArcs, linkedStatement, caseArcs, hname]
  | returnUnlinked returnVarName =>
      cases hname : labelMap "EXIT" <;>
        simp [resolveLinksReturn, linkArcs, linkedStatement, caseArcs, hname]
  | ifUnlinked condition ifTrue ifFalse =>
      cases htrue : labelMap ifTrue with
      | none => simp [resolveLinksIf, linkArcs, linkedStatement, htrue]
      | some targetTrue =>
          cases hfalse : labelMap ifFalse <;>
            simp [resolveLinksIf, linkArcs, linkedStatement, htrue, hfalse]
  | switchUnlinked caseList =>
      simp only [resolveLinksSwitch, foldl_resolveCase, linkArcs,
        linkedStatement, Bool.false_or, Bool.not_eq_true']
      cases (caseList.filterMap labelMap).isEmpty <;> simp
  | _ => simp [resolveLinksCase, linkArcs, linkedStatement]

/-- A statement that is not replaced was given no edges either. -/
theorem linkArcs_eq_nil {st : Statement}
    (hst : linkedStatement labelMap st = none) : linkArcs labelMap st = [] := by
  cases st with
  | switchUnlinked caseList =>
      simp only [linkedStatement, ite_eq_left_iff, reduceCtorEq, imp_false,
        not_not] at hst
      simp only [linkArcs, caseArcs, List.map_eq_nil_iff]
      exact List.isEmpty_iff.mp hst
  | gotoUnlinked linkTargetName =>
      simp_all [linkArcs, linkedStatement, caseArcs]
  | returnUnlinked returnVarName =>
      simp_all [linkArcs, linkedStatement, caseArcs]
  | ifUnlinked condition ifTrue ifFalse =>
      cases htrue : labelMap ifTrue <;> cases hfalse : labelMap ifFalse <;>
        simp_all [linkArcs, linkedStatement]
  | _ => rfl

/-- A statement is replaced by one that is not a `FlowControlUnlinked`, a
label, a call, or one of the two pseudo statements. -/
theorem linkedStatement_cases {st new : Statement}
    (hst : linkedStatement labelMap st = some new) :
    st.isFlowControlUnlinked = true ∧
      (new = .gotoStatement ∨ (∃ condition, new = .ifStatement condition) ∨
        new = .switchStatement) := by
  cases st with
  | ifUnlinked condition ifTrue ifFalse =>
      cases htrue : labelMap ifTrue <;> cases hfalse : labelMap ifFalse <;>
        simp_all [linkedStatement, Statement.isFlowControlUnlinked]
      exact .inr (.inl ⟨condition, hst.symm⟩)
  | switchUnlinked caseList =>
      simp only [linkedStatement] at hst
      split_ifs at hst
      simp_all [Statement.isFlowControlUnlinked]
  | _ => simp_all [linkedStatement, Statement.isFlowControlUnlinked]

end Heap

end CoFlo.Ports
