import CoFlo.Ports.LinkCalls
import CoFlo.Ports.ReferenceFlow
import CoFlo.Verified.CallMachine

/-!
# What the parsed program does

An abstract machine for the statement lists that the parser delivers, without a
graph.  Within a function control goes from statement to statement and to the
labels that jumps name (`FlowsTo`); whether a branch is taken is left open.  A
call whose name is that of a function of the program goes to the beginning of
that function, and on behind the call from its end.  Where several functions
have the same name, the last one is called, as the function map has it.
-/

namespace CoFlo.Ports

open CoFlo.Verified CoFlo.Verified.FoldInvariant Relation

/-! ## One statement list -/

/-- The statements that give control a place to go on. -/
def Statement.goesOn : Statement → Bool
  | caseUnlinked _ => false
  | switchUnlinked caseList => !caseList.isEmpty
  | _ => true

/-- Every label that is jumped to is defined, and none is defined twice or takes
the name under which `CreateControlFlowGraph` keeps EXIT. -/
structure WellLabelled (statements : List Statement) : Prop where
  defined : LabelsDefined statements
  distinct : (statements.filterMap Statement.labelIdentifier).Nodup
  exit : .label "EXIT" ∉ statements

instance (statements : List Statement) : Decidable (WellLabelled statements) :=
  decidable_of_iff
    ((∀ st ∈ statements, ∀ name ∈ st.linkTargets,
        Statement.label name ∈ statements) ∧
      (statements.filterMap Statement.labelIdentifier).Nodup ∧
        Statement.label "EXIT" ∉ statements)
    ⟨fun h => ⟨h.1, h.2.1, h.2.2⟩, fun h => ⟨h.defined, h.distinct, h.exit⟩⟩

/-- The labels a statement jumps to, each with the kind of way that leads
there. -/
def Statement.jumps : Statement → List (EdgeType × String)
  | gotoUnlinked linkTargetName => [(.fallthrough, linkTargetName)]
  | ifUnlinked _ ifTrue ifFalse =>
      [(EdgeType.ifTrue, ifTrue), (EdgeType.ifFalse, ifFalse)]
  | switchUnlinked caseList => caseList.map fun name => (.fallthrough, name)
  | _ => []

theorem Statement.map_jumps (st : Statement) :
    st.jumps.map Prod.snd = st.linkTargets := by
  cases st with
  | switchUnlinked caseList =>
      simp [jumps, linkTargets, Function.comp_def]
  | _ => rfl

theorem Statement.isFlowControlUnlinked_of_jumps {st : Statement}
    {arc : EdgeType × String} (hjump : arc ∈ st.jumps) :
    st.isFlowControlUnlinked = true := by
  cases st <;> first | rfl | exact absurd hjump List.not_mem_nil

/-- Where control goes from a place of a statement list, and by which kind of
way. -/
inductive FlowsTo (statements : List Statement) :
    Place → EdgeType → Place → Prop where
  | entry : FlowsTo statements .entry .fallthrough (.next statements.length 0)
  | fallthrough {i : Nat} {st : Statement} (hst : statements[i]? = some st)
      (hflow : st.isFlowControlUnlinked = false) :
      FlowsTo statements (.statement i) .fallthrough
        (.next statements.length (i + 1))
  | jump {i j : Nat} {st : Statement} {ty : EdgeType} {name : String}
      (hst : statements[i]? = some st) (hjump : (ty, name) ∈ st.jumps)
      (hlabel : statements[j]? = some (.label name)) :
      FlowsTo statements (.statement i) ty (.statement j)
  | return_ {i : Nat} {var : String}
      (hst : statements[i]? = some (.returnUnlinked var)) :
      FlowsTo statements (.statement i) .fallthrough .exit

/-- Control can come from one place to another. -/
def CanReach (statements : List Statement) : Place → Place → Prop :=
  ReflTransGen fun p q => ∃ ty, FlowsTo statements p ty q

section flowsTo

variable {statements : List Statement} {p q : Place} {ty : EdgeType}

theorem Place.next_inRange (n i : Nat) : (Place.next n i).InRange n := by
  unfold Place.next
  split_ifs with hlt
  · exact hlt
  · trivial

theorem Place.inRange_of_getElem? {i : Nat} {st : Statement}
    (hst : statements[i]? = some st) :
    (Place.statement i).InRange statements.length :=
  (List.getElem?_eq_some_iff.mp hst).1

/-- Control stays in the list. -/
theorem FlowsTo.inRange (h : FlowsTo statements p ty q) :
    p.InRange statements.length ∧ q.InRange statements.length := by
  cases h with
  | entry => exact ⟨trivial, Place.next_inRange _ _⟩
  | fallthrough hst _ => exact ⟨Place.inRange_of_getElem? hst, Place.next_inRange _ _⟩
  | return_ hst => exact ⟨Place.inRange_of_getElem? hst, trivial⟩
  | jump hst _ hlabel =>
      exact ⟨Place.inRange_of_getElem? hst, Place.inRange_of_getElem? hlabel⟩

theorem CanReach.inRange (h : CanReach statements p q)
    (hp : p.InRange statements.length) : q.InRange statements.length := by
  induction h with
  | refl => exact hp
  | tail _ hstep _ =>
      obtain ⟨_, hflow⟩ := hstep
      exact hflow.inRange.2

/-- Ways are fallthrough edges, or those of an `if`. -/
theorem FlowsTo.isFallthrough (h : FlowsTo statements p ty q) :
    ty.isFallthrough = true := by
  cases h with
  | @jump i j st ty name _ hjump _ =>
      cases st <;> simp only [Statement.jumps, List.not_mem_nil, List.mem_cons,
        List.mem_map, or_false, Prod.mk.injEq] at hjump
      · rw [hjump.1]
        rfl
      · rcases hjump with ⟨rfl, _⟩ | ⟨rfl, _⟩ <;> rfl
      · obtain ⟨_, _, rfl, _⟩ := hjump
        rfl
  | _ => rfl

theorem FlowsTo.isImpossible (h : FlowsTo statements p ty q) :
    ty.isImpossible = false := by
  have hfall := h.isFallthrough
  cases ty <;> first | rfl | exact absurd hfall Bool.false_ne_true

/-- Control goes nowhere from the end. -/
theorem not_flowsTo_exit : ¬ FlowsTo statements .exit ty q := by
  intro h
  cases h

/-- What is defined is found in one place. -/
theorem WellLabelled.label_unique (hw : WellLabelled statements) {i j : Nat}
    {name : String} (hi : statements[i]? = some (.label name))
    (hj : statements[j]? = some (.label name)) : i = j := by
  have hnodup := hw.distinct
  clear hw
  induction statements generalizing i j with
  | nil => simp at hi
  | cons st rest ih =>
      have hlater : ∀ {k : Nat}, rest[k]? = some (Statement.label name) →
          name ∈ rest.filterMap Statement.labelIdentifier := fun hk =>
        List.mem_filterMap.mpr ⟨_, List.mem_of_getElem? hk, rfl⟩
      have hrest : (rest.filterMap Statement.labelIdentifier).Nodup :=
        hnodup.sublist ((List.sublist_cons_self st rest).filterMap _)
      have hfirst : st = .label name →
          name ∉ rest.filterMap Statement.labelIdentifier := by
        rintro rfl
        have hcons : (name ::
            rest.filterMap Statement.labelIdentifier).Nodup := hnodup
        exact (List.nodup_cons.mp hcons).1
      cases i with
      | zero =>
          cases j with
          | zero => rfl
          | succ j => exact absurd (hlater hj) (hfirst (by simpa using hi))
      | succ i =>
          cases j with
          | zero => exact absurd (hlater hi) (hfirst (by simpa using hj))
          | succ j => rw [ih hi hj hrest]

/-- What goes on has a place to go to. -/
theorem WellLabelled.exists_flowsTo (hw : WellLabelled statements) {i : Nat}
    {st : Statement} (hst : statements[i]? = some st) (hgoes : st.goesOn = true) :
    ∃ ty q, FlowsTo statements (.statement i) ty q := by
  have hjump : ∀ {ty : EdgeType} {name : String}, (ty, name) ∈ st.jumps →
      ∃ ty q, FlowsTo statements (.statement i) ty q := by
    intro ty name hmem
    have hname : name ∈ st.linkTargets := by
      rw [← st.map_jumps]
      exact List.mem_map_of_mem hmem
    obtain ⟨j, hj⟩ := List.getElem?_of_mem
      (hw.defined st (List.mem_of_getElem? hst) name hname)
    exact ⟨ty, _, .jump hst hmem hj⟩
  cases hflow : st.isFlowControlUnlinked with
  | false => exact ⟨_, _, .fallthrough hst hflow⟩
  | true =>
      cases st with
      | gotoUnlinked name => exact hjump (List.mem_singleton_self _)
      | returnUnlinked var => exact ⟨_, _, .return_ hst⟩
      | ifUnlinked condition nameTrue nameFalse => exact hjump List.mem_cons_self
      | switchUnlinked caseList =>
          cases caseList with
          | nil => exact absurd hgoes (by decide)
          | cons name rest => exact hjump List.mem_cons_self
      | caseUnlinked name => exact absurd hgoes Bool.false_ne_true
      | _ => exact absurd hflow Bool.false_ne_true

end flowsTo

/-! ## Programs -/

/-- The statements the parser has put into the list of a function. -/
def FunctionInfo.statements (fi : FunctionInfo) : List Statement :=
  fi.statementList.map Prod.fst

/-- The statements of a function of the program. -/
def statementsOf (fis : List FunctionInfo) : FunctionPtr → List Statement
  | 0 => []
  | i + 1 => (fis[i]?).elim [] FunctionInfo.statements

/-- What holds of the statement lists of a program holds of its functions. -/
theorem statementsOf_induction {P : List Statement → Prop} (hnil : P [])
    {fis : List FunctionInfo} (hfis : ∀ fi ∈ fis, P fi.statements)
    (f : FunctionPtr) : P (statementsOf fis f) := by
  cases f with
  | zero => exact hnil
  | succ i =>
      rw [statementsOf]
      cases hi : fis[i]? with
      | none => exact hnil
      | some fi => exact hfis fi (List.mem_of_getElem? hi)

/-- The function a call of this name goes to: the last one so called. -/
def calledFunctionOf (fis : List FunctionInfo) (name : String) :
    Option FunctionPtr :=
  (fis.reverse.findIdx? (·.identifier = name)).map (fis.length - ·)

/-- The function that is called at a place. -/
def callAt (fis : List FunctionInfo) (f : FunctionPtr) : Place → Option FunctionPtr
  | .statement i =>
      (statementsOf fis f)[i]?.bind (·.resolution (calledFunctionOf fis))
  | _ => none

/-- The parsed program as a machine with a call stack. -/
def sourceCode (fis : List FunctionInfo) : CallMachine.Code FunctionPtr Place where
  flow f p q := ∃ ty, FlowsTo (statementsOf fis f) p ty q
  call := callAt fis
  entry := .entry
  exit := .exit

/-- An execution that starts at the beginning of `source` comes to the beginning
of `sink`. -/
def Executes (fis : List FunctionInfo) (source sink : FunctionPtr) : Prop :=
  ∃ K, CallMachine.Run (sourceCode fis) [(source, .entry)] ((sink, .entry) :: K)

/-- The function map of a program is that of its functions. -/
theorem functionMap_build {memory : VertexPtr → Vertex} {orders : PassOrders}
    {fis : List FunctionInfo} {built : Program}
    (hbuild : Program.build memory orders fis = .ok built) :
    built.functions.length = fis.length ∧
      built.functionMap = calledFunctionOf fis := by
  refine foldlM_ok_invariant hbuild (fun pre p => p.functions.length = pre.length ∧
    p.functionMap = calledFunctionOf pre) ⟨rfl, rfl⟩ ?_
  intro pre fi post p p' _ hp hrun
  obtain ⟨hlength, hmap⟩ := hp
  unfold Program.buildFunction at hrun
  simp only [bind, Except.bind, pure, Except.pure] at hrun
  split at hrun
  · exact absurd hrun (by simp)
  · obtain rfl := Except.ok.inj hrun
    refine ⟨by simp [hlength], ?_⟩
    funext name
    by_cases hname : fi.identifier = name
    · subst hname
      simp [calledFunctionOf, List.findIdx?_cons, hlength]
    · show Function.update p.functionMap _ _ name = _
      rw [Function.update_of_ne (Ne.symm hname), hmap]
      simp only [calledFunctionOf, List.reverse_append, List.reverse_singleton,
        List.singleton_append, List.findIdx?_cons, hname, decide_false,
        Bool.false_eq_true, if_false, Option.map_map, List.length_append,
        List.length_singleton]
      congr 1
      funext i
      show pre.length - i = pre.length + 1 - (i + 1)
      omega

end CoFlo.Ports
