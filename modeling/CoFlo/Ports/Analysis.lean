import CoFlo.Ports.Constraints
import CoFlo.Ports.TerminatingRuns

/-!
# From the constraints to the report

`Analyze` runs the rules that `AddConstraints` has made, one after the other.
Each of them prints its own report, and none of them changes the graph.  So a
list of constraints on functions that call without recursion, and whose callees
come to their ends, is answered line by line as the source has it
(`analyze_decides`): a violation is reported exactly when there is an execution
that violates the constraint, and the warning names a call to which it comes.
-/

namespace CoFlo.Ports

open CoFlo.Verified CoFlo.Verified.FoldInvariant CoFlo.Verified.StepMachine Relation
open CoFlo.Verified.CallMachine (MayCall Run)

/-! ## The names of the functions -/

/-- What the parser has delivered for a function of the program. -/
def functionInfoOf (fis : List FunctionInfo) : FunctionPtr → Option FunctionInfo
  | 0 => none
  | i + 1 => fis[i]?

/-- The function a name stands for has this name. -/
theorem functionInfoOf_calledFunctionOf {fis : List FunctionInfo} {name : String}
    {f : FunctionPtr} (hname : calledFunctionOf fis name = some f) :
    ∃ fi, functionInfoOf fis f = some fi ∧ fi.identifier = name := by
  obtain ⟨i, hi, rfl⟩ := Option.map_eq_some_iff.mp hname
  obtain ⟨hlt, hfi, -⟩ := List.findIdx?_eq_some_iff_getElem.mp hi
  rw [List.length_reverse] at hlt
  rw [List.getElem_reverse] at hfi
  refine ⟨fis[fis.length - 1 - i], ?_, of_decide_eq_true hfi⟩
  rw [show fis.length - i = (fis.length - 1 - i) + 1 by omega]
  exact List.getElem?_eq_getElem _

/-- The function objects have the names that were parsed. -/
def NamedAfter (fis : List FunctionInfo) (h : Heap) : Prop :=
  ∀ f fi, functionInfoOf fis f = some fi →
    (h.function f).functionId = fi.identifier ∧
      (h.function f).definitionFilePath = fi.definitionFilePath

/-- Making the graph does not touch the names. -/
theorem Heap.createControlFlowGraph_names {h h' : Heap} {this : FunctionPtr}
    {l : List VertexPtr} (hf : h.Fresh this l)
    {fixupOrder removalOrder : IterationOrder}
    (hcreate : h.createControlFlowGraph fixupOrder removalOrder this l = .ok h')
    (f : FunctionPtr) :
    (h'.function f).functionId = (h.function f).functionId ∧
      (h'.function f).definitionFilePath = (h.function f).definitionFilePath := by
  obtain ⟨k, ρ, _, _, hk, hr⟩ := exists_createRun hf hcreate
  obtain ⟨_, _, hfunction, -, -⟩ := hk.function
  rw [hr.function_eq, hfunction]
  by_cases hthis : f = this
  · rw [hthis, Function.update_self]
    exact ⟨rfl, rfl⟩
  · rw [Function.update_of_ne hthis]
    exact ⟨rfl, rfl⟩

namespace Program

variable {memory : VertexPtr → Vertex} {orders : PassOrders} {p p' : Program}

theorem buildFunction_names (hc : p.heap.Consistent) {fi : FunctionInfo}
    (hrun : buildFunction orders p fi = .ok p') (f : FunctionPtr) :
    ((p'.heap.function f).functionId =
        if f = p.functions.length + 1 then fi.identifier
        else (p.heap.function f).functionId) ∧
      (p'.heap.function f).definitionFilePath =
        if f = p.functions.length + 1 then fi.definitionFilePath
        else (p.heap.function f).definitionFilePath := by
  have hfresh := Heap.fresh_newFunction hc (p.functions.length + 1) fi.identifier
    fi.definitionFilePath fi.statementList
  have hallocated := functionAllocated p.heap (p.functions.length + 1)
    fi.identifier fi.definitionFilePath fi.statementList
  unfold Program.buildFunction at hrun
  simp only [bind, Except.bind, pure, Except.pure] at hrun
  split at hrun
  · exact absurd hrun (by simp)
  · rename_i hcreate
    obtain rfl := Except.ok.inj hrun
    obtain ⟨hid, hpath⟩ := Heap.createControlFlowGraph_names hfresh hcreate f
    rw [hid, hpath]
    by_cases hthis : f = p.functions.length + 1
    · rw [if_pos hthis, if_pos hthis, hthis, Heap.newFunction,
        Heap.modifyGraph_function, Heap.modifyFunction_function, if_pos rfl]
      exact ⟨rfl, rfl⟩
    · rw [if_neg hthis, if_neg hthis, hallocated.function f hthis]
      exact ⟨rfl, rfl⟩

theorem namedAfter_build {fis : List FunctionInfo}
    (hfis : ∀ fi ∈ fis, ∀ st ∈ fi.statementList, st.1.isParsed = true)
    (hrun : build memory orders fis = .ok p) : NamedAfter fis p.heap := by
  have hbuilt := foldlM_ok_invariant hrun
    (fun pre p => p.Invariant memory ∧ p.functions.length = pre.length ∧
      NamedAfter pre p.heap) ⟨.initial memory, rfl, ?_⟩ ?_
  · exact hbuilt.2.2
  · intro f fi hfi
    cases f <;> exact absurd hfi (by simp [functionInfoOf])
  intro pre fi post p p' hl hinv hstep
  obtain ⟨hp, hlength, hnames⟩ := hinv
  obtain ⟨home, hflow, -⟩ := hp.flow
  have hp' := hp.buildFunction (hfis fi (by simp [hl])) hstep
  have hfunctions : p'.functions = p.functions ++ [p.functions.length + 1] := by
    obtain ⟨this, _, _, _, rfl, -, -, -, -, -, rfl⟩ :=
      buildFunction_eq_ok hflow.consistent (hfis fi (by simp [hl])) hstep
    rfl
  refine ⟨hp', by simp [hfunctions, hlength], fun f info hinfo => ?_⟩
  obtain ⟨hid, hpath⟩ := buildFunction_names hflow.consistent hstep f
  rw [hid, hpath]
  cases f with
  | zero => exact absurd hinfo (by simp [functionInfoOf])
  | succ i =>
      by_cases hi : i = pre.length
      · have hlast : i + 1 = p.functions.length + 1 := by rw [hlength, hi]
        rw [functionInfoOf, hi, List.getElem?_concat_length] at hinfo
        rw [if_pos hlast, if_pos hlast, Option.some.inj hinfo]
        exact ⟨rfl, rfl⟩
      · have hne : i + 1 ≠ p.functions.length + 1 := by
          rw [hlength]
          omega
        have hlt : i < (pre ++ [fi]).length :=
          (List.getElem?_eq_some_iff.mp hinfo).1
        rw [List.length_append, List.length_singleton] at hlt
        rw [functionInfoOf, List.getElem?_append_left (by omega)] at hinfo
        rw [if_neg hne, if_neg hne]
        exact hnames (i + 1) info hinfo

end Program

namespace LinkedFrom

variable {fis : List FunctionInfo} {p : Program} (hp : LinkedFrom fis p)

include hp

theorem functionMap_eq : p.functionMap = calledFunctionOf fis := by
  obtain ⟨memory, orders, built, seq, hfis, hbuild, hseq, hlink⟩ := hp
  have hbuilt := Program.Invariant.build hfis hbuild
  obtain ⟨p', hrun, -, -, hmap⟩ := hbuilt.linkFunctions orders
    fun f hf => hseq.mem_iff.mp hf
  obtain rfl := Except.ok.inj (hrun.symm.trans hlink)
  rw [hmap, (functionMap_build hbuild).2]

/-- Linking does not touch the names either. -/
theorem namedAfter : NamedAfter fis p.heap := by
  obtain ⟨memory, orders, built, seq, hfis, hbuild, hseq, hlink⟩ := hp
  have hbuilt := Program.Invariant.build hfis hbuild
  have hrun := foldlM_ok_invariant hlink
    (fun _ p => p.Invariant memory ∧ p.functions = built.functions ∧
      p.heap.function = built.heap.function) ⟨hbuilt, rfl, rfl⟩ ?_
  · intro f fi hfi
    rw [hrun.2.2]
    exact Program.namedAfter_build hfis hbuild f fi hfi
  intro pre this post p p' hl hinv hstep
  obtain ⟨hp, hfunctions, hfunction⟩ := hinv
  have hthis : this ∈ p.functions := by
    rw [hfunctions, ← hseq.mem_iff, hl]
    simp
  obtain ⟨p₁, hrun, hp₁, hfunctions₁, -, hlinked, -⟩ := hp.linkFunction orders hthis
  obtain rfl := Except.ok.inj (hrun.symm.trans hstep)
  exact ⟨hp₁, hfunctions₁.trans hfunctions, hlinked.function.trans hfunction⟩

end LinkedFrom

/-! ## Running the rules -/

namespace RuleReachability

/-- `RunRule`, and what it prints when `Traverse` takes so many steps at most. -/
def runRule (fuel : Nat) (h : Heap) (o : SetOrder) (rule : ReachabilityConstraint) :
    Option (List ReportLine) :=
  let t := run (step h o rule.sink) fuel (start h o rule.source rule.sink)
  if (step h o rule.sink t).isNone then
    some (report h rule.source rule.sink t.visitor)
  else none

theorem exists_runRule {h : Heap} {o : SetOrder} {rule : ReachabilityConstraint}
    {t : State} (ht : Reaches (step h o rule.sink) (start h o rule.source rule.sink) t)
    (hend : step h o rule.sink t = none) :
    ∃ fuel, ∀ n ≥ fuel, runRule n h o rule =
      some (report h rule.source rule.sink t.visitor) := by
  obtain ⟨fuel, hfuel⟩ := exists_fuel ht hend
  refine ⟨fuel, fun n hn => ?_⟩
  simp only [runRule, hfuel n hn, hend, Option.isNone_none, if_true]

end RuleReachability

open RuleReachability (runRule report CallsEnd Explained)

/-- `Analyze`, with what each rule prints; it returns true whatever they do. -/
def Analyzer.analyze (fuel : Nat) (h : Heap) (o : SetOrder) (a : Analyzer) :
    Option (List (List ReportLine)) :=
  a.constraints.mapM (runRule fuel h o)

/-- Enough steps for all of the rules. -/
theorem exists_mapM {α β : Type*} {f : Nat → α → Option β} {R : α → β → Prop}
    {l : List α}
    (hl : ∀ a ∈ l, ∃ fuel b, (∀ n ≥ fuel, f n a = some b) ∧ R a b) :
    ∃ fuel bs, (∀ n ≥ fuel, l.mapM (f n) = some bs) ∧ List.Forall₂ R l bs := by
  induction l with
  | nil => exact ⟨0, [], fun _ _ => rfl, .nil⟩
  | cons a l ih =>
      obtain ⟨fuel₁, b, hb, hR⟩ := hl a List.mem_cons_self
      obtain ⟨fuel₂, bs, hbs, hRs⟩ := ih fun a' ha' => hl a' (List.mem_cons_of_mem a ha')
      refine ⟨max fuel₁ fuel₂, b :: bs, fun n hn => ?_, .cons hR hRs⟩
      rw [List.mapM_cons, hb n (by omega), hbs n (by omega)]
      rfl

/-! ## Answers -/

/-- The right answer to a constraint: a call of the sink to which an execution
comes, or that no execution comes to the sink. -/
inductive Answer (fis : List FunctionInfo) (rule : ReachabilityConstraint) :
    List ReportLine → Prop where
  | violation {fi : FunctionInfo} {f : FunctionPtr} {i : Nat}
      {K : List (FunctionPtr × Place)} {name params : String} {location : Location}
      {lines : List ReportLine} (hne : rule.source ≠ rule.sink)
      (hsource : functionInfoOf fis rule.source = some fi)
      (hrun : Run (sourceCode fis) [(rule.source, .entry)] ((f, .statement i) :: K))
      (hcall : (statementsOf fis f)[i]? = some (.functionCallUnresolved name params))
      (hsink : calledFunctionOf fis name = some rule.sink) :
      Answer fis rule
        ([.inFunction fi.definitionFilePath fi.identifier,
          .warning location 0
            ("constraint violation: path exists in control flow graph to " ++
              (name ++ "( " ++ params ++ " )")),
          .warning location 0 "violating path follows"] ++ lines)
  | noViolation {fi fi' : FunctionInfo}
      (hsource : functionInfoOf fis rule.source = some fi)
      (hsink : functionInfoOf fis rule.sink = some fi')
      (hnone : ¬ (rule.source ≠ rule.sink ∧ Executes fis rule.source rule.sink)) :
      Answer fis rule [.noViolation fi.identifier fi'.identifier]

namespace RuleReachability

open ReachabilityVisitor (searchState_of_reaches stack_eq_nil_of_step_eq_none)

section answer

variable {fis : List FunctionInfo} {p : Program} (hp : LinkedFrom fis p)
  {source sink : FunctionPtr}

include hp

/-- The statement of a resolved call. -/
theorem StandsFor.exists_statement {c : VertexPtr} {f : FunctionPtr} {x : Place}
    (hc : StandsFor fis p c f x) {params : String}
    (hst : (p.heap.vertex c).statement = .functionCallResolved sink params) :
    ∃ i name, x = .statement i ∧
      (statementsOf fis f)[i]? = some (.functionCallUnresolved name params) ∧
        calledFunctionOf fis name = some sink := by
  obtain ⟨-, place, hl, hx, hmem, rfl⟩ := hc
  cases x with
  | entry =>
      rw [hl.entry_statement] at hst
      exact absurd hst (by simp)
  | exit =>
      rw [hl.exit_statement] at hst
      exact absurd hst (by simp)
  | statement i =>
      have hlt : i < (statementsOf fis f).length := hx.inRange trivial
      have hi := List.getElem?_eq_getElem hlt
      rw [hl.statement i _ hi hmem] at hst
      have hcall : (statementsOf fis f)[i].resolution (calledFunctionOf fis) =
          some sink := by
        rw [← Statement.calledFunction_linked
          (hp.isParsed f _ (List.getElem_mem hlt)), hst]
        rfl
      generalize (statementsOf fis f)[i] = st at hi hst hcall
      cases st with
      | functionCallUnresolved name params' =>
          have hname : calledFunctionOf fis name = some sink := hcall
          have hresolved : Statement.resolvedWith (calledFunctionOf fis)
              (.functionCallUnresolved name params') =
                .functionCallResolved sink params := hst
          rw [Statement.resolvedWith, hname, Option.elim_some,
            Statement.functionCallResolved.injEq] at hresolved
          exact ⟨i, name, rfl, hresolved.2 ▸ hi, hname⟩
      | _ => exact absurd hcall (by simp [Statement.resolution])

/-- What `RunRule` prints when it comes to its end is the right answer. -/
theorem answer_report (hw : ∀ f, WellLabelled (statementsOf fis f))
    (hgoes : ∀ f, ∀ st ∈ statementsOf fis f, st.goesOn = true)
    {fi fi' : FunctionInfo} (hfi : functionInfoOf fis source = some fi)
    (hfi' : functionInfoOf fis sink = some fi')
    (hsource : source ∈ p.functions) (hsink : sink ∈ p.functions)
    (hcalls : CallsEnd fis source) {o : SetOrder} {t : State}
    (ht : Reaches (step p.heap o sink) (start p.heap o source sink) t)
    (hend : step p.heap o sink t = none) :
    Answer fis ⟨source, sink⟩ (report p.heap source sink t.visitor) := by
  obtain ⟨home, hflow, -⟩ := hp.linkedProgram.flow
  obtain ⟨hid, hpath⟩ := hp.namedAfter source fi hfi
  have hid' := (hp.namedAfter sink fi' hfi').1
  have hiff := violation_iff hp hw hgoes hsource hsink ht hend
  cases searchState_of_reaches hflow hsource
    (hp.linkedProgram.owningFunction_entry hsource) ht with
  | searching a _ hsim _ _ =>
      have hvisitor := hsim.visitor
      rw [if_pos (stack_eq_nil_of_step_eq_none hsim hend)] at hvisitor
      have hnone : ¬ (source ≠ sink ∧ Executes fis source sink) := by
        rw [executes_iff hcalls, ← hiff, violation, hvisitor]
        exact Bool.false_ne_true
      have hanswer : Answer fis ⟨source, sink⟩
          [.noViolation fi.identifier fi'.identifier] := .noViolation hfi hfi' hnone
      rw [hvisitor, report, List.getLast?_nil, hid, hid']
      exact hanswer
  | found b hreach _ hfound =>
      have hne : source ≠ sink := by
        rintro rfl
        exact hfound.ne_nil (idle_of_reaches (decide_eq_true rfl) hreach).1
      obtain ⟨e, params, hlast, hc, hst⟩ :=
        exists_call_of_found hp hw hsource hsink hne hreach hfound
      obtain ⟨f, x, hreaches, hc⟩ := hc
      obtain ⟨i, name, rfl, hcall, hname⟩ := hc.exists_statement hp hst
      obtain ⟨-, -, -, hi, -⟩ := hc
      obtain ⟨info, hinfo, hidentifier⟩ := functionInfoOf_calledFunctionOf hname
      obtain rfl := Option.some.inj (hinfo.symm.trans hfi')
      obtain ⟨K, hrun⟩ := CallMachine.exists_run_within (G := sourceCode fis)
        (fun g => hcalls.returns) hreaches hi
      have hanswer : ∀ location lines, Answer fis ⟨source, sink⟩
          ([.inFunction fi.definitionFilePath fi.identifier,
            .warning location 0
              ("constraint violation: path exists in control flow graph to " ++
                (name ++ "( " ++ params ++ " )")),
            .warning location 0 "violating path follows"] ++ lines) :=
        fun _ _ => .violation hne hfi hrun hcall hname
      rw [report, hlast, hid, hpath]
      dsimp only
      rw [hst, Statement.identifierCFG, hid', hidentifier]
      exact hanswer _ _

end answer

end RuleReachability

open RuleReachability (answer_report statementsOf_orderly terminates_of_acyclic
  exists_runRule pollLoop_callsEnd)

/-- The rules that are wanted are for functions of the program. -/
theorem mem_wantedRules {p : Program} {constraintStrings : List String}
    {rule : ReachabilityConstraint} (hrule : rule ∈ wantedRules p constraintStrings) :
    ∃ name1 name2, p.functionMap name1 = some rule.source ∧
      p.functionMap name2 = some rule.sink := by
  obtain ⟨s, -, hs⟩ := List.mem_filterMap.mp hrule
  obtain ⟨names, -, hnamed⟩ := Option.bind_eq_some_iff.mp hs
  obtain ⟨f1, hf1, hrest⟩ := Option.bind_eq_some_iff.mp hnamed
  obtain ⟨f2, hf2, hpure⟩ := Option.bind_eq_some_iff.mp hrest
  obtain rfl := Option.some.inj hpure
  exact ⟨_, _, hf1, hf2⟩

/-- Every constraint of the list that names two functions of the program gets
the right answer, in the order of the list, when the names are such as
`AddConstraints` reads, and when what may be called from the sources is not
recursive and can come to its end. -/
theorem analyze_decides {fis : List FunctionInfo} {p : Program}
    (hp : LinkedFrom fis p) (hw : ∀ fi ∈ fis, WellLabelled fi.statements)
    (hgoes : ∀ fi ∈ fis, ∀ st ∈ fi.statements, st.goesOn = true) (o : SetOrder)
    {constraintStrings : List String}
    (hplain : ∀ s ∈ constraintStrings, ∀ name1 name2,
      IsConstraint (cStr s) name1 name2 → (namedFunctions p (name1, name2)).isSome →
        LongAndColonFree name1 ∧ LongAndColonFree name2)
    (hcalls : ∀ rule ∈ wantedRules p constraintStrings, CallsEnd fis rule.source) :
    ∃ fuel reports,
      (Analyzer.addConstraints p ⟨[], []⟩ constraintStrings).analyze fuel p.heap o =
          some reports ∧
        List.Forall₂ (Answer fis) (wantedRules p constraintStrings) reports := by
  obtain ⟨hw', hgoes'⟩ := statementsOf_orderly hw hgoes
  have hadded := constraints_addConstraints p ⟨[], []⟩ constraintStrings
  rw [List.nil_append, (addedRules_eq_iff p constraintStrings).mpr hplain] at hadded
  have hrules : ∀ rule ∈ wantedRules p constraintStrings, ∃ fuel lines,
      (∀ n ≥ fuel, runRule n p.heap o rule = some lines) ∧ Answer fis rule lines := by
    intro rule hrule
    obtain ⟨name1, name2, h1, h2⟩ := mem_wantedRules hrule
    obtain ⟨memory, hinv⟩ := hp.linkedProgram.invariant
    have hsource := hinv.functionMap_mem name1 rule.source h1
    have hsink := hinv.functionMap_mem name2 rule.sink h2
    rw [hp.functionMap_eq] at h1 h2
    obtain ⟨fi, hfi, -⟩ := functionInfoOf_calledFunctionOf h1
    obtain ⟨fi', hfi', -⟩ := functionInfoOf_calledFunctionOf h2
    obtain ⟨t, ht, hend⟩ := terminates_of_acyclic hp hw' hgoes' hsource
      (hcalls rule hrule) o (RuleReachability.pred p.heap rule.sink)
    obtain ⟨fuel, hfuel⟩ := exists_runRule ht hend
    exact ⟨fuel, _, hfuel, answer_report hp hw' hgoes' hfi hfi' hsource hsink
      (hcalls rule hrule) ht hend⟩
  obtain ⟨fuel, reports, hreports, hanswers⟩ :=
    exists_mapM (f := fun n => runRule n p.heap o) hrules
  refine ⟨fuel, reports, ?_, hanswers⟩
  unfold Analyzer.analyze
  rw [hadded]
  exact hreports fuel le_rfl

/-- The constraint that `poll` does not come to `trap`. -/
theorem analyze_decides_pollLoop :
    ∃ p fuel reports, LinkedFrom pollLoop p ∧
      (Analyzer.addConstraints p ⟨[], []⟩ ["poll() -x trap()"]).analyze fuel p.heap
          .ascending = some reports ∧
        List.Forall₂ (Answer pollLoop) (wantedRules p ["poll() -x trap()"])
          reports := by
  obtain ⟨p, hrun, -⟩ := pollLoop_parse
  have hp : LinkedFrom pollLoop p := linkedFrom_of_parse (by decide) hrun
  have hnames : IsConstraint (cStr "poll() -x trap()") "poll".toList "trap".toList :=
    @cStr_constraint "poll" "trap" rfl rfl
  have hwanted : wantedRules p ["poll() -x trap()"] = [⟨1, 3⟩] := by
    have hnamed : namedFunctions p ("poll".toList, "trap".toList) = some ⟨1, 3⟩ := by
      unfold namedFunctions
      rw [hp.functionMap_eq]
      decide
    rw [wantedRules, List.filterMap_cons, constraintNames_eq_some_iff.mpr hnames,
      Option.bind_some, hnamed]
    rfl
  have hplain : ∀ s ∈ ["poll() -x trap()"], ∀ name1 name2,
      IsConstraint (cStr s) name1 name2 → (namedFunctions p (name1, name2)).isSome →
        LongAndColonFree name1 ∧ LongAndColonFree name2 := by
    intro s hs name1 name2 hs' _
    rw [List.mem_singleton.mp hs] at hs'
    obtain ⟨rfl, rfl⟩ := hs'.unique hnames
    decide
  have hcalls : ∀ rule ∈ wantedRules p ["poll() -x trap()"],
      CallsEnd pollLoop rule.source := by
    intro rule hrule
    rw [hwanted, List.mem_singleton] at hrule
    rw [hrule]
    exact pollLoop_callsEnd
  obtain ⟨fuel, reports, hreports⟩ :=
    analyze_decides hp (by decide) (by decide) .ascending hplain hcalls
  exact ⟨p, fuel, reports, hp, hreports⟩

end CoFlo.Ports
