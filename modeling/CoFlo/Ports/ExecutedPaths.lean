import CoFlo.Ports.CallBrackets
import CoFlo.Ports.SourceFlow

/-!
# What the reachability constraint says about executions

`RunRule` searches the linked graph for a path to ENTRY of the sink.  Here its
verdict is compared with the statement lists the program was parsed from: a run
that ends reports a violation exactly when there is a chain of calls from the
source to the sink, each of them on a way its function can take
(`runRule_mayCall_iff`).  So no execution that comes to the sink is missed, and
what is reported can be executed, given that the calls on the way return
(`runRule_executes`).
-/

namespace CoFlo.Ports

open CoFlo.Verified CoFlo.Verified.StepMachine Relation
open CoFlo.Verified.CallMachine (MayCall Returns Run)
open CoFlo.Verified.ContextSearch (tip)
open ReachabilityVisitor (flow kind mem_outEdgeList searchStart Found
  searchState_of_reaches stack_eq_nil_of_step_eq_none)

namespace RuleReachability

variable {fis : List FunctionInfo} {p : Program} (hp : LinkedFrom fis p)

/-! ## A path that is found is a chain of calls -/

/-- The vertex stands for the place `x` of `f`, and control can come there. -/
def StandsFor (fis : List FunctionInfo) (p : Program) (v : VertexPtr)
    (f : FunctionPtr) (x : Place) : Prop :=
  f ∈ p.functions ∧ ∃ place, FlowLinked fis place p.heap f ∧
    CanReach (statementsOf fis f) .entry x ∧
      place x ∈ (p.heap.graph f).vertices ∧ place x = v

/-- Control can come to the place of this vertex in a function that may be
called from the source. -/
def Explained (fis : List FunctionInfo) (p : Program) (source : FunctionPtr)
    (v : VertexPtr) : Prop :=
  ∃ f x, ReflTransGen (MayCall (sourceCode fis)) source f ∧ StandsFor fis p v f x

/-- On from a goto or a label of the compiler's, which the graph need not keep. -/
def GoesThrough (statements : List Statement) (x y : Place) : Prop :=
  ∃ i st ty, x = .statement i ∧ statements[i]? = some st ∧
    st.linked.isRedundantKind = true ∧ FlowsTo statements x ty y

theorem goesThrough_of_passedOver {place : Place → VertexPtr} {h : Heap} {g : GraphPtr}
    (hl : FlowLinked fis place h g) {x y : Place}
    (hover : PassedOver (statementsOf fis g) place h g x y) :
    GoesThrough (statementsOf fis g) x y := by
  obtain ⟨hnot, ty, hxy⟩ := hover
  cases x with
  | entry => exact absurd hl.entry_mem hnot
  | exit => exact absurd hl.exit_mem hnot
  | statement i =>
      have hi := List.getElem?_eq_getElem (show i < _ from hxy.inRange.1)
      refine ⟨i, _, ty, rfl, hi, ?_, hxy⟩
      by_contra hkept
      exact hnot (hl.statement_mem i _ hi (by simpa using hkept))

section explained

variable {home : VertexPtr → FunctionPtr}
  (hflow : ProgramFlow p.functions home p.heap) {o : SetOrder}
  {source f : FunctionPtr} {x : Place} {v : VertexPtr}

/-- ENTRY stands for the beginning. -/
theorem standsFor_entry (hp : LinkedFrom fis p) (hf : f ∈ p.functions)
    (hw : WellLabelled (statementsOf fis f)) :
    StandsFor fis p (p.heap.function f).entryVertexDesc f .entry := by
  obtain ⟨place, hl, -⟩ := hp.exists_flowLinked hf hw
  exact ⟨hf, place, hl, .refl, hl.entry_mem, hl.entry⟩

/-- The function that is called at a place is the one its vertex calls. -/
theorem StandsFor.callAt_eq (hp : LinkedFrom fis p) (hv : StandsFor fis p v f x) :
    callAt fis f x = (p.heap.vertex v).statement.calledFunction := by
  obtain ⟨-, place, hl, hx, hmem, rfl⟩ := hv
  exact hl.callAt_eq (hp.isParsed f) (hx.inRange trivial) hmem

include hflow

theorem StandsFor.home_eq (hv : StandsFor fis p v f x) : home v = f := by
  obtain ⟨hf, place, -, -, hmem, rfl⟩ := hv
  exact hflow.home_eq f hf _ hmem

/-- On along an edge of the function, over what has been left out. -/
theorem StandsFor.inner (hv : StandsFor fis p v f x) {e : EdgePtr}
    (hsource : (p.heap.edge e).source = v)
    (hreal : (p.heap.edge e).edgeType.isImpossible = false)
    (hintra : (p.heap.edge e).edgeType.isIntraprocedural = true) :
    ∃ y z, FlowsTo (statementsOf fis f) x (p.heap.edge e).edgeType y ∧
      ReflTransGen (GoesThrough (statementsOf fis f)) y z ∧
        StandsFor fis p (p.heap.edge e).target f z := by
  have hhome := hv.home_eq hflow
  obtain ⟨hf, place, hl, hx, hmem, rfl⟩ := hv
  have hattached : (p.heap.edge e).source ≠ null := by
    rw [hsource]
    exact (hflow.allocated _ (by rw [hhome]; exact hf)).1
  have he := (hflow.mem_edges f hf e).mpr ⟨hattached, hsource ▸ hhome⟩
  obtain ⟨y, z, hxy, hover, hz, hplace⟩ :=
    (hl.realEdge_iff x _ (p.heap.edge e).target (hx.inRange trivial) hmem).mp
      ⟨⟨e, he, hsource, rfl, rfl, hreal⟩, hintra⟩
  exact ⟨y, z, hxy, ReflTransGen.mono (fun _ _ => goesThrough_of_passedOver hl) _ _ hover,
    hf, place, hl, (hx.tail ⟨_, hxy⟩).trans (PassedOver.canReach hover), hz, hplace⟩

/-- What is called there is a function of the program that may be called. -/
theorem Explained.mayCall (hp : LinkedFrom fis p) {c : VertexPtr}
    (hc : Explained fis p source c) {g : FunctionPtr} {params : String}
    (hst : (p.heap.vertex c).statement = .functionCallResolved g params) :
    g ∈ p.functions ∧ ReflTransGen (MayCall (sourceCode fis)) source (home c) ∧
      MayCall (sourceCode fis) (home c) g := by
  obtain ⟨f, x, hcalls, hv⟩ := hc
  have hcall := hv.callAt_eq hp
  have hhome := hv.home_eq hflow
  obtain ⟨hf, -, -, hx, -⟩ := hv
  rw [hst] at hcall
  rw [hhome]
  exact ⟨(hflow.resolved c g params (by rw [hhome]; exact hf) hst).1, hcalls, x, hx,
    hcall⟩

/-! What the search follows is edges of these kinds, and edges back from a call. -/

omit hflow in
theorem source_of_mem_out {u : VertexPtr} {e : EdgePtr}
    (hflow : ProgramFlow p.functions home p.heap)
    (he : e ∈ (flow p.heap o).out u) :
    (p.heap.edge e).source = u ∧ (p.heap.edge e).source ≠ null := by
  obtain ⟨hsource, hu⟩ := (mem_outEdgeList hflow.consistent).mp he
  exact ⟨hsource, hsource ▸ hu⟩

theorem StandsFor.plainEdge {u : VertexPtr} {e : EdgePtr}
    (hu : StandsFor fis p u f x) (he : e ∈ (flow p.heap o).out u)
    (hkind : kind p.heap e = .plain) :
    ∃ y z, FlowsTo (statementsOf fis f) x (p.heap.edge e).edgeType y ∧
      ReflTransGen (GoesThrough (statementsOf fis f)) y z ∧
        StandsFor fis p (p.heap.edge e).target f z := by
  obtain ⟨hesource, hattached⟩ := source_of_mem_out hflow he
  obtain ⟨hcall, hreturn⟩ := edgeType_of_kind_plain hkind
  have hintra : (p.heap.edge e).edgeType.isIntraprocedural = true := by
    simpa [hcall, hreturn] using hflow.edgeType e hattached
  have hreal := (followed_of_kind (e := e) (h := p.heap) (by
    rw [hkind]
    simp)).1
  exact hu.inner hflow hesource hreal hintra

/-- The call returns to where it falls through. -/
theorem StandsFor.returnEdge {u c : VertexPtr} {e : EdgePtr}
    (hc : StandsFor fis p c f x) (he : e ∈ (flow p.heap o).out u)
    (hkind : kind p.heap e = .ret c) :
    ∃ ty y z, FlowsTo (statementsOf fis f) x ty y ∧
      ReflTransGen (GoesThrough (statementsOf fis f)) y z ∧
        StandsFor fis p (p.heap.edge e).target f z := by
  obtain ⟨-, hattached⟩ := source_of_mem_out hflow he
  obtain ⟨-, -, g, params, d, -, -, hd, htarget⟩ :=
    hflow.returnEdge e c hattached (edgeType_of_kind_ret hkind)
  obtain ⟨hdsource, hdtype⟩ := (hd d).mpr rfl
  rw [htarget]
  have hinner := hc.inner hflow hdsource ?_ ?_
  · exact ⟨_, hinner⟩
  all_goals
    cases htype : (p.heap.edge d).edgeType <;> rw [htype] at hdtype <;>
      first | rfl | exact Bool.noConfusion hdtype

/-- A call leads from the statement that calls to the beginning of a function. -/
theorem callEdge_of_mem_out {u c : VertexPtr} {e : EdgePtr}
    (he : e ∈ (flow p.heap o).out u) (hkind : kind p.heap e = .call c) :
    u = c ∧ ∃ params,
      (p.heap.vertex c).statement = .functionCallResolved (callee p.heap c) params ∧
        (p.heap.edge e).target =
          (p.heap.function (callee p.heap c)).entryVertexDesc := by
  obtain ⟨hesource, hattached⟩ := source_of_mem_out hflow he
  obtain ⟨g, htype⟩ := edgeType_of_kind_call hkind
  obtain ⟨hc, -, params, hst, htarget⟩ := hflow.callEdge e c g hattached htype
  have hcallee : callee p.heap c = g := by
    rw [callee, hst]
    rfl
  rw [hcallee]
  exact ⟨hesource.symm.trans hc, params, hst, htarget⟩

theorem Explained.plainEdge {u : VertexPtr} {e : EdgePtr}
    (hu : Explained fis p source u) (he : e ∈ (flow p.heap o).out u)
    (hkind : kind p.heap e = .plain) :
    Explained fis p source (p.heap.edge e).target := by
  obtain ⟨f, x, hcalls, hu⟩ := hu
  obtain ⟨-, z, -, -, hz⟩ := hu.plainEdge hflow he hkind
  exact ⟨f, z, hcalls, hz⟩

theorem Explained.callEdge (hp : LinkedFrom fis p)
    (hw : ∀ f, WellLabelled (statementsOf fis f)) {u : VertexPtr} {e : EdgePtr}
    (hu : Explained fis p source u) (he : e ∈ (flow p.heap o).out u)
    {c : VertexPtr} (hkind : kind p.heap e = .call c) :
    Explained fis p source (p.heap.edge e).target := by
  obtain ⟨rfl, params, hst, htarget⟩ := callEdge_of_mem_out hflow he hkind
  obtain ⟨hg, hcalls, hcall⟩ := hu.mayCall hflow hp hst
  rw [htarget]
  exact ⟨_, .entry, hcalls.tail hcall, standsFor_entry hp hg (hw _)⟩

theorem Explained.returnEdge {u : VertexPtr} {e : EdgePtr} {c : VertexPtr}
    (hc : Explained fis p source c) (he : e ∈ (flow p.heap o).out u)
    (hkind : kind p.heap e = .ret c) :
    Explained fis p source (p.heap.edge e).target := by
  obtain ⟨f, x, hcalls, hc⟩ := hc
  obtain ⟨-, -, z, -, -, hz⟩ := hc.returnEdge hflow he hkind
  exact ⟨f, z, hcalls, hz⟩

end explained

include hp

/-- Wherever a path of the search has come to, an execution can come to if the
calls on the way return. -/
theorem explained_tip (hw : ∀ f, WellLabelled (statementsOf fis f))
    {source : FunctionPtr} (hsource : source ∈ p.functions) {o : SetOrder}
    {path : List EdgePtr}
    (hwalk : ContextSearch.Walk (flow p.heap o)
      (p.heap.function source).entryVertexDesc path)
    (hreal : ContextSearch.Realizable (flow p.heap o) path) :
    Explained fis p source (tip (flow p.heap o)
      (p.heap.function source).entryVertexDesc path) := by
  obtain ⟨home, hflow, hlinked⟩ := hp.linkedProgram.flow
  exact (procedures hflow hlinked o).invariant
    ⟨source, .entry, .refl, standsFor_entry hp hsource (hw source)⟩
    (fun u e he hkind hu => hu.plainEdge hflow he hkind)
    (fun u e he c hkind hu => hu.callEdge hflow hp hw he hkind)
    (fun u e he c hkind hc => hc.returnEdge hflow he hkind) hwalk hreal

/-- A path that has been found comes from a call of the sink. -/
theorem exists_call_of_found (hw : ∀ f, WellLabelled (statementsOf fis f))
    {source sink : FunctionPtr} (hsource : source ∈ p.functions)
    (hsink : sink ∈ p.functions) (hne : source ≠ sink) {o : SetOrder} {t : State}
    {b : ContextSearch.State VertexPtr EdgePtr}
    (hreach : Reaches (ContextSearch.step (flow p.heap o))
      (searchStart p.heap o source (pred p.heap sink)) b)
    (hfound : Found p.heap o (pred p.heap sink)
      (p.heap.function source).entryVertexSelfEdge
      (p.heap.function source).entryVertexDesc t b) :
    ∃ e params, t.visitor.getLast? = some e ∧
      Explained fis p source (p.heap.edge e).source ∧
        (p.heap.vertex (p.heap.edge e).source).statement =
          .functionCallResolved sink params := by
  obtain ⟨home, hflow, hlinked⟩ := hp.linkedProgram.flow
  rw [searchStart_of_ne hflow o hsource hsink hne] at hreach
  obtain ⟨n, hn⟩ := hreach.exists_trajectory
  have hwalk := ContextSearch.walk_after (G := flow p.heap o)
    (p.heap.function source).entryVertexDesc n
  have hreal := ContextSearch.realizable_after (procedures hflow hlinked o)
    (r := (p.heap.function source).entryVertexDesc)
    (by rw [hflow.home_entry hsource]) n
  have hb : ContextSearch.after (flow p.heap o)
      (p.heap.function source).entryVertexDesc n = b := hn
  rw [hb] at hwalk hreal
  obtain ⟨e, q, hpath⟩ := List.exists_cons_of_ne_nil hfound.ne_nil
  rw [hpath] at hwalk hreal
  have htip := hfound.tip
  rw [hpath] at htip
  obtain ⟨hesource, hattached⟩ := source_of_mem_out hflow hwalk.2.1
  obtain ⟨c, g, params, hc, -, hst⟩ := call_of_target hflow hsink hattached
    hwalk.2.2 (of_decide_eq_true htip)
  refine ⟨e, params, ?_, ?_, ?_⟩
  · rw [hfound.visitor, hpath, List.reverse_cons, ← List.cons_append,
      List.getLast?_concat]
  · rw [hesource]
    exact explained_tip hp hw hsource hwalk.1 hreal.1
  · rw [hc]
    exact hst

/-- A violation that is reported is a chain of calls. -/
theorem mayCall_of_found
    (hw : ∀ f, WellLabelled (statementsOf fis f))
    {source sink : FunctionPtr} (hsource : source ∈ p.functions)
    (hsink : sink ∈ p.functions) (hne : source ≠ sink) {o : SetOrder} {t : State}
    {b : ContextSearch.State VertexPtr EdgePtr}
    (hreach : Reaches (ContextSearch.step (flow p.heap o))
      (searchStart p.heap o source (pred p.heap sink)) b)
    (hfound : Found p.heap o (pred p.heap sink)
      (p.heap.function source).entryVertexSelfEdge
      (p.heap.function source).entryVertexDesc t b) :
    ReflTransGen (MayCall (sourceCode fis)) source sink := by
  obtain ⟨home, hflow, -⟩ := hp.linkedProgram.flow
  obtain ⟨e, params, -, hc, hst⟩ :=
    exists_call_of_found hp hw hsource hsink hne hreach hfound
  obtain ⟨-, hcalls, hcall⟩ := hc.mayCall hflow hp hst
  exact hcalls.tail hcall

/-! ## A chain of calls is found -/

omit hp in
/-- Edges that are followed inside a function are forward steps. -/
theorem forwardStep_of_inner {functions : List FunctionPtr}
    {home : VertexPtr → FunctionPtr} {h : Heap}
    (hflow : ProgramFlow functions home h) {f : FunctionPtr} (hf : f ∈ functions)
    {u v : VertexPtr} (huv : h.InnerFollowedStep f u v) : ForwardStep h u v := by
  obtain ⟨e, he, rfl, rfl, hmark, hreal, hintra⟩ := huv
  have hattached := ((hflow.mem_edges f hf e).mp he).1
  refine ⟨e, (hflow.consistent.mem_outEdges _ e).mpr ⟨rfl, hattached⟩, hreal,
    hmark, ?_, rfl⟩
  cases htype : (h.edge e).edgeType <;> rw [htype] at hintra <;>
    first | rfl | exact Bool.noConfusion hintra

/-- A call that control can come to leads from ENTRY to ENTRY. -/
theorem reaches_of_mayCall
    (hw : ∀ f, WellLabelled (statementsOf fis f))
    (hgoes : ∀ f, ∀ st ∈ statementsOf fis f, st.goesOn = true)
    {f g : FunctionPtr} (hf : f ∈ p.functions)
    (hcall : MayCall (sourceCode fis) f g) :
    g ∈ p.functions ∧ ReflTransGen (ForwardStep p.heap)
      (p.heap.function f).entryVertexDesc (p.heap.function g).entryVertexDesc := by
  obtain ⟨home, hflow, hlinked⟩ := hp.linkedProgram.flow
  obtain ⟨place, hl, hreaches⟩ := hp.exists_flowLinked hf (hw f)
  obtain ⟨x, hx, hat⟩ := hcall
  obtain ⟨hrange, hmem⟩ := hl.call_mem hat
  have hhome := hflow.home_eq f hf _ hmem
  have hc : home (place x) ∈ p.functions := by
    rw [hhome]
    exact hf
  obtain ⟨params, hst⟩ : ∃ params,
      (p.heap.vertex (place x)).statement = .functionCallResolved g params := by
    rw [← Statement.calledFunction_eq_some, ← hl.callAt_eq (hp.isParsed f) hrange
      hmem]
    exact hat
  obtain ⟨⟨e, he⟩, -⟩ := hlinked (place x) g params hc hst
  obtain ⟨hesource, hetype⟩ := (he e).mpr rfl
  have hattached : (p.heap.edge e).source ≠ null :=
    hesource ▸ (hflow.allocated _ hc).1
  -- The edge of the call leads to the function its statement names.
  have hstep : ForwardStep p.heap (place x)
      (p.heap.function g).entryVertexDesc := by
    cases htype : (p.heap.edge e).edgeType with
    | functionCall c callee =>
        obtain ⟨hec, hmark, params', hst', htarget⟩ :=
          hflow.callEdge e c callee hattached htype
        rw [← hec, hesource, hst, Statement.functionCallResolved.injEq] at hst'
        refine ⟨e, (hflow.consistent.mem_outEdges _ e).mpr
          ⟨hesource, hesource ▸ hattached⟩, ?_, hmark, ?_, ?_⟩
        · rw [htype]
          rfl
        · rw [htype]
          rfl
        · rw [htarget, hst'.1]
    | _ =>
        rw [htype] at hetype
        exact absurd hetype Bool.false_ne_true
  have hinner := hreaches (hgoes f) x hx hmem
  rw [hl.entry] at hinner
  have hforward : ReflTransGen (ForwardStep p.heap)
      (p.heap.function f).entryVertexDesc (place x) :=
    ReflTransGen.mono (fun _ _ => forwardStep_of_inner hflow hf) _ _ hinner
  exact ⟨(hflow.resolved _ g params hc hst).1, hforward.tail hstep⟩

theorem reaches_of_chain
    (hw : ∀ f, WellLabelled (statementsOf fis f))
    (hgoes : ∀ f, ∀ st ∈ statementsOf fis f, st.goesOn = true)
    {source sink : FunctionPtr} (hsource : source ∈ p.functions)
    (hcalls : ReflTransGen (MayCall (sourceCode fis)) source sink) :
    sink ∈ p.functions ∧ ReflTransGen (ForwardStep p.heap)
      (p.heap.function source).entryVertexDesc
      (p.heap.function sink).entryVertexDesc := by
  induction hcalls with
  | refl => exact ⟨hsource, .refl⟩
  | tail _ hcall ih =>
      obtain ⟨hmem, hstep⟩ := reaches_of_mayCall hp hw hgoes ih.1 hcall
      exact ⟨hmem, ih.2.trans hstep⟩

omit hp in
/-- What is reached along forward steps is not missed. -/
theorem not_searching_of_reaches {functions : List FunctionPtr}
    {home : VertexPtr → FunctionPtr} {h : Heap}
    (hflow : ProgramFlow functions home h) {source sink : FunctionPtr}
    (hsource : source ∈ functions) (hsink : sink ∈ functions) (hne : source ≠ sink)
    (howner : (h.vertex (h.function source).entryVertexDesc).owningFunction =
      source) {o : SetOrder} {t : State}
    (ht : Reaches (step h o sink) (start h o source sink) t)
    (hend : step h o sink t = none)
    (hreach : ReflTransGen (ForwardStep h) (h.function source).entryVertexDesc
      (h.function sink).entryVertexDesc) : t.stop = some .returned := by
  have hrun : Unfound h o source sink t ∨ t.stop = some .returned := by
    refine ht.invariant (P := fun t => Unfound h o source sink t ∨
      t.stop = some .returned) ?_
      (.inl (unfound_start hflow hsource howner hsink hne))
    intro s u hs hstep
    rcases hs with hs | hs
    · exact hs.preserved hflow hstep
    · unfold step ReachabilityVisitor.step ControlFlowGraphTraversalDFS.step at hstep
      rw [hs] at hstep
      exact absurd hstep (by simp)
  refine hrun.resolve_left ?_
  rintro ⟨a, D, hsim, -, -, hdiscovered, hentry, hsinkD⟩
  have hstack := stack_eq_nil_of_step_eq_none hsim hend
  have hall : ∀ v, ReflTransGen (ForwardStep h)
      (h.function source).entryVertexDesc v → v ∈ D := by
    intro v hv
    induction hv with
    | refl => exact hentry
    | tail _ huv ih =>
        obtain ⟨e, hout, hopens, htarget⟩ := huv.opens hflow o
        rw [← htarget]
        exact hdiscovered.closed hstack ih hout hopens
  exact hsinkD (hall _ hreach)

/-! ## The verdict -/

/-- A run that has ended has found a chain of calls, or reports nothing. -/
theorem verdict_cases (hw : ∀ f, WellLabelled (statementsOf fis f))
    {source sink : FunctionPtr} (hsource : source ∈ p.functions)
    (hsink : sink ∈ p.functions) {o : SetOrder} {t : State}
    (ht : Reaches (step p.heap o sink) (start p.heap o source sink) t)
    (hend : step p.heap o sink t = none) :
    (violation t = true ∧ source ≠ sink ∧
        ReflTransGen (MayCall (sourceCode fis)) source sink) ∨
      violation t = false ∧ t.stop = none := by
  obtain ⟨home, hflow, -⟩ := hp.linkedProgram.flow
  have howner := hp.linkedProgram.owningFunction_entry hsource
  unfold violation
  cases searchState_of_reaches hflow hsource howner ht with
  | searching a _ hsim _ _ =>
      have hstack := stack_eq_nil_of_step_eq_none hsim hend
      rw [hsim.visitor, if_pos hstack]
      exact .inr ⟨rfl, hsim.stop⟩
  | found b hreach _ hfound =>
      have hne : source ≠ sink := by
        rintro rfl
        exact hfound.ne_nil (idle_of_reaches (decide_eq_true rfl) hreach).1
      rw [hfound.visitor]
      exact .inl ⟨rfl, hne, mayCall_of_found hp hw hsource hsink hne hreach hfound⟩

theorem violation_iff (hw : ∀ f, WellLabelled (statementsOf fis f))
    (hgoes : ∀ f, ∀ st ∈ statementsOf fis f, st.goesOn = true)
    {source sink : FunctionPtr} (hsource : source ∈ p.functions)
    (hsink : sink ∈ p.functions) {o : SetOrder} {t : State}
    (ht : Reaches (step p.heap o sink) (start p.heap o source sink) t)
    (hend : step p.heap o sink t = none) :
    violation t = true ↔
      source ≠ sink ∧ ReflTransGen (MayCall (sourceCode fis)) source sink := by
  have hcases := verdict_cases hp hw hsource hsink ht hend
  constructor
  · intro hviolation
    rcases hcases with ⟨-, hchain⟩ | ⟨hnone, -⟩
    · exact hchain
    · rw [hnone] at hviolation
      exact absurd hviolation Bool.false_ne_true
  · rintro ⟨hne, hcalls⟩
    obtain ⟨home, hflow, -⟩ := hp.linkedProgram.flow
    have hreach := (reaches_of_chain hp hw hgoes hsource hcalls).2
    have hstop := not_searching_of_reaches hflow hsource hsink hne
      (hp.linkedProgram.owningFunction_entry hsource) ht hend hreach
    rcases hcases with ⟨hviolation, -⟩ | ⟨-, hnone⟩
    · exact hviolation
    · rw [hnone] at hstop
      exact absurd hstop (by simp)

omit hp in
theorem statementsOf_orderly (hw : ∀ fi ∈ fis, WellLabelled fi.statements)
    (hgoes : ∀ fi ∈ fis, ∀ st ∈ fi.statements, st.goesOn = true) :
    (∀ f, WellLabelled (statementsOf fis f)) ∧
      ∀ f, ∀ st ∈ statementsOf fis f, st.goesOn = true :=
  ⟨statementsOf_induction (by decide) hw, statementsOf_induction
    (P := fun sts => ∀ st ∈ sts, st.goesOn = true) (by simp) hgoes⟩

/-- A run of `RunRule` that ends reports a violation exactly when there is a
chain of calls from the source to the sink, each of them on a way that control
can take in its function. -/
theorem runRule_mayCall_iff (hw : ∀ fi ∈ fis, WellLabelled fi.statements)
    (hgoes : ∀ fi ∈ fis, ∀ st ∈ fi.statements, st.goesOn = true)
    {source sink : FunctionPtr} (hsource : source ∈ p.functions)
    (hsink : sink ∈ p.functions) (o : SetOrder) {t : State}
    (ht : Reaches (step p.heap o sink) (start p.heap o source sink) t)
    (hend : step p.heap o sink t = none) :
    violation t = true ↔
      source ≠ sink ∧ ReflTransGen (MayCall (sourceCode fis)) source sink := by
  obtain ⟨hw', hgoes'⟩ := statementsOf_orderly hw hgoes
  exact violation_iff hp hw' hgoes' hsource hsink ht hend

omit hp in
/-- The run on `pollLoop` that looks for the last function. -/
theorem pollLoop_run :
    ∃ p t, LinkedFrom pollLoop p ∧ p.functions = [1, 2, 3] ∧
      Reaches (step p.heap .descending 3) (start p.heap .descending 1 3) t ∧
      step p.heap .descending 3 t = none ∧ violation t = true := by
  have hcheck : (Program.parse blankMemory .ascending pollLoop).Holds fun p =>
      p.functions = [1, 2, 3] ∧
        (step p.heap .descending 3 (run (step p.heap .descending 3) 7
          (start p.heap .descending 1 3))).isNone = true ∧
        violation (run (step p.heap .descending 3) 7
          (start p.heap .descending 1 3)) = true := by
    decide +kernel
  obtain ⟨p, hrun, hfunctions, hend, hviolation⟩ := hcheck
  exact ⟨p, _, linkedFrom_of_parse (by decide) hrun, hfunctions, reaches_run 7 _,
    Option.isNone_iff_eq_none.mp hend, hviolation⟩

omit hp in
theorem runRule_mayCall_iff_pollLoop :
    ∃ p t, LinkedFrom pollLoop p ∧
      Reaches (step p.heap .descending 3) (start p.heap .descending 1 3) t ∧
      (violation t = true ↔
        1 ≠ 3 ∧ ReflTransGen (MayCall (sourceCode pollLoop)) 1 3) := by
  obtain ⟨p, t, hp, hfunctions, ht, hend, -⟩ := pollLoop_run
  exact ⟨p, t, hp, ht, runRule_mayCall_iff hp (by decide) (by decide)
    (by rw [hfunctions]; decide) (by rw [hfunctions]; decide) .descending ht hend⟩

/-! ## Executions -/

/-- No execution that comes to the sink is missed. -/
theorem runRule_finds_executed (hw : ∀ fi ∈ fis, WellLabelled fi.statements)
    (hgoes : ∀ fi ∈ fis, ∀ st ∈ fi.statements, st.goesOn = true)
    {source sink : FunctionPtr} (hsource : source ∈ p.functions)
    (hne : source ≠ sink) (hexecutes : Executes fis source sink) (o : SetOrder)
    {t : State} (ht : Reaches (step p.heap o sink) (start p.heap o source sink) t)
    (hend : step p.heap o sink t = none) : violation t = true := by
  obtain ⟨K, hrun⟩ := hexecutes
  have hcalls := (CallMachine.Run.mayCall hrun).1
  obtain ⟨hw', hgoes'⟩ := statementsOf_orderly hw hgoes
  have hsink := (reaches_of_chain hp hw' hgoes' hsource hcalls).1
  exact (violation_iff hp hw' hgoes' hsource hsink ht hend).mpr ⟨hne, hcalls⟩

omit hp in
/-- Control can come from one function of `pollLoop` to the next. -/
theorem pollLoop_executes : Executes pollLoop 1 3 := by
  have hflow : ∀ {f i : Nat} {st : Statement},
      (statementsOf pollLoop f)[i]? = some st → st.isFlowControlUnlinked = false →
        (sourceCode pollLoop).flow f (.statement i)
          (.next (statementsOf pollLoop f).length (i + 1)) := fun hst hflow =>
    ⟨_, .fallthrough hst hflow⟩
  have hread : Run (sourceCode pollLoop) [(1, .entry)]
      [(2, .entry), (1, .statement 1)] := by
    refine ((ReflTransGen.single (.flow rfl ⟨_, .entry⟩)).tail
      (.flow rfl (hflow (f := 1) (i := 0) rfl rfl))).tail (.enter rfl)
  exact ⟨_, (hread.tail (.flow rfl ⟨_, .entry⟩)).tail (.enter rfl)⟩

omit hp in
theorem runRule_finds_executed_pollLoop :
    ∃ p t, LinkedFrom pollLoop p ∧
      Reaches (step p.heap .descending 3) (start p.heap .descending 1 3) t ∧
      violation t = true := by
  obtain ⟨p, t, hp, hfunctions, ht, hend, -⟩ := pollLoop_run
  exact ⟨p, t, hp, ht, runRule_finds_executed hp (by decide) (by decide)
    (by rw [hfunctions]; decide) (by decide) pollLoop_executes .descending ht hend⟩

/-- What is reported can be executed, when every function that may be called
from the source can be run to its end. -/
theorem runRule_executes (hw : ∀ fi ∈ fis, WellLabelled fi.statements)
    {source sink : FunctionPtr} (hsource : source ∈ p.functions)
    (hsink : sink ∈ p.functions) (o : SetOrder) {t : State}
    (ht : Reaches (step p.heap o sink) (start p.heap o source sink) t)
    (hend : step p.heap o sink t = none) (hviolation : violation t = true)
    (hreturns : ∀ g, TransGen (MayCall (sourceCode fis)) source g →
      Returns (sourceCode fis) g) : Executes fis source sink := by
  have hw' := statementsOf_induction (by decide) hw
  rcases verdict_cases hp hw' hsource hsink ht hend with ⟨-, -, hcalls⟩ | ⟨hnone, -⟩
  · exact CallMachine.exists_run hreturns hcalls
  · rw [hnone] at hviolation
    exact absurd hviolation Bool.false_ne_true

omit hp in
/-- What the functions of `pollLoop` may call. -/
theorem pollLoop_mayCall {f g : FunctionPtr}
    (hcall : MayCall (sourceCode pollLoop) f g) :
    f = 1 ∧ g = 2 ∨ f = 2 ∧ g = 3 := by
  have hpoll : ∀ st ∈ statementsOf pollLoop 1,
      st.resolution (calledFunctionOf pollLoop) = none ∨
        st.resolution (calledFunctionOf pollLoop) = some 2 := by decide
  have hread : ∀ st ∈ statementsOf pollLoop 2,
      st.resolution (calledFunctionOf pollLoop) = some 3 := by decide
  have hempty : ∀ i, statementsOf pollLoop (i + 3) = [] := by
    intro i
    cases i <;> rfl
  obtain ⟨q, -, hat⟩ := hcall
  cases q with
  | statement i =>
      obtain ⟨st, hst, hg⟩ := Option.bind_eq_some_iff.mp hat
      have hmem := List.mem_of_getElem? hst
      rcases f with _ | _ | _ | i
      · exact absurd hmem List.not_mem_nil
      · refine .inl ⟨rfl, ?_⟩
        rcases hpoll st hmem with hnone | hsome
        · exact absurd (hnone.symm.trans hg) (by simp)
        · exact Option.some.inj (hg.symm.trans hsome)
      · exact .inr ⟨rfl, Option.some.inj (hg.symm.trans (hread st hmem))⟩
      · rw [hempty] at hmem
        exact absurd hmem List.not_mem_nil
  | _ => exact absurd hat (by simp [sourceCode, callAt])

omit hp in
theorem pollLoop_callee {g : FunctionPtr}
    (hcalls : TransGen (MayCall (sourceCode pollLoop)) 1 g) : g = 2 ∨ g = 3 := by
  cases hcalls with
  | single hcall => exact (pollLoop_mayCall hcall).imp And.right And.right
  | tail _ hcall => exact (pollLoop_mayCall hcall).imp And.right And.right

omit hp in
/-- The functions that `poll` may call return. -/
theorem pollLoop_returns {g : FunctionPtr}
    (hcalls : TransGen (MayCall (sourceCode pollLoop)) 1 g) :
    Returns (sourceCode pollLoop) g := by
  have htrap : Returns (sourceCode pollLoop) 3 :=
    ReflTransGen.single (.flow rfl ⟨_, .entry⟩)
  have hread : Returns (sourceCode pollLoop) 2 := by
    have hcall : Run (sourceCode pollLoop) [(2, .entry)]
        [(3, .entry), (2, .statement 0)] :=
      (ReflTransGen.single (.flow rfl ⟨_, .entry⟩)).tail (.enter rfl)
    have hthrough := CallMachine.Run.append htrap [(2, .statement 0)]
    exact (hcall.trans hthrough).tail (.leave rfl ⟨_, .fallthrough rfl rfl⟩)
  rcases pollLoop_callee hcalls with rfl | rfl
  · exact hread
  · exact htrap

omit hp in
theorem runRule_executes_pollLoop :
    ∃ p t, LinkedFrom pollLoop p ∧
      Reaches (step p.heap .descending 3) (start p.heap .descending 1 3) t ∧
      violation t = true ∧ Executes pollLoop 1 3 := by
  obtain ⟨p, t, hp, hfunctions, ht, hend, hviolation⟩ := pollLoop_run
  exact ⟨p, t, hp, ht, hviolation, runRule_executes hp (by decide)
    (by rw [hfunctions]; decide) (by rw [hfunctions]; decide) .descending ht hend
    hviolation fun _ => pollLoop_returns⟩

/-- The verdict does not depend on the orders in which the sets of the program
are walked, nor on what the vertices held before. -/
theorem runRule_verdict_unique {p' : Program} (hp' : LinkedFrom fis p')
    (hw : ∀ fi ∈ fis, WellLabelled fi.statements)
    (hgoes : ∀ fi ∈ fis, ∀ st ∈ fi.statements, st.goesOn = true)
    {source sink : FunctionPtr} (hsource : source ∈ p.functions)
    (hsink : sink ∈ p.functions) (o o' : SetOrder) {t t' : State}
    (ht : Reaches (step p.heap o sink) (start p.heap o source sink) t)
    (hend : step p.heap o sink t = none)
    (ht' : Reaches (step p'.heap o' sink) (start p'.heap o' source sink) t')
    (hend' : step p'.heap o' sink t' = none) : violation t = violation t' := by
  obtain ⟨hw', hgoes'⟩ := statementsOf_orderly hw hgoes
  have hfunctions : p'.functions = p.functions := by
    rw [hp.functions_eq, hp'.functions_eq]
  have hfirst := violation_iff hp hw' hgoes' hsource hsink ht hend
  have hsecond := violation_iff hp' hw' hgoes' (hfunctions.symm ▸ hsource)
    (hfunctions.symm ▸ hsink) ht' hend'
  rw [Bool.eq_iff_iff, hfirst, hsecond]

omit hp in
theorem runRule_verdict_unique_pollLoop :
    ∃ p t, LinkedFrom pollLoop p ∧
      Reaches (step p.heap .descending 3) (start p.heap .descending 1 3) t ∧
      ∀ p' o' t', LinkedFrom pollLoop p' →
        Reaches (step p'.heap o' 3) (start p'.heap o' 1 3) t' →
          step p'.heap o' 3 t' = none → violation t' = true := by
  obtain ⟨p, t, hp, hfunctions, ht, hend, hviolation⟩ := pollLoop_run
  refine ⟨p, t, hp, ht, fun p' o' t' hp' ht' hend' => ?_⟩
  rw [← runRule_verdict_unique hp hp' (by decide) (by decide)
    (by rw [hfunctions]; decide) (by rw [hfunctions]; decide) .descending o' ht hend
    ht' hend']
  exact hviolation

end RuleReachability

end CoFlo.Ports
