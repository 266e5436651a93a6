import CoFlo.Ports.LinkedProgram
import Mathlib.Data.Finset.Union

/-!
# Calls and returns match

A linked call has one fallthrough edge, one `FunctionCall` edge to the ENTRY
of the function it calls, and one `Return` edge from the EXIT of that function
to where the call falls through.  There are no other edges between functions,
so the in-edges of an ENTRY count the calls of its function, which is what
`Function::IsCalled` relies on.
-/

namespace CoFlo.Ports

/-- `Function::IsCalled`. -/
def Heap.isCalled (h : Heap) (f : FunctionPtr) : Bool :=
  1 < h.inDegree (h.function f).entryVertexDesc

/-- The edge is in the `m_edges` of some function of the program. -/
def Program.HasEdge (p : Program) (e : EdgePtr) : Prop :=
  ∃ f ∈ p.functions, e ∈ (p.heap.graph f).edges

/-- The vertices of all graphs of the program. -/
def Program.vertices (p : Program) : Finset VertexPtr :=
  p.functions.toFinset.biUnion fun f => (p.heap.graph f).vertices

/-- The `FunctionCallResolved` vertices that call `f`. -/
def Program.callsOf (p : Program) (f : FunctionPtr) : Finset VertexPtr :=
  p.vertices.filter fun c => (p.heap.vertex c).statement.calledFunction = some f

/-- The edges of the call `c` of the function `f`. -/
structure Program.MatchedCall (p : Program) (c : VertexPtr) (f : FunctionPtr) :
    Prop where
  fallthrough : ∃! e, e ∈ (p.heap.vertex c).outEdges ∧
    (p.heap.edge e).edgeType.isFallthrough = true
  functionCall : ∃! e, e ∈ (p.heap.vertex c).outEdges ∧
    (p.heap.edge e).edgeType.isFunctionCall = true
  functionCall_eq : ∀ e ∈ (p.heap.vertex c).outEdges,
    (p.heap.edge e).edgeType.isFunctionCall = true →
      (p.heap.edge e).target = (p.heap.function f).entryVertexDesc ∧
        (p.heap.edge e).edgeType =
          .functionCall c (p.heap.function f).theCfg
  returnEdge : ∃! r, p.HasEdge r ∧ (p.heap.edge r).edgeType = .returnEdge c
  returnEdge_eq : ∀ r, p.HasEdge r → (p.heap.edge r).edgeType = .returnEdge c →
    (p.heap.edge r).source = (p.heap.function f).exitVertexDesc ∧
      ∀ e ∈ (p.heap.vertex c).outEdges,
        (p.heap.edge e).edgeType.isFallthrough = true →
          (p.heap.edge r).target = (p.heap.edge e).target

theorem Program.mem_vertices {p : Program} {v : VertexPtr} :
    v ∈ p.vertices ↔ ∃ f ∈ p.functions, v ∈ (p.heap.graph f).vertices := by
  simp [Program.vertices]

theorem Statement.calledFunction_eq_some {st : Statement} {f : FunctionPtr} :
    st.calledFunction = some f ↔
      ∃ params, st = .functionCallResolved f params := by
  cases st <;> simp [Statement.calledFunction]

section linked

variable {p : Program} {home : VertexPtr → FunctionPtr}
  (hp : ProgramFlow p.functions home p.heap)

include hp

theorem ProgramFlow.hasEdge_iff (e : EdgePtr) :
    p.HasEdge e ↔ (p.heap.edge e).source ≠ null := by
  constructor
  · rintro ⟨f, hf, he⟩
    exact ((hp.mem_edges f hf e).mp he).1
  · intro he
    have hhome := hp.home_source e he
    exact ⟨_, hhome, (hp.mem_edges _ hhome e).mpr ⟨he, rfl⟩⟩

theorem ProgramFlow.home_of_mem_vertices {v : VertexPtr}
    (hv : v ∈ p.vertices) : home v ∈ p.functions := by
  obtain ⟨f, hf, hmem⟩ := Program.mem_vertices.mp hv
  rw [hp.home_eq f hf v hmem]
  exact hf

/-- A resolved call is linked. -/
theorem ProgramFlow.matchedCall (hlinked : CallsLinked p.functions home p.heap)
    {c : VertexPtr} (hc : home c ∈ p.functions) {f : FunctionPtr}
    {params : String}
    (hst : (p.heap.vertex c).statement = .functionCallResolved f params) :
    p.MatchedCall c f := by
  have hcon := hp.consistent
  obtain ⟨hf, hmem⟩ := hp.resolved c f params hc hst
  have hc0 := (hp.allocated c hc).1
  have hout : ∀ e, e ∈ (p.heap.vertex c).outEdges ↔
      (p.heap.edge e).source = c := by
    intro e
    rw [hcon.mem_outEdges, and_iff_left hc0]
  obtain ⟨d, hd⟩ := hp.fallsThrough _ hc c hmem (by rw [hst]; rfl)
  obtain ⟨⟨e, he⟩, r, hr⟩ := hlinked c f params hc hst
  refine ⟨⟨d, ?_, ?_⟩, ⟨e, ?_, ?_⟩, fun e' he' htype => ?_, ⟨r, ?_, ?_⟩,
    fun r' hr' htype => ?_⟩
  · show d ∈ (p.heap.vertex c).outEdges ∧ _
    rw [hout]
    exact (hd d).mpr rfl
  · intro d' hd'
    rw [hout] at hd'
    exact (hd d').mp hd'
  · show e ∈ (p.heap.vertex c).outEdges ∧ _
    rw [hout]
    exact (he e).mpr rfl
  · intro e' he'
    rw [hout] at he'
    exact (he e').mp he'
  · rw [hout] at he'
    have hattached : (p.heap.edge e').source ≠ null := he' ▸ hc0
    cases hedge : (p.heap.edge e').edgeType with
    | functionCall c' g =>
        obtain ⟨hc', _, params', hst', htarget⟩ :=
          hp.callEdge e' c' g hattached hedge
        rw [he'] at hc'
        subst hc'
        rw [hst, Statement.functionCallResolved.injEq] at hst'
        obtain ⟨rfl, _⟩ := hst'
        rw [hp.theCfg f hf]
        exact ⟨htarget, rfl⟩
    | _ =>
        rw [hedge] at htype
        exact Bool.noConfusion htype
  · show p.HasEdge r ∧ _
    rw [hp.hasEdge_iff]
    exact (hr r).mpr rfl
  · intro r' hr'
    rw [hp.hasEdge_iff] at hr'
    exact (hr r').mp hr'
  · have hattached := (hp.hasEdge_iff r').mp hr'
    obtain ⟨_, _, f', params', d', hst', hsource, hd', htarget⟩ :=
      hp.returnEdge r' c hattached htype
    rw [hst, Statement.functionCallResolved.injEq] at hst'
    obtain ⟨rfl, _⟩ := hst'
    refine ⟨hsource, fun e' he' hfall => ?_⟩
    rw [hout] at he'
    rw [htarget, (hd' e').mp ⟨he', hfall⟩]

/-- Besides its self edge, what comes to ENTRY are the calls. -/
theorem ProgramFlow.target_eq_entry {f : FunctionPtr} (hf : f ∈ p.functions)
    {e : EdgePtr} (he : (p.heap.edge e).source ≠ null)
    (htarget : (p.heap.edge e).target = (p.heap.function f).entryVertexDesc) :
    e = (p.heap.function f).entryVertexSelfEdge ∨
      ∃ c, (p.heap.edge e).edgeType = .functionCall c f := by
  have hintra : ∀ d, (p.heap.edge d).source ≠ null →
      (p.heap.edge d).edgeType.isIntraprocedural = true →
      (p.heap.edge d).target = (p.heap.function f).entryVertexDesc →
        d = (p.heap.function f).entryVertexSelfEdge := by
    intro d hd htype ht
    have hhome := hp.home_eq_home d hd htype
    rw [ht, hp.home_entry hf] at hhome
    have henter := hp.enter d hd htype
    rw [← hhome] at henter
    exact henter ht
  rcases hp.edgeType e he with htype | htype | htype
  · exact .inl (hintra e he htype htarget)
  · right
    cases hedge : (p.heap.edge e).edgeType with
    | functionCall c g =>
        obtain ⟨hsource, _, params, hst, ht⟩ := hp.callEdge e c g he hedge
        have hg := (hp.resolved c g params
          (hsource ▸ hp.home_source e he) hst).1
        have hgf : g = f := by
          rw [← hp.home_entry hg, ← ht, htarget, hp.home_entry hf]
        exact ⟨c, by rw [hgf]⟩
    | _ =>
        rw [hedge] at htype
        exact Bool.noConfusion htype
  · -- A call does not fall through to ENTRY.
    cases hedge : (p.heap.edge e).edgeType with
    | returnEdge c =>
        obtain ⟨hc, _, g, params, d, _, _, hd, ht⟩ := hp.returnEdge e c he hedge
        obtain ⟨hsource, hfall⟩ := (hd d).mpr rfl
        have hd0 : (p.heap.edge d).source ≠ null := by
          rw [hsource]
          exact (hp.allocated c hc).1
        have hself := hintra d hd0 (by
          revert hfall
          cases (p.heap.edge d).edgeType <;> simp [EdgeType.isFallthrough,
            EdgeType.isIntraprocedural]) (ht.symm.trans htarget)
        rw [hself, hp.entrySelf f hf] at hfall
        exact Bool.noConfusion hfall
    | _ =>
        rw [hedge] at htype
        exact Bool.noConfusion htype

/-- The in-degree of an ENTRY counts the calls of its function. -/
theorem ProgramFlow.inDegree_entry
    (hlinked : CallsLinked p.functions home p.heap) {f : FunctionPtr}
    (hf : f ∈ p.functions) :
    p.heap.inDegree (p.heap.function f).entryVertexDesc =
      1 + (p.callsOf f).card := by
  have hcon := hp.consistent
  have hentry0 := hp.entry_ne_null hf
  have hself := hp.entrySelf f hf
  have hmem : ∀ e, e ∈ (p.heap.vertex
      (p.heap.function f).entryVertexDesc).inEdges ↔
        (p.heap.edge e).target = (p.heap.function f).entryVertexDesc := by
    intro e
    rw [hcon.mem_inEdges, and_iff_left hentry0]
  have hselfMem : (p.heap.function f).entryVertexSelfEdge ∈ (p.heap.vertex
      (p.heap.function f).entryVertexDesc).inEdges := by
    rw [hmem, hself]
  have hcard : ((p.heap.vertex (p.heap.function f).entryVertexDesc).inEdges.erase
      (p.heap.function f).entryVertexSelfEdge).card = (p.callsOf f).card := by
    have hcall : ∀ e, e ∈ (p.heap.vertex
        (p.heap.function f).entryVertexDesc).inEdges.erase
          (p.heap.function f).entryVertexSelfEdge →
        (p.heap.edge e).source ≠ null ∧
          (p.heap.edge e).edgeType = .functionCall (p.heap.edge e).source f := by
      intro e he
      obtain ⟨hne, he⟩ := Finset.mem_erase.mp he
      have hsource := hcon.source_ne_null_of_mem he
      rcases hp.target_eq_entry hf hsource ((hmem e).mp he) with heq | ⟨c, htype⟩
      · exact absurd heq hne
      · obtain ⟨hc, _⟩ := hp.callEdge e c f hsource htype
        exact ⟨hsource, by rw [hc, htype]⟩
    refine Finset.card_bij (fun e _ => (p.heap.edge e).source) ?_ ?_ ?_
    · intro e he
      obtain ⟨hsource, htype⟩ := hcall e he
      obtain ⟨_, _, params, hst, _⟩ := hp.callEdge e _ f hsource htype
      have hhome := hp.home_source e hsource
      rw [Program.callsOf, Finset.mem_filter, Program.mem_vertices]
      exact ⟨⟨_, hhome, (hp.resolved _ f params hhome hst).2⟩,
        Statement.calledFunction_eq_some.mpr ⟨params, hst⟩⟩
    · intro e he e' he' heq
      obtain ⟨hsource, htype⟩ := hcall e he
      obtain ⟨_, htype'⟩ := hcall e' he'
      obtain ⟨_, _, params, hst, _⟩ := hp.callEdge e _ f hsource htype
      obtain ⟨⟨d, hd⟩, _⟩ := hlinked _ f params (hp.home_source e hsource) hst
      have h1 := (hd e).mp ⟨rfl, by rw [htype]; rfl⟩
      have h2 := (hd e').mp ⟨heq.symm, by rw [htype']; rfl⟩
      rw [h1, h2]
    · intro c hc
      rw [Program.callsOf, Finset.mem_filter,
        Statement.calledFunction_eq_some] at hc
      obtain ⟨hcmem, params, hst⟩ := hc
      have hhome := hp.home_of_mem_vertices hcmem
      have hc0 := (hp.allocated c hhome).1
      have hmatched := hp.matchedCall hlinked hhome hst
      obtain ⟨e, ⟨heout, htype⟩, _⟩ := hmatched.functionCall
      obtain ⟨htarget, hedge⟩ := hmatched.functionCall_eq e heout htype
      have hsource := hcon.source_eq_of_mem heout
      refine ⟨e, Finset.mem_erase.mpr ⟨?_, (hmem e).mpr htarget⟩, hsource⟩
      intro heq
      rw [heq, hself] at hedge
      exact absurd hedge (by simp)
  rw [Finset.card_erase_of_mem hselfMem] at hcard
  have hpos := Finset.card_pos.mpr ⟨_, hselfMem⟩
  unfold Heap.inDegree
  omega

theorem ProgramFlow.isCalled_iff
    (hlinked : CallsLinked p.functions home p.heap) {f : FunctionPtr}
    (hf : f ∈ p.functions) :
    p.heap.isCalled f = true ↔ ∃ c ∈ p.vertices,
      (p.heap.vertex c).statement.calledFunction = some f := by
  unfold Heap.isCalled
  rw [decide_eq_true_iff, hp.inDegree_entry hlinked hf]
  constructor
  · intro hcard
    have hpos : 0 < (p.callsOf f).card := by omega
    obtain ⟨c, hc⟩ := Finset.card_pos.mp hpos
    exact ⟨c, Finset.mem_filter.mp hc⟩
  · rintro ⟨c, hc⟩
    have hmem : c ∈ p.callsOf f := Finset.mem_filter.mpr hc
    have hpos := Finset.card_pos.mpr ⟨c, hmem⟩
    omega

end linked

/-- Linking the functions of a program, in whatever order: `Link` finds the
fallthrough edge of every call, and afterwards all calls are matched. -/
theorem linkFunctions_matched {memory : VertexPtr → Vertex}
    {orders : PassOrders} {fis : List FunctionInfo} {built : Program}
    {seq : List FunctionPtr}
    (hfis : ∀ fi ∈ fis, ∀ st ∈ fi.statementList, st.1.isParsed = true)
    (hbuild : Program.build memory orders fis = .ok built)
    (hseq : seq.Perm built.functions) :
    ∃ p, seq.foldlM (Program.linkFunction orders) built = .ok p ∧
      p.functions = built.functions ∧
      (∀ c ∈ p.vertices, ∀ f params,
        (p.heap.vertex c).statement = .functionCallResolved f params →
          f ∈ p.functions ∧ p.MatchedCall c f) ∧
      (∀ e, p.HasEdge e → ∀ c g,
        (p.heap.edge e).edgeType = .functionCall c g →
          e ∈ (p.heap.vertex c).outEdges ∧ c ∈ p.vertices ∧
            (p.heap.vertex c).statement.calledFunction = some g) ∧
      (∀ r, p.HasEdge r → ∀ c, (p.heap.edge r).edgeType = .returnEdge c →
        c ∈ p.vertices ∧
          (p.heap.vertex c).statement.calledFunction.isSome = true) ∧
      ∀ f ∈ p.functions,
        p.heap.inDegree (p.heap.function f).entryVertexDesc =
            1 + (p.callsOf f).card ∧
          (p.heap.isCalled f = true ↔ ∃ c ∈ p.vertices,
            (p.heap.vertex c).statement.calledFunction = some f) := by
  obtain ⟨p, hrun, hinv, hfunctions, _⟩ :=
    (Program.Invariant.build hfis hbuild).linkFunctions orders
      fun f hf => hseq.mem_iff.mp hf
  obtain ⟨home, hp, hlinked⟩ := hinv.flow
  refine ⟨p, hrun, hfunctions, fun c hc f params hst => ?_,
    fun e he c g htype => ?_, fun r hr c htype => ?_,
    fun f hf => ⟨hp.inDegree_entry hlinked hf, hp.isCalled_iff hlinked hf⟩⟩
  · have hhome := hp.home_of_mem_vertices hc
    exact ⟨(hp.resolved c f params hhome hst).1,
      hp.matchedCall hlinked hhome hst⟩
  · have hsource := (hp.hasEdge_iff e).mp he
    obtain ⟨heq, _, params, hst, _⟩ := hp.callEdge e c g hsource htype
    have hhome : home c ∈ p.functions := heq ▸ hp.home_source e hsource
    refine ⟨(hp.consistent.mem_outEdges c e).mpr ⟨heq, heq ▸ hsource⟩,
      Program.mem_vertices.mpr ⟨_, hhome,
        (hp.resolved c g params hhome hst).2⟩, ?_⟩
    rw [hst]
    rfl
  · have hsource := (hp.hasEdge_iff r).mp hr
    obtain ⟨hhome, _, f, params, _, hst, _⟩ := hp.returnEdge r c hsource htype
    refine ⟨Program.mem_vertices.mpr ⟨_, hhome,
      (hp.resolved c f params hhome hst).2⟩, ?_⟩
    rw [hst]
    rfl

/-- Every pass in ascending order. -/
def PassOrders.ascending : PassOrders where
  fixup _ := .ascending
  removal _ := .ascending
  link _ := .ascending

/-- Two functions that call each other, one of them twice in a row. -/
def mutualRecursion : List FunctionInfo :=
  [⟨"f.c", "f", [(.functionCallUnresolved "g" "", .unknown),
    (.functionCallUnresolved "g" "", .unknown)]⟩,
   ⟨"f.c", "g", [(.functionCallUnresolved "f" "", .unknown)]⟩]

/-- Vertex memory that has never been written to. -/
def blankMemory : VertexPtr → Vertex :=
  fun _ => ⟨.noOp, .unknown, null, ∅, ∅, 0⟩

theorem mutualRecursion_built :
    ∃ built, Program.build blankMemory .ascending mutualRecursion = .ok built ∧
      built.functions = [1, 2] := by
  have hok : (Program.build blankMemory .ascending
      mutualRecursion).Holds (fun built => built.functions = [1, 2]) := by
    decide +kernel
  exact hok

/-- The callee of both calls is called, linked last to first. -/
theorem linkFunctions_matched_mutualRecursion :
    ∃ built p, Program.build blankMemory .ascending mutualRecursion =
        .ok built ∧
      [2, 1].foldlM (Program.linkFunction .ascending) built = .ok p ∧
      (p.heap.isCalled 2 = true ↔ ∃ c ∈ p.vertices,
        (p.heap.vertex c).statement.calledFunction = some 2) := by
  obtain ⟨built, hbuild, hfunctions⟩ := mutualRecursion_built
  have hperm : [2, 1].Perm built.functions := by
    rw [hfunctions]
    exact List.Perm.swap 1 2 []
  obtain ⟨p, hrun, hsame, _, _, _, hcalled⟩ :=
    linkFunctions_matched (by decide) hbuild hperm
  exact ⟨built, p, hbuild, hrun, (hcalled 2 (by rw [hsame, hfunctions]; simp)).2⟩

end CoFlo.Ports
