import CoFlo.Ports.ProgramFlow
import CoFlo.Verified.FoldInvariant

/-!
# `Function::Link` keeps the flow of the program

`Link` first makes a `FunctionCallResolved` for every call it can resolve, and
then puts one after the other in the place of the unresolved call.  The two
loops are followed one round at a time: `resolveCalls_spec` describes the list
of replacements, `replaceCall_spec` what a single replacement does to the
program, and `link_spec` the run as a whole.  The replacement never fails,
since a call has a fallthrough edge from the moment its function is built, and
`ReplaceVertex` hands it over.
-/

namespace CoFlo.Ports

open CoFlo.Verified.FoldInvariant

namespace Heap

/-- The call `c` has one `FunctionCall` edge and one `Return` edge. -/
def IsLinkedCall (h : Heap) (c : VertexPtr) : Prop :=
  (∃ e, ∀ d, (h.edge d).source = c ∧ (h.edge d).edgeType.isFunctionCall = true ↔
    d = e) ∧
  ∃ r, ∀ d, (h.edge d).source ≠ null ∧ (h.edge d).edgeType = .returnEdge c ↔
    d = r

theorem isLinkedCall_congr {h h' : Heap} (hedge : h'.edge = h.edge)
    (c : VertexPtr) : h'.IsLinkedCall c ↔ h.IsLinkedCall c := by
  simp only [IsLinkedCall, hedge]

/-- The edges of a linked call stay the only ones of their kind. -/
theorem IsLinkedCall.of_edges {h h' : Heap} {c : VertexPtr}
    (hlinked : h.IsLinkedCall c) (hc : c ≠ null)
    (hold : ∀ d, (h.edge d).source ≠ null → (h'.edge d).source ≠ null ∧
      ((h'.edge d).source = c ↔ (h.edge d).source = c) ∧
        (h'.edge d).edgeType = (h.edge d).edgeType)
    (hnew : ∀ d, (h.edge d).source = null →
      (h'.edge d).source ≠ c ∧
        ((h'.edge d).source ≠ null → (h'.edge d).edgeType ≠ .returnEdge c)) :
    h'.IsLinkedCall c := by
  obtain ⟨⟨e, he⟩, r, hr⟩ := hlinked
  refine ⟨⟨e, fun d => ?_⟩, r, fun d => ?_⟩
  · rw [← he d]
    by_cases hd : (h.edge d).source = null
    · exact iff_of_false (fun hcon => (hnew d hd).1 hcon.1)
        fun hcon => hc (hcon.1.symm.trans hd)
    · obtain ⟨_, hsource, htype⟩ := hold d hd
      rw [hsource, htype]
  · rw [← hr d]
    by_cases hd : (h.edge d).source = null
    · exact iff_of_false (fun hcon => (hnew d hd).2 hcon.1 hcon.2)
        fun hcon => hcon.1 hd
    · obtain ⟨hattached, _, htype⟩ := hold d hd
      rw [htype]
      exact and_congr_left fun _ => iff_of_true hattached hd

/-- `GetFirstOutEdgeOfType` finds the fallthrough edge of a call, in whatever
order it walks over the out-edges. -/
theorem Consistent.firstFallthrough_eq {h : Heap} (hc : h.Consistent)
    {v : VertexPtr} {d : EdgePtr} (hv : v ≠ null) (hd : h.FallsThrough v d)
    (order : SetOrder) : h.firstFallthrough order v = some d := by
  obtain ⟨hsource, hfall⟩ := (hd d).mpr rfl
  have hmem : d ∈ order.enum (h.vertex v).outEdges :=
    (order.mem_enum _).mpr ((hc.mem_outEdges v d).mpr ⟨hsource, hv⟩)
  unfold firstFallthrough
  cases hfind : (order.enum (h.vertex v).outEdges).find? fun e =>
      (h.edge e).edgeType.isFallthrough with
  | none =>
      rw [List.find?_eq_none] at hfind
      exact absurd hfall (hfind d hmem)
  | some e =>
      have hefall := List.find?_some hfind
      have hemem := (order.mem_enum _).mp (List.mem_of_find?_eq_some hfind)
      have heq := (hd e).mp ⟨hc.source_eq_of_mem hemem, hefall⟩
      rw [heq]

end Heap

/-- Every resolved call of the program is linked. -/
def CallsLinked (functions : List FunctionPtr) (home : VertexPtr → FunctionPtr)
    (h : Heap) : Prop :=
  ∀ c f params, home c ∈ functions →
    (h.vertex c).statement = .functionCallResolved f params → h.IsLinkedCall c

/-- An unresolved call and the vertex that is to take its place. -/
structure PendingCall (functions : List FunctionPtr)
    (home : VertexPtr → FunctionPtr) (h : Heap) (this : FunctionPtr)
    (p : VertexPtr × VertexPtr) : Prop where
  mem : p.1 ∈ (h.graph this).vertices
  unresolved : ∃ identifier params,
    (h.vertex p.1).statement = .functionCallUnresolved identifier params
  resolved : ∃ f params, f ∈ functions ∧
    (h.vertex p.2).statement = .functionCallResolved f params
  home_notMem : home p.2 ∉ functions
  ne_null : p.2 ≠ null
  lt_nextVertex : p.2 < h.nextVertex

/-- What the replacement of a call leaves alone, and what it does to the
vertex set of its graph. -/
structure CallReplaced (h : Heap) (this : FunctionPtr)
    (p : VertexPtr × VertexPtr) (h' : Heap) : Prop where
  statement : ∀ v, (h'.vertex v).statement = (h.vertex v).statement
  owningFunction : ∀ v,
    (h'.vertex v).owningFunction = (h.vertex v).owningFunction
  function : h'.function = h.function
  nextVertex : h'.nextVertex = h.nextVertex
  vertices : ∀ g, (h'.graph g).vertices =
    if g = this then (insert p.2 (h.graph g).vertices).erase p.1
    else (h.graph g).vertices

section replaceCall

variable {functions : List FunctionPtr} {home : VertexPtr → FunctionPtr}
  {h : Heap} (hp : ProgramFlow functions home h) {this : FunctionPtr}
  (hthis : this ∈ functions) {p : VertexPtr × VertexPtr}
  (hcall : PendingCall functions home h this p)

include hp hcall

/-- Nothing has been linked for the new vertex. -/
theorem ProgramFlow.not_linked_pending (e : EdgePtr)
    (he : (h.edge e).source ≠ null) :
    ¬ ((h.edge e).source = p.1 ∧ (h.edge e).edgeType.isFunctionCall = true) ∧
      (h.edge e).edgeType ≠ .returnEdge p.2 := by
  constructor
  · rintro ⟨hsource, htype⟩
    obtain ⟨identifier, params, hst⟩ := hcall.unresolved
    cases hedge : (h.edge e).edgeType with
    | functionCall c g =>
        obtain ⟨hc, _, _, hst', _⟩ := hp.callEdge e c g he hedge
        rw [← hc, hsource, hst] at hst'
        exact absurd hst' (by simp)
    | _ =>
        rw [hedge] at htype
        exact Bool.noConfusion htype
  · intro htype
    exact hcall.home_notMem (hp.returnEdge e p.2 he htype).1

include hthis

/-- One round of the second loop of `Link`. -/
theorem ProgramFlow.replaceCall_spec (hlinked : CallsLinked functions home h)
    (outEdges : SetOrder) :
    ∃ h', h.replaceCall outEdges this p = .ok h' ∧
      ProgramFlow functions (Function.update home p.2 this) h' ∧
      CallsLinked functions (Function.update home p.2 this) h' ∧
      CallReplaced h this p h' ∧
      ∀ q, q.1 ≠ p.1 → q.2 ≠ p.2 → PendingCall functions home h this q →
        PendingCall functions (Function.update home p.2 this) h' this q := by
  obtain ⟨identifier, params, hunresolved⟩ := hcall.unresolved
  obtain ⟨f, params', hf, hresolved⟩ := hcall.resolved
  have hc := hp.consistent
  have hhomeOld := hp.home_eq this hthis _ hcall.mem
  have hold0 : p.1 ≠ null :=
    (hp.allocated _ (by rw [hhomeOld]; exact hthis)).1
  have hne : p.1 ≠ p.2 := fun heq =>
    hcall.home_notMem (by rw [← heq, hhomeOld]; exact hthis)
  -- The vertex in its new place.
  have hp₁ := hp.vertexReplaced hthis hf hcall.mem hunresolved hresolved
    hcall.home_notMem hcall.ne_null hcall.lt_nextVertex
  obtain ⟨h₁, hh₁⟩ : ∃ h₁, h₁ = h.vertexReplaced this p.1 p.2 := ⟨_, rfl⟩
  rw [← hh₁] at hp₁
  have hsource₁ : ∀ e, (h₁.edge e).source =
      if (h.edge e).source = p.1 then p.2 else (h.edge e).source := fun e => by
    rw [hh₁]
    exact hc.vertexReplaced_source this hold0 e
  have htype₁ : ∀ e, (h₁.edge e).edgeType = (h.edge e).edgeType := fun e => by
    rw [hh₁, Heap.vertexReplaced_edgeType]
  have hst₁ : ∀ v, (h₁.vertex v).statement = (h.vertex v).statement :=
    fun v => by rw [hh₁, Heap.vertexReplaced_statement]
  have hfun₁ : h₁.function = h.function := by
    rw [hh₁, Heap.vertexReplaced_function]
  have hvertices₁ : ∀ g, (h₁.graph g).vertices =
      if g = this then (insert p.2 (h.graph g).vertices).erase p.1
      else (h.graph g).vertices := fun g => by
    rw [hh₁, Heap.vertexReplaced_graph]
    split_ifs with hg
    · rw [hg]
    · rfl
  have hmem₁ : p.2 ∈ (h₁.graph this).vertices := by
    rw [hvertices₁, if_pos rfl, Finset.mem_erase]
    exact ⟨hne.symm, Finset.mem_insert_self _ _⟩
  have hhome₁ : Function.update home p.2 this p.2 = this :=
    Function.update_self _ _ _
  obtain ⟨d, hd⟩ := hp₁.fallsThrough this hthis p.2 hmem₁ (by
    rw [hst₁, hresolved]; rfl)
  have hfirst := hp₁.consistent.firstFallthrough_eq hcall.ne_null hd outEdges
  have hdsource := ((hd d).mpr rfl).1
  have hd0 : (h₁.edge d).source ≠ null := hdsource ▸ hcall.ne_null
  have hdnext : d ≠ h₁.nextEdge := fun heq =>
    hd0 (heq ▸ hp₁.consistent.nextEdge_source)
  -- The edge to the called function.
  have hentry := hp₁.home_entry hf
  have hp₂ := hp₁.addNewEdge (g := this) (s := p.2)
    (t := (h₁.function f).entryVertexDesc)
    (.functionCall p.2 (h₁.function f).theCfg) hthis hhome₁
    (by rw [hentry]; exact hf)
    (fun c g hty => by
      rw [EdgeType.functionCall.injEq, hp₁.theCfg f hf] at hty
      obtain ⟨rfl, rfl⟩ := hty
      exact ⟨rfl, params', by rw [hst₁, hresolved], rfl⟩)
    (fun c hty => absurd hty (by simp)) (.inl rfl)
  obtain ⟨h₂, hh₂⟩ : ∃ h₂, h₂ = h₁.addNewEdge this p.2
      (h₁.function f).entryVertexDesc
        (.functionCall p.2 (h₁.function f).theCfg) := ⟨_, rfl⟩
  rw [← hh₂] at hp₂
  have hedge₂ : ∀ e, h₂.edge e = if e = h₁.nextEdge then
      ⟨p.2, (h₁.function f).entryVertexDesc,
        .functionCall p.2 (h₁.function f).theCfg, false⟩
      else h₁.edge e := fun e => by rw [hh₂, Heap.addNewEdge_edge]
  have hfun₂ : h₂.function = h₁.function := by rw [hh₂]; rfl
  have hst₂ : ∀ v, (h₂.vertex v).statement = (h₁.vertex v).statement :=
    fun v => by rw [hh₂, Heap.addNewEdge_statement]
  have hd₂ : h₂.FallsThrough p.2 d := by
    intro e
    rw [hedge₂, ← hd e]
    split_ifs with he
    · rw [he]
      refine iff_of_false (fun hcon => Bool.noConfusion hcon.2) fun hcon => ?_
      rw [hp₁.consistent.nextEdge_source] at hcon
      exact hcall.ne_null hcon.1.symm
    · rfl
  have htarget₂ : (h₂.edge d).target = (h₁.edge d).target := by
    rw [hedge₂, if_neg hdnext]
  -- The edge back to where the call falls through.
  have hexit := hp₁.home_exit hf
  have hdhome : Function.update home p.2 this (h₁.edge d).target ∈ functions :=
    hp₁.home_target d hd0
  have hp₃ := hp₂.addNewEdge (g := f)
    (s := (h₂.function f).exitVertexDesc) (t := (h₂.edge d).target)
    (.returnEdge p.2) hf (by rw [hfun₂]; exact hexit)
    (by rw [htarget₂]; exact hdhome)
    (fun c g hty => absurd hty (by simp))
    (fun c hty => by
      obtain rfl := EdgeType.returnEdge.inj hty
      refine ⟨by rw [hhome₁]; exact hthis, f, params', d, ?_, rfl, hd₂, rfl⟩
      rw [hst₂, hst₁, hresolved]) (.inr rfl)
  obtain ⟨h₃, hh₃⟩ : ∃ h₃, h₃ = h₂.addNewEdge f
      (h₂.function f).exitVertexDesc (h₂.edge d).target (.returnEdge p.2) :=
    ⟨_, rfl⟩
  rw [← hh₃] at hp₃
  have hnext₂ : h₂.nextEdge = h₁.nextEdge + 1 := by rw [hh₂]; rfl
  have hedge₃ : ∀ e, h₃.edge e =
      if e = h₁.nextEdge + 1 then
        ⟨(h₂.function f).exitVertexDesc, (h₂.edge d).target, .returnEdge p.2,
          false⟩
      else h₂.edge e := fun e => by rw [hh₃, Heap.addNewEdge_edge, hnext₂]
  have hrun : h.replaceCall outEdges this p = .ok h₃ := by
    have hnotMem : p.2 ∉ (h.graph this).vertices := fun hmem =>
      hcall.home_notMem (by rw [hp.home_eq this hthis _ hmem]; exact hthis)
    unfold Heap.replaceCall
    rw [Heap.replaceVertex_eq_ok hnotMem, ← hh₁]
    simp only [bind, Except.bind, hst₁, hresolved, hfirst]
    rw [← hh₂, hh₃, hfun₂, hp₁.theCfg f hf]
  have hnext₁ : h₁.nextEdge = h.nextEdge := by rw [hh₁]; rfl
  have hunattached : ∀ e, (h.edge e).source ≠ null →
      e ≠ h.nextEdge ∧ e ≠ h.nextEdge + 1 := fun e he =>
    ⟨Nat.ne_of_lt (hc.allocated e he).2,
      Nat.ne_of_lt (Nat.lt_succ_of_lt (hc.allocated e he).2)⟩
  have hedge : ∀ e, h₃.edge e =
      if e = h.nextEdge + 1 then
        ⟨(h₂.function f).exitVertexDesc, (h₂.edge d).target, .returnEdge p.2,
          false⟩
      else if e = h.nextEdge then
        ⟨p.2, (h₁.function f).entryVertexDesc,
          .functionCall p.2 (h₁.function f).theCfg, false⟩
      else h₁.edge e := fun e => by rw [hedge₃, hedge₂ e, hnext₁]
  have hlinkedNew : h₃.IsLinkedCall p.2 := by
    refine ⟨⟨h.nextEdge, fun e => ?_⟩, h.nextEdge + 1, fun e => ?_⟩
    · rw [hedge]
      split_ifs with h1 h2
      · subst h1
        exact iff_of_false (fun hcon => Bool.noConfusion hcon.2)
          (Nat.succ_ne_self _)
      · exact iff_of_true ⟨rfl, rfl⟩ h2
      · refine iff_of_false ?_ h2
        rw [hsource₁, htype₁]
        rintro ⟨hs, ht⟩
        by_cases he : (h.edge e).source = p.1
        · exact (hp.not_linked_pending hcall e (he ▸ hold0)).1 ⟨he, ht⟩
        · rw [if_neg he] at hs
          have hmem := (hc.mem_outEdges p.2 e).mpr ⟨hs, hcall.ne_null⟩
          rw [hp.outEdges_eq_empty hcall.home_notMem] at hmem
          exact Finset.notMem_empty e hmem
    · rw [hedge]
      split_ifs with h1 h2
      · exact iff_of_true ⟨by rw [hfun₂]; exact hp₁.exit_ne_null hf, rfl⟩ h1
      · refine iff_of_false (fun hcon => absurd hcon.2 (by simp)) h1
      · refine iff_of_false ?_ h1
        rw [hsource₁, htype₁]
        rintro ⟨hs, ht⟩
        have he : (h.edge e).source ≠ null := by
          by_cases he : (h.edge e).source = p.1
          · exact he ▸ hold0
          · rwa [if_neg he] at hs
        exact (hp.not_linked_pending hcall e he).2 ht
  refine ⟨h₃, hrun, hp₃, fun c f' params'' hhome hst => ?_, ?_, ?_⟩
  · by_cases hcnew : c = p.2
    · exact hcnew ▸ hlinkedNew
    rw [Function.update_of_ne hcnew] at hhome
    have hst' : (h.vertex c).statement = .functionCallResolved f' params'' := by
      rw [← hst, hh₃, Heap.addNewEdge_statement, hst₂, hst₁]
    have hc0 := (hp.allocated c hhome).1
    have hcold : c ≠ p.1 := fun heq => by
      rw [heq, hunresolved] at hst'
      exact absurd hst' (by simp)
    refine (hlinked c f' params'' hhome hst').of_edges hc0
      (fun e he => ?_) fun e he => ?_
    · obtain ⟨hne1, hne2⟩ := hunattached e he
      rw [hedge, if_neg hne2, if_neg hne1, hsource₁, htype₁]
      refine ⟨?_, ?_, rfl⟩
      · split_ifs
        · exact hcall.ne_null
        · exact he
      · split_ifs with heold
        · rw [heold]
          exact iff_of_false (fun hcon => hcnew hcon.symm)
            fun hcon => hcold hcon.symm
        · rfl
    · rw [hedge]
      split_ifs with h1 h2
      · refine ⟨fun hcon => ?_, fun _ hcon => ?_⟩
        · -- EXIT is not a call.
          have hstExit := hp₂.exitStatement hf
          rw [show (h₂.function f).exitVertexDesc = c from hcon, hst₂, hst₁,
            hst'] at hstExit
          exact absurd hstExit (by simp)
        · exact hcnew (EdgeType.returnEdge.inj hcon).symm
      · exact ⟨fun hcon => hcnew hcon.symm, fun _ hcon => absurd hcon (by simp)⟩
      · have hnull : (h₁.edge e).source = null := by
          rw [hsource₁, he, if_neg hold0.symm]
        rw [hnull]
        exact ⟨hc0.symm, fun hcon => absurd rfl hcon⟩
  · exact
      { statement := fun v => by
          rw [hh₃, Heap.addNewEdge_statement, hst₂, hst₁]
        owningFunction := fun v => by
          rw [hh₃, Heap.addNewEdge_owningFunction, hh₂,
            Heap.addNewEdge_owningFunction, hh₁,
            Heap.vertexReplaced_owningFunction]
        function := by rw [hh₃, Heap.addNewEdge_function, hfun₂, hfun₁]
        nextVertex := by rw [hh₃, hh₂, hh₁]; rfl
        vertices := fun g => by
          rw [hh₃, Heap.addNewEdge_vertices, hh₂, Heap.addNewEdge_vertices,
            hvertices₁] }
  · intro q hq1 hq2 hqcall
    obtain ⟨identifier', params'', hqst⟩ := hqcall.unresolved
    obtain ⟨f', params₃, hf', hqst'⟩ := hqcall.resolved
    have hstatement : ∀ v, (h₃.vertex v).statement = (h.vertex v).statement :=
      fun v => by rw [hh₃, Heap.addNewEdge_statement, hst₂, hst₁]
    have hqhome : Function.update home p.2 this q.2 ∉ functions := by
      rw [Function.update_of_ne hq2]
      exact hqcall.home_notMem
    exact
      { mem := by
          rw [hh₃, Heap.addNewEdge_vertices, hh₂, Heap.addNewEdge_vertices,
            hvertices₁, if_pos rfl, Finset.mem_erase]
          exact ⟨hq1, Finset.mem_insert_of_mem hqcall.mem⟩
        unresolved := ⟨identifier', params'', by rw [hstatement, hqst]⟩
        resolved := ⟨f', params₃, hf', by rw [hstatement, hqst']⟩
        home_notMem := hqhome
        ne_null := hqcall.ne_null
        lt_nextVertex := by
          rw [hh₃, hh₂, hh₁]
          exact hqcall.lt_nextVertex }

end replaceCall

/-! ## The first loop -/

/-- The function a statement is resolved to, when it is an unresolved call. -/
def Statement.resolution (functionMap : FunctionMap) :
    Statement → Option FunctionPtr
  | functionCallUnresolved identifier _ => functionMap identifier
  | _ => none

/-- The name a statement leaves unresolved. -/
def Statement.unresolvedName (functionMap : FunctionMap) :
    Statement → Option String
  | functionCallUnresolved identifier _ =>
      if functionMap identifier = none then some identifier else none
  | _ => none

namespace Heap

/-- What `Link` adds to the map of unresolved calls for a list of vertices. -/
def addUnresolved (h : Heap) (functionMap : FunctionMap)
    (m : UnresolvedFunctionCallMap) (vs : List VertexPtr) :
    UnresolvedFunctionCallMap :=
  vs.foldl (fun m v =>
    match (h.vertex v).statement.unresolvedName functionMap with
    | some identifier => m.insertEntry identifier v
    | none => m) m

end Heap

/-- The state after the vertices of `pre` have been looked at. -/
structure CallsResolved (h : Heap) (functionMap : FunctionMap)
    (m : UnresolvedFunctionCallMap) (pre : List VertexPtr) (s : LinkState) :
    Prop where
  consistent : s.heap.Consistent
  edge : s.heap.edge = h.edge
  graph : s.heap.graph = h.graph
  function : s.heap.function = h.function
  nextVertex : s.heap.nextVertex =
    h.nextVertex + s.vertexReplacementInfo.length
  vertex_old : ∀ v, v < h.nextVertex → s.heap.vertex v = h.vertex v
  owningFunction : ∀ v,
    (s.heap.vertex v).owningFunction = (h.vertex v).owningFunction
  unresolved : s.unresolvedFunctionCalls = h.addUnresolved functionMap m pre
  firsts : s.vertexReplacementInfo.map Prod.fst =
    pre.filter fun v =>
      ((h.vertex v).statement.resolution functionMap).isSome
  seconds : s.vertexReplacementInfo.map Prod.snd =
    List.range' h.nextVertex s.vertexReplacementInfo.length
  statement : ∀ p ∈ s.vertexReplacementInfo, ∃ identifier f params,
    (h.vertex p.1).statement = .functionCallUnresolved identifier params ∧
      functionMap identifier = some f ∧
      (s.heap.vertex p.2).statement = .functionCallResolved f params

theorem CallsResolved.skip {h : Heap} {functionMap : FunctionMap}
    {m m' : UnresolvedFunctionCallMap} {pre : List VertexPtr} {s : LinkState}
    {v : VertexPtr} (hs : CallsResolved h functionMap m pre s)
    (hres : (h.vertex v).statement.resolution functionMap = none)
    (hm : m' = h.addUnresolved functionMap m (pre ++ [v])) :
    CallsResolved h functionMap m (pre ++ [v])
      { s with unresolvedFunctionCalls := m' } :=
  { hs with
    unresolved := hm
    firsts := by
      rw [List.filter_append, List.filter_singleton, hres, hs.firsts]
      simp }

theorem CallsResolved.resolve {h : Heap} {functionMap : FunctionMap}
    {m : UnresolvedFunctionCallMap} {pre : List VertexPtr} {s : LinkState}
    {v : VertexPtr} {identifier params : String} {f : FunctionPtr}
    (hs : CallsResolved h functionMap m pre s)
    (hst : (h.vertex v).statement = .functionCallUnresolved identifier params)
    (hmap : functionMap identifier = some f) (location : Location) :
    CallsResolved h functionMap m (pre ++ [v])
      ⟨(s.heap.newVertex (.functionCallResolved f params) location).2,
        s.unresolvedFunctionCalls,
        s.vertexReplacementInfo ++ [(v, s.heap.nextVertex)]⟩ where
  consistent := hs.consistent.newVertex _ _
  edge := hs.edge
  graph := hs.graph
  function := hs.function
  nextVertex := by
    show s.heap.nextVertex + 1 = _
    rw [List.length_append, hs.nextVertex]
    rfl
  vertex_old w hw := by
    have hne : w ≠ s.heap.nextVertex := by
      rw [hs.nextVertex]
      exact Nat.ne_of_lt (Nat.lt_add_right _ hw)
    rw [← hs.vertex_old w hw]
    exact s.heap.newVertex_vertex_of_ne _ _ hne
  owningFunction w := by
    rw [Heap.newVertex_owningFunction]
    exact hs.owningFunction w
  unresolved := by
    show s.unresolvedFunctionCalls = _
    rw [hs.unresolved, Heap.addUnresolved, Heap.addUnresolved,
      List.foldl_append, List.foldl_cons, hst, Statement.unresolvedName, hmap]
    rfl
  firsts := by
    have hres : ((h.vertex v).statement.resolution functionMap).isSome =
        true := by
      rw [hst, Statement.resolution, hmap]
      rfl
    rw [List.filter_append, List.filter_singleton, hres, List.map_append,
      hs.firsts]
    rfl
  seconds := by
    rw [List.length_append, List.map_append, hs.seconds, List.length_singleton,
      List.range'_concat, Nat.one_mul, ← hs.nextVertex]
    rfl
  statement p hp := by
    rcases List.mem_append.mp hp with hp | hp
    · obtain ⟨identifier', f', params', hst', hmap', hnew⟩ := hs.statement p hp
      refine ⟨identifier', f', params', hst', hmap', ?_⟩
      have hmem := List.mem_map_of_mem (f := Prod.snd) hp
      rw [hs.seconds, List.mem_range'_1, ← hs.nextVertex] at hmem
      rw [Heap.newVertex_statement, if_neg (Nat.ne_of_lt hmem.2)]
      exact hnew
    · rw [List.mem_singleton.mp hp]
      refine ⟨identifier, f, params, hst, hmap, ?_⟩
      rw [Heap.newVertex_statement]
      exact if_pos rfl

/-- The first loop of `Link`. -/
theorem resolveCalls_spec {h : Heap} (hc : h.Consistent)
    (functionMap : FunctionMap) (m : UnresolvedFunctionCallMap)
    (vs : List VertexPtr) (hvs : ∀ v ∈ vs, v < h.nextVertex) :
    CallsResolved h functionMap m vs
      (vs.foldl (Heap.resolveCall functionMap) ⟨h, m, []⟩) := by
  refine foldl_invariant (Heap.resolveCall functionMap)
    (fun pre s => CallsResolved h functionMap m pre s) vs ⟨h, m, []⟩ ?_
    fun pre v post s hl hs => ?_
  · exact
      { consistent := hc
        edge := rfl
        graph := rfl
        function := rfl
        nextVertex := rfl
        vertex_old := fun _ _ => rfl
        owningFunction := fun _ => rfl
        unresolved := rfl
        firsts := rfl
        seconds := rfl
        statement := fun _ hp => absurd hp List.not_mem_nil }
  have hlt : v < h.nextVertex := hvs v (by simp [hl])
  have hunresolved : h.addUnresolved functionMap m (pre ++ [v]) =
      match (h.vertex v).statement.unresolvedName functionMap with
      | some identifier => s.unresolvedFunctionCalls.insertEntry identifier v
      | none => s.unresolvedFunctionCalls := by
    rw [hs.unresolved, Heap.addUnresolved, List.foldl_append]
    rfl
  unfold Heap.resolveCall
  rw [hs.vertex_old v hlt]
  cases hst : (h.vertex v).statement with
  | functionCallUnresolved identifier params =>
      dsimp only
      cases hmap : functionMap identifier with
      | none =>
          refine hs.skip ?_ ?_
          · rw [hst]
            exact hmap
          · rw [hunresolved, hst, Statement.unresolvedName, if_pos hmap]
      | some f =>
          dsimp only
          exact hs.resolve hst hmap _
  | _ =>
      refine hs.skip ?_ ?_
      · rw [hst]
        rfl
      · rw [hunresolved, hst]
        rfl

/-! ## The second loop, and the run as a whole -/

/-- What `Link` has done to the heap `h` besides drawing edges. -/
structure FunctionLinked (h : Heap) (this : FunctionPtr)
    (functionMap : FunctionMap) (h' : Heap) : Prop where
  statement_old : ∀ v, v < h.nextVertex →
    (h'.vertex v).statement = (h.vertex v).statement
  statement_new : ∀ v, h.nextVertex ≤ v → v < h'.nextVertex →
    ∃ f params, (h'.vertex v).statement = .functionCallResolved f params
  owningFunction : ∀ v,
    (h'.vertex v).owningFunction = (h.vertex v).owningFunction
  function : h'.function = h.function
  nextVertex_le : h.nextVertex ≤ h'.nextVertex
  vertices_of_ne : ∀ g, g ≠ this →
    (h'.graph g).vertices = (h.graph g).vertices
  mem_vertices : ∀ v, v ∈ (h'.graph this).vertices ↔
    (v ∈ (h.graph this).vertices ∧
      (h.vertex v).statement.resolution functionMap = none) ∨
    h.nextVertex ≤ v ∧ v < h'.nextVertex

/-- The heap after the replacements `pre` of the list `info`. -/
structure CallsReplaced (functions : List FunctionPtr) (k : Heap)
    (this : FunctionPtr) (info pre : List (VertexPtr × VertexPtr))
    (home : VertexPtr → FunctionPtr) (h' : Heap) : Prop where
  programFlow : ProgramFlow functions home h'
  callsLinked : CallsLinked functions home h'
  pending : ∀ q ∈ info, q ∉ pre → PendingCall functions home h' this q
  statement : ∀ v, (h'.vertex v).statement = (k.vertex v).statement
  owningFunction : ∀ v,
    (h'.vertex v).owningFunction = (k.vertex v).owningFunction
  function : h'.function = k.function
  nextVertex : h'.nextVertex = k.nextVertex
  vertices_of_ne : ∀ g, g ≠ this →
    (h'.graph g).vertices = (k.graph g).vertices
  mem_vertices : ∀ v, v ∈ (h'.graph this).vertices ↔
    (v ∈ (k.graph this).vertices ∧ v ∉ pre.map Prod.fst) ∨
      v ∈ pre.map Prod.snd

theorem CallsReplaced.replace {functions : List FunctionPtr} {k h' : Heap}
    {this : FunctionPtr} {info pre post : List (VertexPtr × VertexPtr)}
    {p : VertexPtr × VertexPtr} {home : VertexPtr → FunctionPtr}
    (hthis : this ∈ functions) (hinfo : info = pre ++ p :: post)
    (hfirsts : (info.map Prod.fst).Nodup) (hseconds : (info.map Prod.snd).Nodup)
    (hdisjoint : ∀ v, v ∈ info.map Prod.fst → v ∉ info.map Prod.snd)
    (hi : CallsReplaced functions k this info pre home h')
    (outEdges : SetOrder) :
    ∃ h'', h'.replaceCall outEdges this p = .ok h'' ∧
      CallsReplaced functions k this info (pre ++ [p])
        (Function.update home p.2 this) h'' := by
  have hmem : p ∈ info := by simp [hinfo]
  have hpre : p ∉ pre := by
    rw [hinfo, List.map_append, List.map_cons] at hfirsts
    intro hp
    exact (List.nodup_append.mp hfirsts).2.2 p.1 (List.mem_map_of_mem hp) p.1
      List.mem_cons_self rfl
  have hpre1 : p.1 ∉ pre.map Prod.snd := by
    intro hp
    refine hdisjoint p.1 (List.mem_map_of_mem hmem) ?_
    rw [hinfo, List.map_append]
    exact List.mem_append_left _ hp
  obtain ⟨h'', hrun, hp, hlinked, hreplaced, hpending⟩ :=
    hi.programFlow.replaceCall_spec hthis (hi.pending p hmem hpre)
      hi.callsLinked outEdges
  have hne : p.1 ≠ p.2 := fun heq =>
    hdisjoint p.1 (List.mem_map_of_mem hmem)
      (heq ▸ List.mem_map_of_mem (f := Prod.snd) hmem)
  refine ⟨h'', hrun, ?_⟩
  exact
    { programFlow := hp
      callsLinked := hlinked
      pending := fun q hq hnot => by
        rw [List.mem_append, not_or, List.mem_singleton] at hnot
        refine hpending q (fun heq => hnot.2 ?_) (fun heq => hnot.2 ?_)
          (hi.pending q hq hnot.1)
        · exact List.inj_on_of_nodup_map hfirsts hq hmem heq
        · exact List.inj_on_of_nodup_map hseconds hq hmem heq
      statement := fun v => (hreplaced.statement v).trans (hi.statement v)
      owningFunction := fun v =>
        (hreplaced.owningFunction v).trans (hi.owningFunction v)
      function := hreplaced.function.trans hi.function
      nextVertex := hreplaced.nextVertex.trans hi.nextVertex
      vertices_of_ne := fun g hg => by
        rw [hreplaced.vertices, if_neg hg]
        exact hi.vertices_of_ne g hg
      mem_vertices := fun v => by
        rw [hreplaced.vertices, if_pos rfl, Finset.mem_erase, Finset.mem_insert,
          hi.mem_vertices, List.map_append, List.map_append, List.mem_append,
          List.mem_append, List.map_singleton, List.map_singleton,
          List.mem_singleton, List.mem_singleton, not_or]
        have hv1 : v = p.1 → v ∉ pre.map Prod.snd ∧ v ≠ p.2 := fun heq =>
          ⟨heq ▸ hpre1, heq ▸ hne⟩
        tauto }

/-- `Function::Link` on a program in which some functions may be linked
already, with something else that the replacements keep; each of them resolves
a call by its name. -/
theorem ProgramFlow.link_induction {Q : Heap → Prop}
    {functions : List FunctionPtr} {home : VertexPtr → FunctionPtr} {h : Heap}
    (hp : ProgramFlow functions home h) (hlinked : CallsLinked functions home h)
    {this : FunctionPtr} (hthis : this ∈ functions) {functionMap : FunctionMap}
    (hmap : ∀ name f, functionMap name = some f → f ∈ functions)
    (order : IterationOrder) (m : UnresolvedFunctionCallMap)
    (hcongr : ∀ k : Heap, k.edge = h.edge → k.graph = h.graph →
      k.function = h.function → (∀ v, v < h.nextVertex → k.vertex v = h.vertex v) →
        Q k)
    (hreplace : ∀ home' p k k', ProgramFlow functions home' k →
      PendingCall functions home' k this p →
      (∃ identifier f params,
        (k.vertex p.1).statement = .functionCallUnresolved identifier params ∧
          functionMap identifier = some f ∧
            (k.vertex p.2).statement = .functionCallResolved f params) → Q k →
        k.replaceCall order.outEdges this p = .ok k' → Q k') :
    ∃ h' home', h.link order this functionMap m = .ok (h', h.addUnresolved
        functionMap m (order.vertices.enum (h.graph this).vertices)) ∧
      ProgramFlow functions home' h' ∧ CallsLinked functions home' h' ∧
      FunctionLinked h this functionMap h' ∧ Q h' := by
  obtain ⟨vs, hvs⟩ : ∃ vs, vs = order.vertices.enum (h.graph this).vertices :=
    ⟨_, rfl⟩
  have hmem : ∀ v, v ∈ vs ↔ v ∈ (h.graph this).vertices := fun v => by
    rw [hvs]
    exact order.vertices.mem_enum _
  have hlt : ∀ v ∈ vs, v < h.nextVertex := fun v hv =>
    (hp.allocated v (by
      rw [hp.home_eq this hthis v ((hmem v).mp hv)]; exact hthis)).2
  obtain ⟨s, hs⟩ : ∃ s, s = vs.foldl (Heap.resolveCall functionMap) ⟨h, m, []⟩ :=
    ⟨_, rfl⟩
  have hres := resolveCalls_spec hp.consistent functionMap m vs hlt
  rw [← hs] at hres
  have hp' := hp.congr hres.consistent hres.edge hres.graph hres.function
    (hres.nextVertex ▸ Nat.le_add_right _ _) hres.vertex_old
  have hseconds : ∀ v, v ∈ s.vertexReplacementInfo.map Prod.snd ↔
      h.nextVertex ≤ v ∧ v < s.heap.nextVertex := by
    intro v
    rw [hres.seconds, List.mem_range'_1, hres.nextVertex]
  have hfirsts : ∀ v, v ∈ s.vertexReplacementInfo.map Prod.fst ↔
      v ∈ (h.graph this).vertices ∧
        ((h.vertex v).statement.resolution functionMap).isSome = true := by
    intro v
    rw [hres.firsts, List.mem_filter, hmem]
  have hinit : CallsReplaced functions s.heap this s.vertexReplacementInfo []
      home s.heap :=
    { programFlow := hp'
      callsLinked := fun c f params hhome hst => by
        rw [hres.vertex_old c (hp.allocated c hhome).2] at hst
        rw [Heap.isLinkedCall_congr hres.edge]
        exact hlinked c f params hhome hst
      pending := fun q hq _ => by
        obtain ⟨identifier, f, params, hst, hf, hnew⟩ := hres.statement q hq
        have hq1 := (hfirsts q.1).mp (List.mem_map_of_mem hq)
        have hq2 := (hseconds q.2).mp (List.mem_map_of_mem hq)
        have hq1lt := hlt q.1 ((hmem q.1).mpr hq1.1)
        exact
          { mem := by rw [hres.graph]; exact hq1.1
            unresolved := ⟨identifier, params, by
              rw [hres.vertex_old _ hq1lt, hst]⟩
            resolved := ⟨f, params, hmap identifier f hf, hnew⟩
            home_notMem := fun hhome =>
              Nat.not_lt.mpr hq2.1 (hp.allocated _ hhome).2
            ne_null := Nat.ne_of_gt (Nat.lt_of_lt_of_le
              hp.consistent.null_lt_nextVertex hq2.1)
            lt_nextVertex := hq2.2 }
      statement := fun _ => rfl
      owningFunction := fun _ => rfl
      function := rfl
      nextVertex := rfl
      vertices_of_ne := fun _ _ => rfl
      mem_vertices := fun v => by simp }
  obtain ⟨h', hrun, ⟨home', hi⟩, hQ'⟩ := foldlM_invariant
    (Heap.replaceCall order.outEdges this)
    (fun pre k => (∃ home', CallsReplaced functions s.heap this
      s.vertexReplacementInfo pre home' k) ∧ Q k)
    s.vertexReplacementInfo s.heap
    ⟨⟨home, hinit⟩, hcongr s.heap hres.edge hres.graph hres.function hres.vertex_old⟩ (by
      rintro pre p post k hl ⟨⟨home', hi⟩, hQk⟩
      have hpending : PendingCall functions home' k this p := by
        refine hi.pending p (by simp [hl]) fun hmem => ?_
        have hnodup : (s.vertexReplacementInfo.map Prod.fst).Nodup := by
          rw [hres.firsts, hvs]
          exact (order.vertices.nodup_enum _).filter _
        rw [hl, List.map_append, List.map_cons] at hnodup
        exact (List.nodup_append.mp hnodup).2.2 p.1 (List.mem_map_of_mem hmem) p.1
          List.mem_cons_self rfl
      obtain ⟨k', hrun, hi'⟩ := hi.replace hthis hl
        (by
          rw [hres.firsts, hvs]
          exact (order.vertices.nodup_enum _).filter _)
        (by
          rw [hres.seconds]
          exact List.nodup_range')
        (fun v hv hv' => Nat.not_lt.mpr ((hseconds v).mp hv').1
          (hlt v ((hmem v).mpr ((hfirsts v).mp hv).1)))
        order.outEdges
      have hp : p ∈ s.vertexReplacementInfo := by simp [hl]
      obtain ⟨identifier, f, params, hst, hf, hnew⟩ := hres.statement p hp
      have hfirst := (hmem p.1).mpr ((hfirsts p.1).mp (List.mem_map_of_mem hp)).1
      have hname : (k.vertex p.1).statement =
          .functionCallUnresolved identifier params := by
        rw [hi.statement, hres.vertex_old _ (hlt _ hfirst), hst]
      exact ⟨k', hrun, ⟨_, hi'⟩, hreplace home' p k k' hi.programFlow hpending
        ⟨identifier, f, params, hname, hf, (hi.statement p.2).trans hnew⟩ hQk hrun⟩)
  refine ⟨h', home', ?_, hi.programFlow, hi.callsLinked, ?_, hQ'⟩
  · unfold Heap.link
    simp only [hp.theCfg this hthis, ← hvs, ← hs, bind, Except.bind, pure,
      Except.pure]
    rw [hrun, hres.unresolved]
  · exact
      { statement_old := fun v hv => by
          rw [hi.statement, hres.vertex_old v hv]
        statement_new := fun v hle hv => by
          rw [hi.nextVertex] at hv
          obtain ⟨p, hpmem, rfl⟩ := List.mem_map.mp ((hseconds v).mpr ⟨hle, hv⟩)
          obtain ⟨_, f, params, _, _, hst⟩ := hres.statement p hpmem
          exact ⟨f, params, by rw [hi.statement, hst]⟩
        owningFunction := fun v =>
          (hi.owningFunction v).trans (hres.owningFunction v)
        function := hi.function.trans hres.function
        nextVertex_le := by
          rw [hi.nextVertex, hres.nextVertex]
          exact Nat.le_add_right _ _
        vertices_of_ne := fun g hg => by
          rw [hi.vertices_of_ne g hg, hres.graph]
        mem_vertices := fun v => by
          rw [hi.mem_vertices, hfirsts, hseconds, hres.graph, hi.nextVertex]
          refine or_congr_left (and_congr_right fun hv => ?_)
          simp [hv] }

/-- The same without the names of the calls. -/
theorem ProgramFlow.link_invariant {Q : Heap → Prop}
    {functions : List FunctionPtr} {home : VertexPtr → FunctionPtr} {h : Heap}
    (hp : ProgramFlow functions home h) (hlinked : CallsLinked functions home h)
    {this : FunctionPtr} (hthis : this ∈ functions) {functionMap : FunctionMap}
    (hmap : ∀ name f, functionMap name = some f → f ∈ functions)
    (order : IterationOrder) (m : UnresolvedFunctionCallMap)
    (hcongr : ∀ k : Heap, k.edge = h.edge → k.graph = h.graph →
      k.function = h.function → (∀ v, v < h.nextVertex → k.vertex v = h.vertex v) →
        Q k)
    (hreplace : ∀ home' p k k', ProgramFlow functions home' k →
      PendingCall functions home' k this p → Q k →
        k.replaceCall order.outEdges this p = .ok k' → Q k') :
    ∃ h' home', h.link order this functionMap m = .ok (h', h.addUnresolved
        functionMap m (order.vertices.enum (h.graph this).vertices)) ∧
      ProgramFlow functions home' h' ∧ CallsLinked functions home' h' ∧
      FunctionLinked h this functionMap h' ∧ Q h' :=
  hp.link_induction hlinked hthis hmap order m hcongr
    fun home' p k k' hk hcall _ hQ hrun => hreplace home' p k k' hk hcall hQ hrun

/-- `Function::Link` on a program in which some functions may be linked
already. -/
theorem ProgramFlow.link_spec {functions : List FunctionPtr}
    {home : VertexPtr → FunctionPtr} {h : Heap}
    (hp : ProgramFlow functions home h) (hlinked : CallsLinked functions home h)
    {this : FunctionPtr} (hthis : this ∈ functions) {functionMap : FunctionMap}
    (hmap : ∀ name f, functionMap name = some f → f ∈ functions)
    (order : IterationOrder) (m : UnresolvedFunctionCallMap) :
    ∃ h' home', h.link order this functionMap m = .ok (h', h.addUnresolved
        functionMap m (order.vertices.enum (h.graph this).vertices)) ∧
      ProgramFlow functions home' h' ∧ CallsLinked functions home' h' ∧
      FunctionLinked h this functionMap h' := by
  obtain ⟨h', home', hrun, hp', hlinked', hfun, _⟩ :=
    hp.link_invariant (Q := fun _ => True) hlinked hthis hmap order m
      (fun _ _ _ _ _ => trivial) fun _ _ _ _ _ _ _ _ => trivial
  exact ⟨h', home', hrun, hp', hlinked', hfun⟩

end CoFlo.Ports
