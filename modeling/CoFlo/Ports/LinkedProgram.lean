import CoFlo.Ports.LinkCalls

/-!
# Programs that have been parsed

The invariant `ProgramFlow` over whole runs of `Program::Parse`: it holds of
the empty program, building a function keeps it (`ProgramFlow.built`), and so
does linking one (`ProgramFlow.link_spec`), whatever the order in which the
functions are linked.  A program that is linked in some order is a
`LinkedProgram`.
-/

namespace CoFlo.Ports

open CoFlo.Verified.FoldInvariant

/-! ## Building one more function -/

section built

open Classical in
/-- `home` after the function `this` has been built with the vertices `N`. -/
noncomputable def homeWith (functions : List FunctionPtr)
    (home : VertexPtr → FunctionPtr) (this : FunctionPtr) (N : Set VertexPtr)
    (v : VertexPtr) : FunctionPtr :=
  if v ∈ N then this else if home v ∈ functions then home v else null

variable {functions : List FunctionPtr} {home : VertexPtr → FunctionPtr}
  {h : Heap} (hp : ProgramFlow functions home h) {this : FunctionPtr}
  {N : Set VertexPtr}

theorem homeWith_of_mem {v : VertexPtr} (hv : v ∈ N) :
    homeWith functions home this N v = this := if_pos hv

include hp

theorem ProgramFlow.homeWith_of_home (hN : ∀ v ∈ N, h.nextVertex ≤ v)
    {v : VertexPtr} (hv : home v ∈ functions) :
    v ∉ N ∧ homeWith functions home this N v = home v := by
  have hnot : v ∉ N := fun hmem =>
    Nat.not_lt.mpr (hN v hmem) (hp.allocated v hv).2
  exact ⟨hnot, (if_neg hnot).trans (if_pos hv)⟩

/-- The homes in the larger program. -/
theorem ProgramFlow.homeWith_mem (hthis : this ≠ null) {v : VertexPtr}
    (hv : homeWith functions home this N v ∈ functions ++ [this]) :
    v ∈ N ∨ home v ∈ functions := by
  by_cases hmem : v ∈ N
  · exact .inl hmem
  · refine .inr ?_
    unfold homeWith at hv
    rw [if_neg hmem] at hv
    split_ifs at hv with hhome
    · exact hhome
    · rcases List.mem_append.mp hv with hv | hv
      · exact absurd hv hp.null_notMem
      · exact absurd (List.mem_singleton.mp hv).symm hthis

end built

/-- What the statements and the `Function` object of one more function are on
the heap `h` before `CreateControlFlowGraph` is called. -/
structure FunctionAllocated (h : Heap) (this : FunctionPtr)
    (l : List VertexPtr) (k : Heap) : Prop where
  edge : k.edge = h.edge
  nextEdge : k.nextEdge = h.nextEdge
  graph : ∀ i, i ≠ this → k.graph i = h.graph i
  vertexIdState : (k.graph this).vertexIdState = 0
  function : ∀ p, p ≠ this → k.function p = h.function p
  theCfg : (k.function this).theCfg = this
  nextVertex_le : h.nextVertex ≤ k.nextVertex
  vertex_old : ∀ v, v < h.nextVertex → k.vertex v = h.vertex v
  list_le : ∀ v ∈ l, h.nextVertex ≤ v
  list_lt : ∀ v ∈ l, v < k.nextVertex

section built

variable {functions : List FunctionPtr} {home : VertexPtr → FunctionPtr}
  {h k h' : Heap} (hp : ProgramFlow functions home h) {this : FunctionPtr}
  (hthis : this ≠ null) (hnew : this ∉ functions) {l : List VertexPtr}
  {N : Set VertexPtr} (hk : FunctionAllocated h this l k)
  (hb : BuiltFunction k this l N h')

include hk hb

theorem BuiltFunction.le_of_mem : ∀ v ∈ N, h.nextVertex ≤ v := by
  intro v hv
  rcases hb.statement v hv with ⟨rfl, _⟩ | ⟨rfl, _⟩ | ⟨hmem, _⟩ | ⟨hle, _⟩
  · exact hk.nextVertex_le
  · exact Nat.le_succ_of_le hk.nextVertex_le
  · exact hk.list_le v hmem
  · exact Nat.le_trans (Nat.le_add_right_of_le hk.nextVertex_le) hle

include hp

/-- An edge of the larger program is an old one, or it is in the new graph. -/
theorem BuiltFunction.edge_cases (e : EdgePtr)
    (he : (h'.edge e).source ≠ null) :
    (h'.edge e = h.edge e ∧ home (h.edge e).source ∈ functions ∧
      home (h.edge e).target ∈ functions) ∨
    (h.nextEdge ≤ e ∧ (h'.edge e).source ∈ N ∧ (h'.edge e).target ∈ N ∧
      (h'.edge e).edgeType.isIntraprocedural = true) := by
  rcases Nat.lt_or_ge e k.nextEdge with hlt | hge
  · left
    have hedge : h'.edge e = h.edge e := by rw [hb.edge_old e hlt, hk.edge]
    rw [hedge] at he
    exact ⟨hedge, hp.home_source e he, hp.home_target e he⟩
  · right
    have hmem := hb.edge_new e hge he
    exact ⟨hk.nextEdge ▸ hge, (hb.encloses.mem_edges_source e).mp hmem,
      (hb.encloses.mem_edges_target e).mp hmem, hb.edgeType e hmem⟩

/-- The edges of the old program are still there. -/
theorem BuiltFunction.edge_eq (e : EdgePtr) (he : (h.edge e).source ≠ null) :
    h'.edge e = h.edge e := by
  rw [hb.edge_old e (hk.nextEdge ▸ hp.consistent.lt_nextEdge he), hk.edge]

/-- The out-edges of the old vertices are the ones they had. -/
theorem BuiltFunction.source_eq_iff {v : VertexPtr}
    (hv : home v ∈ functions) (e : EdgePtr) :
    (h'.edge e).source = v ↔ (h.edge e).source = v := by
  have hv0 := (hp.allocated v hv).1
  constructor
  · intro heq
    rcases hb.edge_cases hp hk e (heq ▸ hv0) with ⟨hedge, _⟩ | ⟨_, hmem, _⟩
    · exact hedge ▸ heq
    · rw [heq] at hmem
      have hhome : v ∉ N ∧ homeWith functions home this N v = home v :=
        hp.homeWith_of_home (hb.le_of_mem hk) hv
      exact absurd hmem hhome.1
  · intro heq
    rw [hb.edge_eq hp hk e (heq ▸ hv0)]
    exact heq

theorem BuiltFunction.fallsThrough_old {v : VertexPtr} {d : EdgePtr}
    (hv : home v ∈ functions) (hd : h.FallsThrough v d) :
    h'.FallsThrough v d := by
  intro e
  rw [← hd e, hb.source_eq_iff hp hk hv]
  refine and_congr_right fun heq => ?_
  rw [hb.edge_eq hp hk e (heq ▸ (hp.allocated v hv).1)]

include hthis hnew

/-- Building a function keeps the flow of the program. -/
theorem ProgramFlow.built : ProgramFlow (functions ++ [this])
    (homeWith functions home this N) h' := by
  have hle := hb.le_of_mem hk
  have hof : ∀ v, home v ∈ functions →
      v ∉ N ∧ homeWith functions home this N v = home v := fun v hv =>
    hp.homeWith_of_home hle hv
  have hmemOf : ∀ v, homeWith functions home this N v ∈ functions ++ [this] →
      v ∈ N ∨ home v ∈ functions := fun v hv => hp.homeWith_mem hthis hv
  have hinN : ∀ v ∈ N, homeWith functions home this N v = this :=
    fun v hv => homeWith_of_mem hv
  have hcases : ∀ p, p ∈ functions ++ [this] → p ∈ functions ∨ p = this := by
    intro p hmem
    rcases List.mem_append.mp hmem with hmem | hmem
    · exact .inl hmem
    · exact .inr (List.mem_singleton.mp hmem)
  have hold : ∀ p, p ∈ functions → p ∈ functions ++ [this] := fun p hmem =>
    List.mem_append_left _ hmem
  have hthisMem : this ∈ functions ++ [this] := by simp
  have hne : ∀ p ∈ functions, p ≠ this := fun p hmem heq => hnew (heq ▸ hmem)
  obtain ⟨entrySelf, exitSelf, hfunction, hself, henter⟩ := hb.function
  have hfunOld : ∀ p ∈ functions, h'.function p = h.function p := by
    intro p hmem
    rw [hfunction, Function.update_of_ne (hne p hmem), hk.function p (hne p hmem)]
  have hentryThis : (h'.function this).entryVertexDesc = k.entryPtr := by
    rw [hfunction, Function.update_self]
  have hexitThis : (h'.function this).exitVertexDesc = k.exitPtr := by
    rw [hfunction, Function.update_self]
  have hselfThis : (h'.function this).entryVertexSelfEdge = entrySelf := by
    rw [hfunction, Function.update_self]
  have hgraphOld : ∀ p ∈ functions, h'.graph p = h.graph p := by
    intro p hmem
    rw [hb.graph_old p (by rw [hk.theCfg]; exact hne p hmem),
      hk.graph p (hne p hmem)]
  have hstOld : ∀ v, home v ∈ functions →
      (h'.vertex v).statement = (h.vertex v).statement := by
    intro v hv
    have hlt := (hp.allocated v hv).2
    rw [hb.statement_old v (Nat.lt_of_lt_of_le hlt hk.nextVertex_le),
      hk.vertex_old v hlt]
  have hindexOld : ∀ v, home v ∈ functions →
      (h'.vertex v).vertexIndex = (h.vertex v).vertexIndex := by
    intro v hv
    have hlt := (hp.allocated v hv).2
    rw [hb.vertexIndex_old v (Nat.lt_of_lt_of_le hlt hk.nextVertex_le)
      fun hmem => Nat.not_lt.mpr (hk.list_le v hmem) hlt, hk.vertex_old v hlt]
  have hnullN : null ∉ N := hb.consistent.null_notMem hb.encloses
  have hvertexN := hb.vertices
  rw [hk.theCfg] at hvertexN
  have hmemEntry := hb.entry_mem
  have hmemExit := hb.exit_mem
  rw [hk.theCfg] at hmemEntry hmemExit
  have hentryIff := fun v hv => (hb.statement_iff hk.list_lt v hv).1
  have hexitIff := fun v hv => (hb.statement_iff hk.list_lt v hv).2
  have hresolvedN : ∀ v ∈ N, ∀ f params,
      (h'.vertex v).statement ≠ .functionCallResolved f params :=
    fun v hv => hb.not_resolved v hv
  exact
    { consistent := hb.consistent
      null_notMem := by
        intro hmem
        rcases hcases _ hmem with hmem | heq
        · exact hp.null_notMem hmem
        · exact hthis heq.symm
      theCfg := fun p hmem => by
        rcases hcases p hmem with hmem | rfl
        · rw [hfunOld p hmem]
          exact hp.theCfg p hmem
        · rw [hfunction, Function.update_self]
          exact hk.theCfg
      allocated := fun v hv => by
        rcases hmemOf v hv with hmem | hhome
        · exact ⟨fun heq => hnullN (heq ▸ hmem), hb.lt_nextVertex v hmem⟩
        · refine ⟨(hp.allocated v hhome).1, Nat.lt_of_lt_of_le
            (hp.allocated v hhome).2 (Nat.le_trans hk.nextVertex_le ?_)⟩
          exact Nat.le_trans (Nat.le_add_right _ 2) hb.nextVertex_le
      home_eq := fun p hmem v hv => by
        rcases hcases p hmem with hmem | rfl
        · rw [hgraphOld p hmem] at hv
          have hhome := hp.home_eq p hmem v hv
          rw [(hof v (by rw [hhome]; exact hmem)).2, hhome]
        · exact hinN v (hvertexN v hv)
      home_source := fun e he => by
        rcases hb.edge_cases hp hk e he with ⟨hedge, hs, _⟩ | ⟨_, hs, _⟩
        · rw [hedge, (hof _ hs).2]
          exact hold _ hs
        · rw [hinN _ hs]
          exact hthisMem
      home_target := fun e he => by
        rcases hb.edge_cases hp hk e he with ⟨hedge, _, ht⟩ | ⟨_, _, ht, _⟩
        · rw [hedge, (hof _ ht).2]
          exact hold _ ht
        · rw [hinN _ ht]
          exact hthisMem
      mem_edges := fun p hmem e => by
        rcases hcases p hmem with hmem | rfl
        · rw [hgraphOld p hmem, hp.mem_edges p hmem e]
          constructor
          · rintro ⟨he, hs⟩
            have hs' : home (h.edge e).source ∈ functions := hs ▸ hmem
            rw [hb.edge_eq hp hk e he, (hof _ hs').2]
            exact ⟨he, hs⟩
          · rintro ⟨he, hs⟩
            rcases hb.edge_cases hp hk e he with ⟨hedge, hs', _⟩ | ⟨_, hs', _⟩
            · rw [hedge, (hof _ hs').2] at hs
              rw [hedge] at he
              exact ⟨he, hs⟩
            · rw [hinN _ hs'] at hs
              exact absurd hmem (hs ▸ hnew)
        · have hiff := hb.encloses.mem_edges_source e
          rw [hk.theCfg] at hiff
          rw [hiff]
          constructor
          · intro hs
            exact ⟨fun heq => hnullN (heq ▸ hs), hinN _ hs⟩
          · rintro ⟨he, hs⟩
            rcases hb.edge_cases hp hk e he with ⟨hedge, hs', _⟩ | ⟨_, hs', _⟩
            · rw [hedge, (hof _ hs').2] at hs
              exact absurd (hs ▸ hs') hnew
            · exact hs'
      entry_mem := fun p hmem => by
        rcases hcases p hmem with hmem | rfl
        · rw [hgraphOld p hmem, hfunOld p hmem]
          exact hp.entry_mem p hmem
        · rw [hentryThis]
          exact hmemEntry
      exit_mem := fun p hmem => by
        rcases hcases p hmem with hmem | rfl
        · rw [hgraphOld p hmem, hfunOld p hmem]
          exact hp.exit_mem p hmem
        · rw [hexitThis]
          exact hmemExit
      statement_entry := fun v hv => by
        rcases hmemOf v hv with hmem | hhome
        · rw [hinN v hmem, hentryThis]
          exact hentryIff v hmem
        · rw [(hof v hhome).2, hstOld v hhome, hfunOld _ hhome]
          exact hp.statement_entry v hhome
      statement_exit := fun v hv => by
        rcases hmemOf v hv with hmem | hhome
        · rw [hinN v hmem, hexitThis]
          exact hexitIff v hmem
        · rw [(hof v hhome).2, hstOld v hhome, hfunOld _ hhome]
          exact hp.statement_exit v hhome
      resolved := fun v f params hv hst => by
        rcases hmemOf v hv with hmem | hhome
        · exact absurd hst (hresolvedN v hmem f params)
        · rw [hstOld v hhome] at hst
          obtain ⟨hf, hmem⟩ := hp.resolved v f params hhome hst
          rw [(hof v hhome).2, hgraphOld _ hhome]
          exact ⟨hold f hf, hmem⟩
      fallsThrough := fun p hmem v hv hst => by
        rcases hcases p hmem with hmem | rfl
        · rw [hgraphOld p hmem] at hv
          have hhome : home v ∈ functions := by
            rw [hp.home_eq p hmem v hv]
            exact hmem
          rw [hstOld v hhome] at hst
          obtain ⟨d, hd⟩ := hp.fallsThrough p hmem v hv hst
          exact ⟨d, hb.fallsThrough_old hp hk hhome hd⟩
        · cases hcall : (h'.vertex v).statement with
          | functionCallUnresolved identifier params =>
              refine hb.fallthrough v ?_ identifier params hcall
              rw [hk.theCfg]
              exact hv
          | functionCallResolved f params =>
              exact absurd hcall (hresolvedN v (hvertexN v hv) f params)
          | _ =>
              rw [hcall] at hst
              exact Bool.noConfusion hst
      edgeType := fun e he => by
        rcases hb.edge_cases hp hk e he with ⟨hedge, _⟩ | ⟨_, _, _, htype⟩
        · rw [hedge] at he ⊢
          exact hp.edgeType e he
        · exact .inl htype
      home_eq_home := fun e he htype => by
        rcases hb.edge_cases hp hk e he with ⟨hedge, hs, ht⟩ | ⟨_, hs, ht, _⟩
        · rw [hedge] at he htype ⊢
          rw [(hof _ hs).2, (hof _ ht).2]
          exact hp.home_eq_home e he htype
        · rw [hinN _ hs, hinN _ ht]
      enter := fun e he htype hentry => by
        rcases hb.edge_cases hp hk e he with ⟨hedge, hs, ht⟩ | ⟨_, hs, ht, _⟩
        · rw [hedge] at he htype hentry ⊢
          rw [(hof _ hs).2, hfunOld _ hs] at hentry ⊢
          exact hp.enter e he htype hentry
        · rw [hinN _ hs, hentryThis] at hentry
          rw [hinN _ hs, hselfThis]
          exact (henter e).mp hentry
      leave := fun e he htype hexit => by
        rcases hb.edge_cases hp hk e he with ⟨hedge, hs, ht⟩ | ⟨_, hs, ht, _⟩
        · rw [hedge] at he htype hexit ⊢
          rw [(hof _ hs).2, hfunOld _ hs] at hexit
          exact hp.leave e he htype hexit
        · rw [hinN _ hs, hexitThis] at hexit
          obtain ⟨hloop, hback⟩ := hb.leave e hexit
          exact ⟨hloop.trans hexit.symm, hback⟩
      callEdge := fun e c g he htype => by
        rcases hb.edge_cases hp hk e he with ⟨hedge, hs, _⟩ | ⟨_, _, _, hintra⟩
        · rw [hedge] at he htype ⊢
          obtain ⟨hsc, hback, params, hst, htarget⟩ := hp.callEdge e c g he htype
          have hc : home c ∈ functions := hsc ▸ hs
          have hg := (hp.resolved c g params hc hst).1
          rw [hstOld c hc, hfunOld g hg]
          exact ⟨hsc, hback, params, hst, htarget⟩
        · rw [htype] at hintra
          exact Bool.noConfusion hintra
      returnEdge := fun e c he htype => by
        rcases hb.edge_cases hp hk e he with ⟨hedge, hs, _⟩ | ⟨_, _, _, hintra⟩
        · rw [hedge] at he htype ⊢
          obtain ⟨hc, hback, f, params, d, hst, hsource, hd, htarget⟩ :=
            hp.returnEdge e c he htype
          have hf := (hp.resolved c f params hc hst).1
          have hd0 : (h.edge d).source ≠ null := by
            rw [((hd d).mpr rfl).1]
            exact (hp.allocated c hc).1
          rw [(hof c hc).2, hstOld c hc]
          refine ⟨hold _ hc, hback, f, params, d, hst, ?_,
            hb.fallsThrough_old hp hk hc hd, ?_⟩
          · rw [hfunOld f hf]
            exact hsource
          · rw [hb.edge_eq hp hk d hd0]
            exact htarget
        · rw [htype] at hintra
          exact Bool.noConfusion hintra
      entrySelf := fun p hmem => by
        rcases hcases p hmem with hmem | rfl
        · have hedge := hp.entrySelf p hmem
          rw [hfunOld p hmem, hb.edge_eq hp hk _ (by
            rw [hedge]; exact hp.entry_ne_null hmem)]
          exact hedge
        · rw [hselfThis, hentryThis]
          exact hself
      indexed := fun p hmem => by
        rcases hcases p hmem with hmem | rfl
        · have hindexed : h'.Indexed p {v | home v = p} := by
            apply (hp.indexed p hmem).congr
            · intro v hv
              exact hindexOld v ((show home v = p from hv) ▸ hmem)
            · rw [hgraphOld p hmem]
          refine hindexed.subset fun v hv => ?_
          have hv' : homeWith functions home this N v = p := hv
          rcases hmemOf v (hv' ▸ hold p hmem) with hN | hhome
          · rw [hinN v hN] at hv'
            exact absurd hmem (hv' ▸ hnew)
          · rw [(hof v hhome).2] at hv'
            exact hv'
        · have hindexed := hb.indexed
          rw [hk.theCfg] at hindexed
          refine hindexed.subset fun v hv => ?_
          have hv' : homeWith functions home p N v = p := hv
          rcases hmemOf v (by rw [hv']; exact hthisMem) with hN | hhome
          · exact hN
          · rw [(hof v hhome).2] at hv'
            exact absurd (hv' ▸ hhome) hnew
      entryIndex := fun p hmem => by
        rcases hcases p hmem with hmem | rfl
        · rw [hfunOld p hmem, hindexOld _ (by
            rw [hp.home_entry hmem]; exact hmem)]
          exact hp.entryIndex p hmem
        · rw [hentryThis, hb.entryIndex, hk.theCfg, hk.vertexIdState]
      exitIndex := fun p hmem => by
        rcases hcases p hmem with hmem | rfl
        · rw [hfunOld p hmem, hindexOld _ (by
            rw [hp.home_exit hmem]; exact hmem)]
          exact hp.exitIndex p hmem
        · rw [hexitThis, hb.exitIndex, hk.theCfg, hk.vertexIdState] }

end built

/-! ## Whole programs -/

theorem functionAllocated (h : Heap) (this : FunctionPtr) (identifier
    definitionFilePath : String) (sts : List (Statement × Location)) :
    FunctionAllocated h this (h.newStatements sts).1
      ((h.newStatements sts).2.newFunction this identifier
        definitionFilePath) := by
  obtain ⟨hedge, hgraph, hfunction, hnextEdge⟩ := h.newStatements_frame sts
  have hnext := h.newStatements_nextVertex sts
  have hmem : ∀ v ∈ (h.newStatements sts).1,
      h.nextVertex ≤ v ∧ v < h.nextVertex + sts.length := by
    intro v hv
    rw [Heap.newStatements_fst, List.mem_range'_1] at hv
    exact hv
  exact
    { edge := hedge
      nextEdge := hnextEdge
      graph := fun i hi => by
        rw [Heap.newFunction, Heap.modifyGraph_graph, if_neg hi,
          Heap.modifyFunction_graph, hgraph]
      vertexIdState := by
        rw [Heap.newFunction, Heap.modifyGraph_graph, if_pos rfl]
      function := fun p hp => by
        rw [Heap.newFunction, Heap.modifyGraph_function,
          Heap.modifyFunction_function, if_neg hp, hfunction]
      theCfg := by
        rw [Heap.newFunction, Heap.modifyGraph_function,
          Heap.modifyFunction_function, if_pos rfl]
      nextVertex_le := by
        show h.nextVertex ≤ (h.newStatements sts).2.nextVertex
        rw [hnext]
        exact Nat.le_add_right _ _
      vertex_old := fun v hv => h.newStatements_statement_of_lt sts hv
      list_le := fun v hv => (hmem v hv).1
      list_lt := fun v hv => by
        show v < (h.newStatements sts).2.nextVertex
        rw [hnext]
        exact (hmem v hv).2 }

namespace Program

/-- What one round of the building loop has done, when it goes through. -/
theorem buildFunction_eq_ok {orders : PassOrders} {p p' : Program} {fi : FunctionInfo}
    (hc : p.heap.Consistent)
    (hfi : ∀ st ∈ fi.statementList, st.1.isParsed = true)
    (hrun : buildFunction orders p fi = .ok p') :
    ∃ (this : FunctionPtr) (k h' : Heap) (l : List VertexPtr),
      this = p.functions.length + 1 ∧ FunctionAllocated p.heap this l k ∧
        k.Fresh this l ∧ (∀ v ∈ l, (k.vertex v).statement.isParsed = true) ∧
        (∀ v, (k.vertex v).owningFunction = (p.heap.vertex v).owningFunction) ∧
        k.createControlFlowGraph (orders.fixup this) (orders.removal this) this l =
          .ok h' ∧
        p' = { p with
          heap := h'
          functions := p.functions ++ [this]
          functionMap := Function.update p.functionMap fi.identifier (some this) } := by
  obtain ⟨this, hthis⟩ : ∃ this, this = p.functions.length + 1 := ⟨_, rfl⟩
  have hk := functionAllocated p.heap this fi.identifier fi.definitionFilePath
    fi.statementList
  have hfresh := Heap.fresh_newFunction hc this fi.identifier fi.definitionFilePath
    fi.statementList
  obtain ⟨k, hkeq⟩ : ∃ k, k = (p.heap.newStatements fi.statementList).2.newFunction
      this fi.identifier fi.definitionFilePath := ⟨_, rfl⟩
  obtain ⟨l, hl⟩ : ∃ l, l = (p.heap.newStatements fi.statementList).1 :=
    ⟨_, rfl⟩
  rw [← hkeq, ← hl] at hk hfresh
  have hparsed : ∀ v ∈ l, (k.vertex v).statement.isParsed = true := by
    intro v hv
    have hmem := List.mem_map_of_mem
      (f := fun v => ((p.heap.newStatements fi.statementList).2.vertex v).statement)
      (hl ▸ hv)
    rw [Heap.statements_newStatements] at hmem
    obtain ⟨st, hst, heq⟩ := List.mem_map.mp hmem
    have hvertex : k.vertex v =
        (p.heap.newStatements fi.statementList).2.vertex v := by rw [hkeq]; rfl
    rw [hvertex, ← heq]
    exact hfi st hst
  have howner : ∀ v, (k.vertex v).owningFunction =
      (p.heap.vertex v).owningFunction := by
    intro v
    rw [hkeq]
    exact p.heap.newStatements_owningFunction _ v
  unfold Program.buildFunction at hrun
  simp only [← hthis, ← hl, ← hkeq, bind, Except.bind, pure, Except.pure]
    at hrun
  cases hcreate : k.createControlFlowGraph (orders.fixup this)
      (orders.removal this) this l with
  | error err =>
      rw [hcreate] at hrun
      exact absurd hrun (by simp)
  | ok h' =>
      rw [hcreate] at hrun
      exact ⟨this, k, h', l, hthis, hk, hfresh, hparsed, howner, hcreate,
        (Except.ok.inj hrun).symm⟩

/-- What holds of a program while it is parsed; `memory` is what the vertex
objects held before their constructors ran. -/
structure Invariant (memory : VertexPtr → Vertex) (p : Program) : Prop where
  functions_eq : p.functions = List.range' 1 p.functions.length
  functionMap_mem : ∀ name f, p.functionMap name = some f → f ∈ p.functions
  flow : ∃ home, ProgramFlow p.functions home p.heap ∧
    CallsLinked p.functions home p.heap
  owner : ∀ f ∈ p.functions, ∀ v ∈ (p.heap.graph f).vertices,
    (p.heap.vertex v).owningFunction =
      if (p.heap.vertex v).statement.isConstructedByLinking then
        (memory v).owningFunction
      else f
  unallocated : ∀ v, p.heap.nextVertex ≤ v →
    (p.heap.vertex v).owningFunction = (memory v).owningFunction

theorem Invariant.initial (memory : VertexPtr → Vertex) :
    (initial memory).Invariant memory where
  functions_eq := rfl
  functionMap_mem _ _ hname := absurd hname (by simp [Program.initial])
  flow := ⟨_, .blank memory, fun _ _ _ hhome => absurd hhome List.not_mem_nil⟩
  owner _ hf := absurd hf List.not_mem_nil
  unallocated _ _ := rfl

namespace Invariant

variable {memory : VertexPtr → Vertex} {p : Program}
  (hp : p.Invariant memory)

include hp

theorem mem_functions (f : FunctionPtr) :
    f ∈ p.functions ↔ 1 ≤ f ∧ f < 1 + p.functions.length := by
  rw [hp.functions_eq, List.mem_range'_1, List.length_range']

theorem lt_nextVertex {f : FunctionPtr} (hf : f ∈ p.functions) {v : VertexPtr}
    (hv : v ∈ (p.heap.graph f).vertices) : v < p.heap.nextVertex := by
  obtain ⟨home, hflow, _⟩ := hp.flow
  have hhome := hflow.home_eq f hf v hv
  exact (hflow.allocated v (by rw [hhome]; exact hf)).2

/-- One more function. -/
theorem buildFunction {orders : PassOrders} {fi : FunctionInfo} {p' : Program}
    (hfi : ∀ st ∈ fi.statementList, st.1.isParsed = true)
    (hrun : buildFunction orders p fi = .ok p') : p'.Invariant memory := by
  obtain ⟨home, hflow, hlinked⟩ := hp.flow
  obtain ⟨this, k, h', l, hthis, hk, hfresh, hparsed, howner, hcreate, rfl⟩ :=
    buildFunction_eq_ok hflow.consistent hfi hrun
  obtain ⟨N, hb⟩ := createControlFlowGraph_built hfresh hparsed hcreate
  have hthis0 : this ≠ null := by
    rw [hthis]
    exact Nat.succ_ne_zero _
  have hnew : this ∉ p.functions := by
    rw [hp.mem_functions, hthis, Nat.add_comm 1]
    exact fun hmem => Nat.lt_irrefl _ hmem.2
  have hnext : p.heap.nextVertex ≤ h'.nextVertex :=
    Nat.le_trans hk.nextVertex_le
      (Nat.le_trans (Nat.le_add_right _ 2) hb.nextVertex_le)
  have hflow' := hflow.built hthis0 hnew hk hb
  have hnotOriginals : ∀ v, h'.nextVertex ≤ v ∨ v < p.heap.nextVertex →
      v ∉ k.originals l := by
    intro v hv hmem
    have hlt := hfresh.lt_of_mem_originals hmem
    rcases hv with hv | hv
    · exact Nat.not_lt.mpr (Nat.le_trans hb.nextVertex_le hv) hlt
    · rcases Heap.mem_originals.mp hmem with rfl | rfl | hmem
      · exact Nat.not_lt.mpr hk.nextVertex_le hv
      · exact Nat.not_lt.mpr (Nat.le_succ_of_le hk.nextVertex_le) hv
      · exact Nat.not_lt.mpr (hk.list_le v hmem) hv
  exact
    { functions_eq := by
        show p.functions ++ [this] = _
        rw [List.length_append, List.length_singleton, List.range'_concat,
          ← hp.functions_eq, hthis, Nat.one_mul, Nat.add_comm 1]
      functionMap_mem := fun name f hname => by
        show f ∈ p.functions ++ [this]
        have hname' : Function.update p.functionMap fi.identifier (some this)
            name = some f := hname
        by_cases heq : name = fi.identifier
        · rw [heq, Function.update_self] at hname'
          exact List.mem_append_right _
            (List.mem_singleton.mpr (Option.some.inj hname').symm)
        · rw [Function.update_of_ne heq] at hname'
          exact List.mem_append_left _ (hp.functionMap_mem name f hname')
      flow := by
        refine ⟨_, hflow', fun c f params hhome hst => ?_⟩
        rcases hflow.homeWith_mem hthis0 hhome with hmem | hhome
        · exact absurd hst (hb.not_resolved c hmem f params)
        · have hc := hflow.allocated c hhome
          have hst' : (h'.vertex c).statement = .functionCallResolved f params :=
            hst
          rw [hb.statement_old c (Nat.lt_of_lt_of_le hc.2 hk.nextVertex_le),
            hk.vertex_old c hc.2] at hst'
          refine (hlinked c f params hhome hst').of_edges hc.1
            (fun e he => ?_) fun e he => ?_
          · have hedge := hb.edge_eq hflow hk e he
            exact ⟨fun heq => he (hedge ▸ heq),
              by rw [show (h'.edge e).source = c ↔ _ from
                hb.source_eq_iff hflow hk hhome e], by rw [hedge]⟩
          · refine ⟨fun heq => ?_, fun hattached htype => ?_⟩
            · have hsource := (hb.source_eq_iff hflow hk hhome e).mp heq
              exact hc.1 (hsource.symm.trans he)
            · rcases hb.edge_cases hflow hk e hattached with
                ⟨hedge, _⟩ | ⟨_, _, _, hintra⟩
              · exact hattached (hedge ▸ he)
              · rw [show (h'.edge e).edgeType = _ from htype] at hintra
                exact Bool.noConfusion hintra
      owner := fun f hf v hv => by
        show (h'.vertex v).owningFunction = _
        rcases List.mem_append.mp hf with hf | hf
        · have hne : f ≠ this := fun heq => hnew (heq ▸ hf)
          have hgraph : h'.graph f = p.heap.graph f := by
            rw [hb.graph_old f (by rw [hk.theCfg]; exact hne), hk.graph f hne]
          have hv' : v ∈ (p.heap.graph f).vertices := hgraph ▸ hv
          have hlt := (hflow.allocated v (by
            rw [hflow.home_eq f hf v hv']; exact hf)).2
          rw [hb.owner_notMem v (hnotOriginals v (.inr hlt)), howner]
          show _ = if (h'.vertex v).statement.isConstructedByLinking then _ else _
          rw [hb.statement_old v (Nat.lt_of_lt_of_le hlt hk.nextVertex_le),
            hk.vertex_old v hlt]
          exact hp.owner f hf v hv'
        · obtain rfl := List.mem_singleton.mp hf
          have hN := hb.vertices v (by rw [hk.theCfg]; exact hv)
          show _ = if (h'.vertex v).statement.isConstructedByLinking then _ else _
          rw [hb.owner_eq hk.list_lt v hN, howner,
            hp.unallocated v (hb.le_of_mem hk v hN)]
      unallocated := fun v hv => by
        rw [show (h'.vertex v).owningFunction = _ from
          hb.owner_notMem v (hnotOriginals v (.inl hv)), howner]
        exact hp.unallocated v (Nat.le_trans hnext hv) }

/-- Linking one function goes through. -/
theorem linkFunction (orders : PassOrders) {this : FunctionPtr}
    (hthis : this ∈ p.functions) :
    ∃ p', linkFunction orders p this = .ok p' ∧ p'.Invariant memory ∧
      p'.functions = p.functions ∧ p'.functionMap = p.functionMap ∧
      FunctionLinked p.heap this p.functionMap p'.heap ∧
      p'.unresolvedFunctionCalls = p.heap.addUnresolved p.functionMap
        p.unresolvedFunctionCalls
        ((orders.link this).vertices.enum (p.heap.graph this).vertices) := by
  obtain ⟨home, hflow, hlinked⟩ := hp.flow
  obtain ⟨h', home', hrun, hflow', hlinked', hfun⟩ := hflow.link_spec hlinked
    hthis hp.functionMap_mem (orders.link this) p.unresolvedFunctionCalls
  refine ⟨{ p with
    heap := h'
    unresolvedFunctionCalls := p.heap.addUnresolved p.functionMap
      p.unresolvedFunctionCalls
      ((orders.link this).vertices.enum (p.heap.graph this).vertices) },
    ?_, ?_, rfl, rfl, hfun, rfl⟩
  · unfold Program.linkFunction
    rw [hrun]
    rfl
  · exact
      { functions_eq := hp.functions_eq
        functionMap_mem := hp.functionMap_mem
        flow := ⟨home', hflow', hlinked'⟩
        owner := fun f hf v hv => by
          show (h'.vertex v).owningFunction =
            if (h'.vertex v).statement.isConstructedByLinking then _ else _
          have hold : v ∈ (p.heap.graph f).vertices →
              (h'.vertex v).owningFunction =
                if (h'.vertex v).statement.isConstructedByLinking then
                  (memory v).owningFunction
                else f := by
            intro hmem
            have hlt := (hflow.allocated v (by
              rw [hflow.home_eq f hf v hmem]; exact hf)).2
            rw [hfun.owningFunction, hfun.statement_old v hlt]
            exact hp.owner f hf v hmem
          by_cases hne : f = this
          · subst hne
            rcases (hfun.mem_vertices v).mp hv with ⟨hmem, _⟩ | ⟨hle, hlt⟩
            · exact hold hmem
            · obtain ⟨f', params, hst⟩ := hfun.statement_new v hle hlt
              rw [hst, hfun.owningFunction, hp.unallocated v hle]
              rfl
          · refine hold ?_
            rw [← hfun.vertices_of_ne f hne]
            exact hv
        unallocated := fun v hv => by
          rw [show (h'.vertex v).owningFunction = _ from hfun.owningFunction v]
          exact hp.unallocated v (Nat.le_trans hfun.nextVertex_le hv) }

end Invariant

theorem Invariant.build {memory : VertexPtr → Vertex} {orders : PassOrders}
    {fis : List FunctionInfo} {p : Program}
    (hfis : ∀ fi ∈ fis, ∀ st ∈ fi.statementList, st.1.isParsed = true)
    (hrun : build memory orders fis = .ok p) : p.Invariant memory := by
  unfold Program.build at hrun
  have hinit := Invariant.initial memory
  generalize Program.initial memory = p₀ at hrun hinit
  induction fis generalizing p₀ with
  | nil => exact Except.ok.inj hrun ▸ hinit
  | cons fi fis ih =>
      rw [List.foldlM_cons] at hrun
      cases hfi : Program.buildFunction orders p₀ fi with
      | error err =>
          rw [hfi] at hrun
          exact absurd hrun (by simp [bind, Except.bind])
      | ok p₁ =>
          rw [hfi] at hrun
          exact ih (fun fi' hmem => hfis fi' (List.mem_cons_of_mem _ hmem)) p₁
            hrun (hinit.buildFunction (hfis fi List.mem_cons_self) hfi)

/-- Linking functions of a program one after the other. -/
theorem Invariant.linkFunctions {memory : VertexPtr → Vertex} {p : Program}
    (hp : p.Invariant memory) (orders : PassOrders) {seq : List FunctionPtr}
    (hseq : ∀ f ∈ seq, f ∈ p.functions) :
    ∃ p', seq.foldlM (Program.linkFunction orders) p = .ok p' ∧
      p'.Invariant memory ∧ p'.functions = p.functions ∧
      p'.functionMap = p.functionMap := by
  induction seq generalizing p with
  | nil => exact ⟨p, rfl, hp, rfl, rfl⟩
  | cons f seq ih =>
      obtain ⟨p₁, hrun, hp₁, hfunctions, hmap, _⟩ :=
        hp.linkFunction orders (hseq f List.mem_cons_self)
      obtain ⟨p', hrun', hp', hfunctions', hmap'⟩ := ih hp₁ fun g hg =>
        hfunctions ▸ hseq g (List.mem_cons_of_mem _ hg)
      refine ⟨p', ?_, hp', hfunctions'.trans hfunctions, hmap'.trans hmap⟩
      rw [List.foldlM_cons, hrun]
      exact hrun'

end Program

/-- A program that has been parsed and whose functions have been linked, each
of them once and in some order. -/
def LinkedProgram (p : Program) : Prop :=
  ∃ memory orders fis built, ∃ seq : List FunctionPtr,
    (∀ fi : FunctionInfo, fi ∈ fis →
      ∀ st ∈ fi.statementList, st.1.isParsed = true) ∧
    Program.build memory orders fis = .ok built ∧
    seq.Perm built.functions ∧
    seq.foldlM (Program.linkFunction orders) built = .ok p

theorem linkedProgram_of_parse {memory : VertexPtr → Vertex}
    {orders : PassOrders} {fis : List FunctionInfo} {p : Program}
    (hfis : ∀ fi ∈ fis, ∀ st ∈ fi.statementList, st.1.isParsed = true)
    (hrun : Program.parse memory orders fis = .ok p) : LinkedProgram p := by
  unfold Program.parse at hrun
  cases hbuild : Program.build memory orders fis with
  | error err =>
      rw [hbuild] at hrun
      exact absurd hrun (by simp [bind, Except.bind])
  | ok built =>
      rw [hbuild] at hrun
      exact ⟨memory, orders, fis, built, built.functions, hfis, hbuild,
        List.Perm.refl _, hrun⟩

theorem LinkedProgram.invariant {p : Program} (hp : LinkedProgram p) :
    ∃ memory, p.Invariant memory := by
  obtain ⟨memory, orders, fis, built, seq, hfis, hbuild, hseq, hlink⟩ := hp
  obtain ⟨p', hrun, hinv, _⟩ := (Program.Invariant.build hfis hbuild).linkFunctions
    orders fun f hf => hseq.mem_iff.mp hf
  obtain rfl := Except.ok.inj (hlink.symm.trans hrun)
  exact ⟨memory, hinv⟩

/-- The flow of control of a linked program. -/
theorem LinkedProgram.flow {p : Program} (hp : LinkedProgram p) :
    ∃ home, ProgramFlow p.functions home p.heap ∧
      CallsLinked p.functions home p.heap := by
  obtain ⟨memory, hinv⟩ := hp.invariant
  exact hinv.flow

/-- ENTRY knows its function. -/
theorem LinkedProgram.owningFunction_entry {p : Program} (hp : LinkedProgram p)
    {f : FunctionPtr} (hf : f ∈ p.functions) :
    (p.heap.vertex (p.heap.function f).entryVertexDesc).owningFunction = f := by
  obtain ⟨memory, hinv⟩ := hp.invariant
  obtain ⟨home, hflow, _⟩ := hinv.flow
  have howner := hinv.owner f hf _ (hflow.entry_mem f hf)
  rw [hflow.entryStatement hf] at howner
  exact howner

/-- The call graph: a function contains a resolved call of another one, or of
itself. -/
def Program.Calls (p : Program) (f g : FunctionPtr) : Prop :=
  f ∈ p.functions ∧ ∃ v ∈ (p.heap.graph f).vertices,
    (p.heap.vertex v).statement.calledFunction = some g

end CoFlo.Ports
