import CoFlo.Ports.BuiltFunction

/-!
# The flow of control of a program

The graphs of a program share one heap, and linking draws edges from one graph
to another.  `ProgramFlow` says what holds of all of them together, at any
moment between two functions that are built and between two calls that are
linked: every edge belongs to the graph its source is in, stays inside it
unless it is a `FunctionCall` or a `Return` edge, and these join a
`FunctionCallResolved` vertex to the function it calls.

A vertex that has been replaced may still be an end of some edge.  So the
invariant is stated with a function `home`, which gives for every vertex the
function in whose graph it is or has been, and something that is no function
for a vertex that has never been in a graph.
-/

namespace CoFlo.Ports

/-- The graphs of `functions` and the edges between them. -/
structure ProgramFlow (functions : List FunctionPtr)
    (home : VertexPtr → FunctionPtr) (h : Heap) : Prop where
  consistent : h.Consistent
  null_notMem : null ∉ functions
  theCfg : ∀ p ∈ functions, (h.function p).theCfg = p
  allocated : ∀ v, home v ∈ functions → v ≠ null ∧ v < h.nextVertex
  home_eq : ∀ p ∈ functions, ∀ v ∈ (h.graph p).vertices, home v = p
  home_source : ∀ e, (h.edge e).source ≠ null →
    home (h.edge e).source ∈ functions
  home_target : ∀ e, (h.edge e).source ≠ null →
    home (h.edge e).target ∈ functions
  mem_edges : ∀ p ∈ functions, ∀ e, e ∈ (h.graph p).edges ↔
    (h.edge e).source ≠ null ∧ home (h.edge e).source = p
  entry_mem : ∀ p ∈ functions,
    (h.function p).entryVertexDesc ∈ (h.graph p).vertices
  exit_mem : ∀ p ∈ functions,
    (h.function p).exitVertexDesc ∈ (h.graph p).vertices
  statement_entry : ∀ v, home v ∈ functions →
    ((h.vertex v).statement = .entry ↔
      v = (h.function (home v)).entryVertexDesc)
  statement_exit : ∀ v, home v ∈ functions →
    ((h.vertex v).statement = .exit ↔
      v = (h.function (home v)).exitVertexDesc)
  resolved : ∀ v f params, home v ∈ functions →
    (h.vertex v).statement = .functionCallResolved f params →
      f ∈ functions ∧ v ∈ (h.graph (home v)).vertices
  fallsThrough : ∀ p ∈ functions, ∀ v ∈ (h.graph p).vertices,
    (h.vertex v).statement.isFunctionCall = true → ∃ e, h.FallsThrough v e
  edgeType : ∀ e, (h.edge e).source ≠ null →
    (h.edge e).edgeType.isIntraprocedural = true ∨
      (h.edge e).edgeType.isFunctionCall = true ∨
        (h.edge e).edgeType.isReturn = true
  home_eq_home : ∀ e, (h.edge e).source ≠ null →
    (h.edge e).edgeType.isIntraprocedural = true →
      home (h.edge e).target = home (h.edge e).source
  enter : ∀ e, (h.edge e).source ≠ null →
    (h.edge e).edgeType.isIntraprocedural = true →
      (h.edge e).target =
          (h.function (home (h.edge e).source)).entryVertexDesc →
        e = (h.function (home (h.edge e).source)).entryVertexSelfEdge
  leave : ∀ e, (h.edge e).source ≠ null →
    (h.edge e).edgeType.isIntraprocedural = true →
      (h.edge e).source =
          (h.function (home (h.edge e).source)).exitVertexDesc →
        (h.edge e).target = (h.edge e).source ∧ (h.edge e).isBackEdge = true
  callEdge : ∀ e c g, (h.edge e).source ≠ null →
    (h.edge e).edgeType = .functionCall c g →
      (h.edge e).source = c ∧ (h.edge e).isBackEdge = false ∧
        ∃ params, (h.vertex c).statement = .functionCallResolved g params ∧
          (h.edge e).target = (h.function g).entryVertexDesc
  returnEdge : ∀ e c, (h.edge e).source ≠ null →
    (h.edge e).edgeType = .returnEdge c →
      home c ∈ functions ∧ (h.edge e).isBackEdge = false ∧
        ∃ f params d, (h.vertex c).statement = .functionCallResolved f params ∧
          (h.edge e).source = (h.function f).exitVertexDesc ∧
          h.FallsThrough c d ∧ (h.edge e).target = (h.edge d).target
  entrySelf : ∀ p ∈ functions,
    h.edge (h.function p).entryVertexSelfEdge =
      ⟨(h.function p).entryVertexDesc, (h.function p).entryVertexDesc,
        .impossible, true⟩
  indexed : ∀ p ∈ functions, h.Indexed p {v | home v = p}
  entryIndex : ∀ p ∈ functions,
    (h.vertex (h.function p).entryVertexDesc).vertexIndex = 0
  exitIndex : ∀ p ∈ functions,
    (h.vertex (h.function p).exitVertexDesc).vertexIndex = 1

/-- Before the first function is built. -/
theorem ProgramFlow.blank (memory : VertexPtr → Vertex) :
    ProgramFlow [] (fun _ => null) (Heap.blank memory) where
  consistent := Heap.blank_consistent memory
  null_notMem := List.not_mem_nil
  theCfg _ hp := absurd hp List.not_mem_nil
  allocated _ hv := absurd hv List.not_mem_nil
  home_eq _ hp := absurd hp List.not_mem_nil
  home_source _ hsource := absurd rfl hsource
  home_target _ hsource := absurd rfl hsource
  mem_edges _ hp := absurd hp List.not_mem_nil
  entry_mem _ hp := absurd hp List.not_mem_nil
  exit_mem _ hp := absurd hp List.not_mem_nil
  statement_entry _ hv := absurd hv List.not_mem_nil
  statement_exit _ hv := absurd hv List.not_mem_nil
  resolved _ _ _ hv := absurd hv List.not_mem_nil
  fallsThrough _ hp := absurd hp List.not_mem_nil
  edgeType _ hsource := absurd rfl hsource
  home_eq_home _ hsource := absurd rfl hsource
  enter _ hsource := absurd rfl hsource
  leave _ hsource := absurd rfl hsource
  callEdge _ _ _ hsource := absurd rfl hsource
  returnEdge _ _ hsource := absurd rfl hsource
  entrySelf _ hp := absurd hp List.not_mem_nil
  indexed _ hp := absurd hp List.not_mem_nil
  entryIndex _ hp := absurd hp List.not_mem_nil
  exitIndex _ hp := absurd hp List.not_mem_nil

namespace ProgramFlow

variable {functions : List FunctionPtr} {home : VertexPtr → FunctionPtr}
  {h : Heap} (hp : ProgramFlow functions home h)

include hp

/-! ## What the invariant says about single vertices -/

theorem home_entry {p : FunctionPtr} (hmem : p ∈ functions) :
    home (h.function p).entryVertexDesc = p :=
  hp.home_eq p hmem _ (hp.entry_mem p hmem)

theorem home_exit {p : FunctionPtr} (hmem : p ∈ functions) :
    home (h.function p).exitVertexDesc = p :=
  hp.home_eq p hmem _ (hp.exit_mem p hmem)

theorem entry_ne_null {p : FunctionPtr} (hmem : p ∈ functions) :
    (h.function p).entryVertexDesc ≠ null :=
  (hp.allocated _ (by rw [hp.home_entry hmem]; exact hmem)).1

theorem exit_ne_null {p : FunctionPtr} (hmem : p ∈ functions) :
    (h.function p).exitVertexDesc ≠ null :=
  (hp.allocated _ (by rw [hp.home_exit hmem]; exact hmem)).1

theorem entryStatement {p : FunctionPtr} (hmem : p ∈ functions) :
    (h.vertex (h.function p).entryVertexDesc).statement = .entry := by
  have hhome := hp.home_entry hmem
  refine (hp.statement_entry _ (by rw [hhome]; exact hmem)).mpr ?_
  rw [hhome]

theorem exitStatement {p : FunctionPtr} (hmem : p ∈ functions) :
    (h.vertex (h.function p).exitVertexDesc).statement = .exit := by
  have hhome := hp.home_exit hmem
  refine (hp.statement_exit _ (by rw [hhome]; exact hmem)).mpr ?_
  rw [hhome]

/-- An edge that is attached at one end is attached at both. -/
theorem target_ne_null {e : EdgePtr} (he : (h.edge e).source ≠ null) :
    (h.edge e).target ≠ null :=
  fun htarget => he ((hp.consistent.source_eq_null e).mpr htarget)

/-- Nothing points at a vertex that has never been in a graph. -/
theorem outEdges_eq_empty {v : VertexPtr} (hv : home v ∉ functions) :
    (h.vertex v).outEdges = ∅ := by
  rw [Finset.eq_empty_iff_forall_notMem]
  intro e he
  obtain ⟨hsource, hv0⟩ := (hp.consistent.mem_outEdges v e).mp he
  have hhome := hp.home_source e (hsource ▸ hv0)
  rw [hsource] at hhome
  exact hv hhome

theorem inEdges_eq_empty {v : VertexPtr} (hv : home v ∉ functions) :
    (h.vertex v).inEdges = ∅ := by
  rw [Finset.eq_empty_iff_forall_notMem]
  intro e he
  have hsource := hp.consistent.source_ne_null_of_mem he
  have hhome := hp.home_target e hsource
  rw [hp.consistent.target_eq_of_mem he] at hhome
  exact hv hhome

/-- Invariants read from the part of the heap that has been allocated. -/
theorem congr {h' : Heap} (hc : h'.Consistent) (hedge : h'.edge = h.edge)
    (hgraph : h'.graph = h.graph) (hfunction : h'.function = h.function)
    (hnextVertex : h.nextVertex ≤ h'.nextVertex)
    (hvertex : ∀ v, v < h.nextVertex → h'.vertex v = h.vertex v) :
    ProgramFlow functions home h' := by
  have hhome : ∀ v, home v ∈ functions → h'.vertex v = h.vertex v :=
    fun v hv => hvertex v (hp.allocated v hv).2
  have hsame : ∀ p ∈ functions, ∀ v ∈ (h.graph p).vertices,
      h'.vertex v = h.vertex v := fun p hmem v hv =>
    hhome v (by rw [hp.home_eq p hmem v hv]; exact hmem)
  exact
    { consistent := hc
      null_notMem := hp.null_notMem
      theCfg := by rw [hfunction]; exact hp.theCfg
      allocated := fun v hv =>
        ⟨(hp.allocated v hv).1,
          Nat.lt_of_lt_of_le (hp.allocated v hv).2 hnextVertex⟩
      home_eq := by rw [hgraph]; exact hp.home_eq
      home_source := by rw [hedge]; exact hp.home_source
      home_target := by rw [hedge]; exact hp.home_target
      mem_edges := by rw [hedge, hgraph]; exact hp.mem_edges
      entry_mem := by rw [hgraph, hfunction]; exact hp.entry_mem
      exit_mem := by rw [hgraph, hfunction]; exact hp.exit_mem
      statement_entry := fun v hv => by
        rw [hhome v hv, hfunction]
        exact hp.statement_entry v hv
      statement_exit := fun v hv => by
        rw [hhome v hv, hfunction]
        exact hp.statement_exit v hv
      resolved := fun v f params hv hst => by
        rw [hhome v hv] at hst
        rw [hgraph]
        exact hp.resolved v f params hv hst
      fallsThrough := fun p hmem v hv hst => by
        rw [hgraph] at hv
        rw [hsame p hmem v hv] at hst
        simp only [Heap.fallsThrough_congr hedge]
        exact hp.fallsThrough p hmem v hv hst
      edgeType := by rw [hedge]; exact hp.edgeType
      home_eq_home := by rw [hedge]; exact hp.home_eq_home
      enter := by rw [hedge, hfunction]; exact hp.enter
      leave := by rw [hedge, hfunction]; exact hp.leave
      callEdge := fun e c g hsource htype => by
        rw [hedge] at hsource htype ⊢
        have hcall := hp.callEdge e c g hsource htype
        have hc := hp.home_source e hsource
        rw [hcall.1] at hc
        rw [hhome c hc, hfunction]
        exact hcall
      returnEdge := fun e c hsource htype => by
        rw [hedge] at hsource htype ⊢
        have hreturn := hp.returnEdge e c hsource htype
        simp only [hhome c hreturn.1, hfunction, Heap.fallsThrough_congr hedge]
        exact hreturn
      entrySelf := by rw [hedge, hfunction]; exact hp.entrySelf
      indexed := fun p hmem => by
        refine (hp.indexed p hmem).congr (fun v hv => ?_) ?_
        · rw [hhome v (by rw [hv]; exact hmem)]
        · rw [hgraph]
      entryIndex := fun p hmem => by
        rw [hfunction, hsame p hmem _ (hp.entry_mem p hmem)]
        exact hp.entryIndex p hmem
      exitIndex := fun p hmem => by
        rw [hfunction, hsame p hmem _ (hp.exit_mem p hmem)]
        exact hp.exitIndex p hmem }

/-! ## A new edge between two functions -/

/-- A `FunctionCall` or `Return` edge that leads where it should. -/
theorem addNewEdge {g : GraphPtr} {s t : VertexPtr} (ty : EdgeType)
    (hg : g ∈ functions) (hs : home s = g) (ht : home t ∈ functions)
    (hcall : ∀ c f, ty = .functionCall c f → s = c ∧
      ∃ params, (h.vertex c).statement = .functionCallResolved f params ∧
        t = (h.function f).entryVertexDesc)
    (hreturn : ∀ c, ty = .returnEdge c → home c ∈ functions ∧
      ∃ f params d, (h.vertex c).statement = .functionCallResolved f params ∧
        s = (h.function f).exitVertexDesc ∧
        h.FallsThrough c d ∧ t = (h.edge d).target)
    (hty : ty.isFunctionCall = true ∨ ty.isReturn = true) :
    ProgramFlow functions home (h.addNewEdge g s t ty) := by
  obtain ⟨hs0, hslt⟩ := hp.allocated s (hs ▸ hg)
  obtain ⟨ht0, htlt⟩ := hp.allocated t ht
  have hnext := hp.consistent.nextEdge_source
  have hinter : ty.isIntraprocedural = false ∧ ty.isFallthrough = false := by
    cases ty <;> simp_all [EdgeType.isFunctionCall, EdgeType.isReturn,
      EdgeType.isIntraprocedural, EdgeType.isFallthrough]
  have hedge : ∀ e, e ≠ h.nextEdge →
      (h.addNewEdge g s t ty).edge e = h.edge e := fun e he => by
    rw [Heap.addNewEdge_edge, if_neg he]
  have hnew : (h.addNewEdge g s t ty).edge h.nextEdge = ⟨s, t, ty, false⟩ := by
    rw [Heap.addNewEdge_edge, if_pos rfl]
  have hself : ∀ p ∈ functions, (h.function p).entryVertexSelfEdge ≠
      h.nextEdge := by
    intro p hmem heq
    have hentry := hp.entrySelf p hmem
    rw [heq] at hentry
    rw [hentry] at hnext
    exact hp.entry_ne_null hmem hnext
  -- The fallthrough edge of a vertex is an edge that was there before.
  have hfalls : ∀ v d, v ≠ null → h.FallsThrough v d →
      (h.addNewEdge g s t ty).FallsThrough v d := by
    intro v d hv hd e
    by_cases he : e = h.nextEdge
    · subst he
      rw [hnew, ← hd h.nextEdge, hnext, hinter.2]
      exact iff_of_false (fun hcon => absurd hcon.2 (by decide))
        fun hcon => hv hcon.1.symm
    · rw [hedge e he]
      exact hd e
  have hfallsEdge : ∀ v d, v ≠ null → h.FallsThrough v d → d ≠ h.nextEdge := by
    intro v d hv hd heq
    have hsource := ((hd d).mpr rfl).1
    rw [heq, hnext] at hsource
    exact hv hsource.symm
  exact
    { consistent := hp.consistent.addNewEdge g ty hs0 ht0 hslt htlt
      null_notMem := hp.null_notMem
      theCfg := hp.theCfg
      allocated := hp.allocated
      home_eq := fun p hmem v hv => by
        rw [Heap.addNewEdge_vertices] at hv
        exact hp.home_eq p hmem v hv
      home_source := fun e => by
        by_cases he : e = h.nextEdge
        · rw [he, hnew]
          exact fun _ => hs ▸ hg
        · rw [hedge e he]
          exact hp.home_source e
      home_target := fun e => by
        by_cases he : e = h.nextEdge
        · rw [he, hnew]
          exact fun _ => ht
        · rw [hedge e he]
          exact hp.home_target e
      mem_edges := fun p hmem e => by
        have hiff := hp.mem_edges p hmem e
        rw [Heap.addNewEdge_graph]
        dsimp only
        by_cases he : e = h.nextEdge
        · subst he
          rw [hnew]
          split_ifs with hpg
          · simp [hs0, hs, hpg]
          · rw [hnext] at hiff
            refine iff_of_false (fun hcon => (hiff.mp hcon).1 rfl) ?_
            exact fun hcon => hpg (hcon.2.symm.trans hs)
        · rw [hedge e he]
          split_ifs
          · rw [Finset.mem_insert]
            exact (or_iff_right he).trans hiff
          · exact hiff
      entry_mem := fun p hmem => by
        rw [Heap.addNewEdge_vertices]
        exact hp.entry_mem p hmem
      exit_mem := fun p hmem => by
        rw [Heap.addNewEdge_vertices]
        exact hp.exit_mem p hmem
      statement_entry := fun v => by
        rw [Heap.addNewEdge_statement]
        exact hp.statement_entry v
      statement_exit := fun v => by
        rw [Heap.addNewEdge_statement]
        exact hp.statement_exit v
      resolved := fun v => by
        rw [Heap.addNewEdge_statement, Heap.addNewEdge_vertices]
        exact hp.resolved v
      fallsThrough := fun p hmem v hv hst => by
        rw [Heap.addNewEdge_vertices] at hv
        rw [Heap.addNewEdge_statement] at hst
        obtain ⟨d, hd⟩ := hp.fallsThrough p hmem v hv hst
        have hv0 : v ≠ null :=
          (hp.allocated v (by rw [hp.home_eq p hmem v hv]; exact hmem)).1
        exact ⟨d, hfalls v d hv0 hd⟩
      edgeType := fun e => by
        by_cases he : e = h.nextEdge
        · rw [he, hnew]
          exact fun _ => .inr hty
        · rw [hedge e he]
          exact hp.edgeType e
      home_eq_home := fun e => by
        by_cases he : e = h.nextEdge
        · rw [he, hnew, hinter.1]
          exact fun _ hcon => absurd hcon (by decide)
        · rw [hedge e he]
          exact hp.home_eq_home e
      enter := fun e => by
        by_cases he : e = h.nextEdge
        · rw [he, hnew, hinter.1]
          exact fun _ hcon => absurd hcon (by decide)
        · rw [hedge e he]
          exact hp.enter e
      leave := fun e => by
        by_cases he : e = h.nextEdge
        · rw [he, hnew, hinter.1]
          exact fun _ hcon => absurd hcon (by decide)
        · rw [hedge e he]
          exact hp.leave e
      callEdge := fun e c f => by
        by_cases he : e = h.nextEdge
        · rw [he, hnew]
          intro _ htype
          obtain ⟨hsc, params, hst, htarget⟩ := hcall c f htype
          exact ⟨hsc, rfl, params, by rw [Heap.addNewEdge_statement, hst],
            htarget⟩
        · rw [hedge e he]
          simp only [Heap.addNewEdge_statement]
          exact hp.callEdge e c f
      returnEdge := fun e c => by
        have hlift : ∀ f params d source target, home c ∈ functions →
            (h.vertex c).statement = .functionCallResolved f params →
            source = (h.function f).exitVertexDesc → h.FallsThrough c d →
            target = (h.edge d).target →
            ∃ f params d, ((h.addNewEdge g s t ty).vertex c).statement =
                .functionCallResolved f params ∧
              source = (h.function f).exitVertexDesc ∧
              (h.addNewEdge g s t ty).FallsThrough c d ∧
              target = ((h.addNewEdge g s t ty).edge d).target := by
          intro f params d source target hc hst hsource hd htarget
          have hc0 := (hp.allocated c hc).1
          refine ⟨f, params, d, ?_, hsource, hfalls c d hc0 hd, ?_⟩
          · rw [Heap.addNewEdge_statement, hst]
          · rw [hedge d (hfallsEdge c d hc0 hd)]
            exact htarget
        by_cases he : e = h.nextEdge
        · rw [he, hnew]
          intro _ htype
          obtain ⟨hc, f, params, d, hst, hsource, hd, htarget⟩ := hreturn c htype
          exact ⟨hc, rfl, hlift f params d s t hc hst hsource hd htarget⟩
        · rw [hedge e he]
          intro hsource htype
          obtain ⟨hc, hback, f, params, d, hst, hs', hd, ht'⟩ :=
            hp.returnEdge e c hsource htype
          exact ⟨hc, hback, hlift f params d _ _ hc hst hs' hd ht'⟩
      entrySelf := fun p hmem => by
        rw [Heap.addNewEdge_function, hedge _ (hself p hmem)]
        exact hp.entrySelf p hmem
      indexed := fun p hmem => (hp.indexed p hmem).congr
        (fun v _ => Heap.addNewEdge_vertexIndex _ _ _ _ _ _)
        (Nat.le_of_eq (Heap.addNewEdge_vertexIdState _ _ _ _ _ _).symm)
      entryIndex := fun p hmem => by
        rw [Heap.addNewEdge_function, Heap.addNewEdge_vertexIndex]
        exact hp.entryIndex p hmem
      exitIndex := fun p hmem => by
        rw [Heap.addNewEdge_function, Heap.addNewEdge_vertexIndex]
        exact hp.exitIndex p hmem }

/-! ## A call takes the place of an unresolved one -/

section vertexReplaced

variable {this f : FunctionPtr} {oldVertex newVertex : VertexPtr}
  {identifier params params' : String}

omit hp in
private theorem update_home (hnew : home newVertex ∉ functions)
    (hold : home oldVertex = this) {v : VertexPtr} (hv : home v ∈ functions) :
    Function.update home newVertex this
      (renameVertex oldVertex newVertex v) = home v := by
  have hne : v ≠ newVertex := fun heq => hnew (heq ▸ hv)
  by_cases hvold : v = oldVertex
  · rw [hvold, renameVertex_self, Function.update_self, hold]
  · rw [renameVertex_of_ne _ hvold, Function.update_of_ne hne]

/-- `ReplaceVertex` of a `FunctionCallUnresolved` by a new
`FunctionCallResolved`, which nothing has pointed at before. -/
theorem vertexReplaced (hthis : this ∈ functions) (hf : f ∈ functions)
    (hmem : oldVertex ∈ (h.graph this).vertices)
    (hold : (h.vertex oldVertex).statement =
      .functionCallUnresolved identifier params)
    (hnew : (h.vertex newVertex).statement = .functionCallResolved f params')
    (hhome : home newVertex ∉ functions) (hnull : newVertex ≠ null)
    (hlt : newVertex < h.nextVertex) :
    ProgramFlow functions (Function.update home newVertex this)
      (h.vertexReplaced this oldVertex newVertex) := by
  have hhomeOld := hp.home_eq this hthis _ hmem
  have holdMem : home oldVertex ∈ functions := hhomeOld ▸ hthis
  have hold0 : oldVertex ≠ null := (hp.allocated _ holdMem).1
  have hne : oldVertex ≠ newVertex := fun heq => hhome (heq ▸ holdMem)
  have hc := hp.consistent
  have hout := hp.outEdges_eq_empty hhome
  have hin := hp.inEdges_eq_empty hhome
  have hsource : ∀ e,
      ((h.vertexReplaced this oldVertex newVertex).edge e).source =
        renameVertex oldVertex newVertex (h.edge e).source :=
    hc.vertexReplaced_source this hold0
  have htarget : ∀ e,
      ((h.vertexReplaced this oldVertex newVertex).edge e).target =
        renameVertex oldVertex newVertex (h.edge e).target :=
    hc.vertexReplaced_target this hold0
  have hother : ∀ v, home v ∈ functions → v ≠ newVertex :=
    fun v hv heq => hhome (heq ▸ hv)
  have hrename : ∀ v w, home w ∈ functions → v ≠ newVertex → w ≠ oldVertex →
      (renameVertex oldVertex newVertex v = w ↔ v = w) := by
    intro v w hw hv hwold
    unfold renameVertex
    split_ifs with heq
    · exact iff_of_false (fun hcon => hother w hw hcon.symm)
        fun hcon => hwold (hcon.symm.trans heq)
    · rfl
  have hattached : ∀ e,
      ((h.vertexReplaced this oldVertex newVertex).edge e).source ≠ null ↔
        (h.edge e).source ≠ null := by
    intro e
    rw [hsource]
    unfold renameVertex
    split_ifs with heq
    · rw [heq]
      exact iff_of_true hnull hold0
    · rfl
  have hsourceNe : ∀ e, (h.edge e).source ≠ newVertex := by
    intro e heq
    have hmem := (hc.mem_outEdges newVertex e).mpr ⟨heq, hnull⟩
    rw [hout] at hmem
    exact Finset.notMem_empty e hmem
  have htargetNe : ∀ e, (h.edge e).target ≠ newVertex := by
    intro e heq
    have hmem := (hc.mem_inEdges newVertex e).mpr ⟨heq, hnull⟩
    rw [hin] at hmem
    exact Finset.notMem_empty e hmem
  -- Neither ENTRY nor EXIT nor a resolved call is replaced.
  have hentryNe : ∀ p ∈ functions, (h.function p).entryVertexDesc ≠
      oldVertex := by
    intro p hpmem heq
    have hst := hp.entryStatement hpmem
    rw [heq, hold] at hst
    exact absurd hst (by simp)
  have hexitNe : ∀ p ∈ functions, (h.function p).exitVertexDesc ≠
      oldVertex := by
    intro p hpmem heq
    have hst := hp.exitStatement hpmem
    rw [heq, hold] at hst
    exact absurd hst (by simp)
  have hresolvedNe : ∀ c f params,
      (h.vertex c).statement = .functionCallResolved f params →
        c ≠ oldVertex := by
    intro c f params hst heq
    rw [heq, hold] at hst
    exact absurd hst (by simp)
  have hhomes : ∀ v, home v ∈ functions → Function.update home newVertex this
      (renameVertex oldVertex newVertex v) = home v := fun v hv =>
    update_home hhome hhomeOld hv
  have hhomeNe : ∀ v, v ≠ newVertex →
      Function.update home newVertex this v = home v := fun v hv =>
    Function.update_of_ne hv _ _
  have hfalls : ∀ v d, v ≠ newVertex → h.FallsThrough v d →
      (h.vertexReplaced this oldVertex newVertex).FallsThrough
        (renameVertex oldVertex newVertex v) d := by
    intro v d hv hd e
    rw [hsource, Heap.vertexReplaced_edgeType, ← hd e]
    refine and_congr_left fun _ => ?_
    have hse := hsourceNe e
    unfold renameVertex
    split_ifs with h1 h2 h2
    · exact iff_of_true rfl (h1.trans h2.symm)
    · rw [h1]
      exact iff_of_false (fun hcon => hv hcon.symm) fun hcon => h2 hcon.symm
    · exact iff_of_false hse fun hcon => h1 (hcon.trans h2)
    · rfl
  have hvertices : ∀ p v, v ∈ ((h.vertexReplaced this oldVertex
      newVertex).graph p).vertices ↔
        (p = this ∧ v = newVertex) ∨
          v ∈ (h.graph p).vertices ∧ (p = this → v ≠ oldVertex) := by
    intro p v
    rw [Heap.vertexReplaced_graph]
    split_ifs with hpthis
    · subst hpthis
      simp only [Finset.mem_erase, Finset.mem_insert, true_and, true_imp_iff]
      constructor
      · rintro ⟨hvo, rfl | hv⟩
        · exact .inl rfl
        · exact .inr ⟨hv, hvo⟩
      · rintro (rfl | ⟨hv, hvo⟩)
        · exact ⟨hne.symm, .inl rfl⟩
        · exact ⟨hvo, .inr hv⟩
    · simp [hpthis]
  have hkept : ∀ p v, v ∈ (h.graph p).vertices → v ≠ oldVertex →
      v ∈ ((h.vertexReplaced this oldVertex newVertex).graph p).vertices :=
    fun p v hv hvo => (hvertices p v).mpr (.inr ⟨hv, fun _ => hvo⟩)
  exact
    { consistent := hc.vertexReplaced this hold0 hnull hlt hne hout hin
      null_notMem := hp.null_notMem
      theCfg := hp.theCfg
      allocated := fun v hv => by
        by_cases hvn : v = newVertex
        · exact ⟨hvn ▸ hnull, hvn ▸ hlt⟩
        · rw [hhomeNe v hvn] at hv
          exact hp.allocated v hv
      home_eq := fun p hpmem v hv => by
        rcases (hvertices p v).mp hv with ⟨hpthis, hvn⟩ | ⟨hv, _⟩
        · rw [hvn, Function.update_self, hpthis]
        · have hvhome := hp.home_eq p hpmem v hv
          rw [hhomeNe v (hother v (hvhome ▸ hpmem)), hvhome]
      home_source := fun e he => by
        have he' := (hattached e).mp he
        rw [hsource, hhomes _ (hp.home_source e he')]
        exact hp.home_source e he'
      home_target := fun e he => by
        have he' := (hattached e).mp he
        rw [htarget, hhomes _ (hp.home_target e he')]
        exact hp.home_target e he'
      mem_edges := fun p hpmem e => by
        rw [Heap.vertexReplaced_edges, hp.mem_edges p hpmem e, hattached]
        refine and_congr_right fun he => ?_
        rw [hsource, hhomes _ (hp.home_source e he)]
      entry_mem := fun p hpmem =>
        hkept p _ (hp.entry_mem p hpmem) (hentryNe p hpmem)
      exit_mem := fun p hpmem =>
        hkept p _ (hp.exit_mem p hpmem) (hexitNe p hpmem)
      statement_entry := fun v hv => by
        rw [Heap.vertexReplaced_statement, Heap.vertexReplaced_function]
        by_cases hvn : v = newVertex
        · subst hvn
          rw [Function.update_self, hnew]
          refine iff_of_false (by simp) fun heq => hhome ?_
          rw [heq, hp.home_entry hthis]
          exact hthis
        · rw [hhomeNe v hvn] at hv ⊢
          exact hp.statement_entry v hv
      statement_exit := fun v hv => by
        rw [Heap.vertexReplaced_statement, Heap.vertexReplaced_function]
        by_cases hvn : v = newVertex
        · subst hvn
          rw [Function.update_self, hnew]
          refine iff_of_false (by simp) fun heq => hhome ?_
          rw [heq, hp.home_exit hthis]
          exact hthis
        · rw [hhomeNe v hvn] at hv ⊢
          exact hp.statement_exit v hv
      resolved := fun v f' params'' hv hst => by
        rw [Heap.vertexReplaced_statement] at hst
        by_cases hvn : v = newVertex
        · subst hvn
          rw [hnew, Statement.functionCallResolved.injEq] at hst
          rw [Function.update_self]
          exact ⟨hst.1 ▸ hf, (hvertices this v).mpr (.inl ⟨rfl, rfl⟩)⟩
        · rw [hhomeNe v hvn] at hv ⊢
          obtain ⟨hf', hvmem⟩ := hp.resolved v f' params'' hv hst
          exact ⟨hf', hkept _ v hvmem (hresolvedNe v f' params'' hst)⟩
      fallsThrough := fun p hpmem v hv hst => by
        rw [Heap.vertexReplaced_statement] at hst
        rcases (hvertices p v).mp hv with ⟨_, hvn⟩ | ⟨hv, hvo⟩
        · obtain ⟨d, hd⟩ := hp.fallsThrough this hthis oldVertex hmem
            (by rw [hold]; rfl)
          have hd' := hfalls oldVertex d hne hd
          rw [renameVertex_self] at hd'
          exact ⟨d, hvn ▸ hd'⟩
        · obtain ⟨d, hd⟩ := hp.fallsThrough p hpmem v hv hst
          have hvhome := hp.home_eq p hpmem v hv
          have hvo : v ≠ oldVertex := fun heq => by
            rw [heq, hhomeOld] at hvhome
            exact hvo hvhome.symm heq
          have hd' := hfalls v d (hother v (hvhome ▸ hpmem)) hd
          rw [renameVertex_of_ne _ hvo] at hd'
          exact ⟨d, hd'⟩
      edgeType := fun e he => by
        rw [Heap.vertexReplaced_edgeType]
        exact hp.edgeType e ((hattached e).mp he)
      home_eq_home := fun e he htype => by
        have he' := (hattached e).mp he
        rw [Heap.vertexReplaced_edgeType] at htype
        rw [hsource, htarget, hhomes _ (hp.home_source e he'),
          hhomes _ (hp.home_target e he')]
        exact hp.home_eq_home e he' htype
      enter := fun e he htype hentry => by
        have he' := (hattached e).mp he
        have hmemSource := hp.home_source e he'
        rw [Heap.vertexReplaced_edgeType] at htype
        rw [hsource, htarget, hhomes _ hmemSource,
          Heap.vertexReplaced_function, hrename _ _ (by
            rw [hp.home_entry hmemSource]; exact hmemSource) (htargetNe e)
            (hentryNe _ hmemSource)] at hentry
        rw [hsource, hhomes _ hmemSource, Heap.vertexReplaced_function]
        exact hp.enter e he' htype hentry
      leave := fun e he htype hexit => by
        have he' := (hattached e).mp he
        have hmemSource := hp.home_source e he'
        rw [Heap.vertexReplaced_edgeType] at htype
        rw [hsource, hhomes _ hmemSource, Heap.vertexReplaced_function,
          hrename _ _ (by rw [hp.home_exit hmemSource]; exact hmemSource)
            (hsourceNe e) (hexitNe _ hmemSource)] at hexit
        obtain ⟨hloop, hback⟩ := hp.leave e he' htype hexit
        rw [hsource, htarget, hloop, Heap.vertexReplaced_isBackEdge]
        exact ⟨rfl, hback⟩
      callEdge := fun e c g he htype => by
        have he' := (hattached e).mp he
        rw [Heap.vertexReplaced_edgeType] at htype
        obtain ⟨hsc, hback, params'', hst, hte⟩ := hp.callEdge e c g he' htype
        have hcMem : home c ∈ functions := hsc ▸ hp.home_source e he'
        have hg := (hp.resolved c g params'' hcMem hst).1
        refine ⟨?_, ?_, params'', ?_, ?_⟩
        · rw [hsource, hsc, renameVertex_of_ne _ (hresolvedNe c g _ hst)]
        · rw [Heap.vertexReplaced_isBackEdge, hback]
        · rw [Heap.vertexReplaced_statement, hst]
        · rw [htarget, hte, renameVertex_of_ne _ (hentryNe g hg)]
          rfl
      returnEdge := fun e c he htype => by
        have he' := (hattached e).mp he
        rw [Heap.vertexReplaced_edgeType] at htype
        obtain ⟨hcMem, hback, f', params'', d, hst, hse, hd, hte⟩ :=
          hp.returnEdge e c he' htype
        have hf' := (hp.resolved c f' params'' hcMem hst).1
        have hcn := hother c hcMem
        refine ⟨?_, ?_, f', params'', d, ?_, ?_, ?_, ?_⟩
        · rw [hhomeNe c hcn]
          exact hcMem
        · rw [Heap.vertexReplaced_isBackEdge, hback]
        · rw [Heap.vertexReplaced_statement, hst]
        · rw [hsource, hse, renameVertex_of_ne _ (hexitNe f' hf')]
          rfl
        · have hd' := hfalls c d hcn hd
          rw [renameVertex_of_ne _ (hresolvedNe c f' params'' hst)] at hd'
          exact hd'
        · rw [htarget, htarget, hte]
      entrySelf := fun p hpmem => by
        have hself := hp.entrySelf p hpmem
        have hends : (h.edge (h.function p).entryVertexSelfEdge).source =
            (h.function p).entryVertexDesc := by rw [hself]
        have hentry := renameVertex_of_ne newVertex (hentryNe p hpmem)
        rw [Heap.vertexReplaced_function]
        refine Edge.ext ?_ ?_ ?_ ?_
        · rw [hsource, hself, hentry]
        · rw [htarget, hself, hentry]
        · rw [Heap.vertexReplaced_edgeType, hself]
        · rw [Heap.vertexReplaced_isBackEdge, hself]
      indexed := fun p hpmem => by
        by_cases hpthis : p = this
        · subst hpthis
          have hset : {v | Function.update home newVertex p v = p} =
              insert newVertex {v | home v = p} := by
            ext v
            by_cases hvn : v = newVertex
            · simp [hvn]
            · simp [hvn]
          rw [hset]
          exact (hp.indexed p hpmem).vertexReplaced
            fun hcon : home newVertex = p => hhome (hcon ▸ hpmem)
        · have hset : {v | Function.update home newVertex this v = p} =
              {v | home v = p} := by
            ext v
            by_cases hvn : v = newVertex
            · subst hvn
              refine iff_of_false (fun heq => ?_) fun heq : home v = p =>
                hhome (heq ▸ hpmem)
              have hthisp : Function.update home v this v = p := heq
              rw [Function.update_self] at hthisp
              exact hpthis hthisp.symm
            · simp [hvn]
          rw [hset]
          refine (hp.indexed p hpmem).congr (fun v hv => ?_) ?_
          · rw [Heap.vertexReplaced_vertexIndex, if_neg]
            exact hother v ((show home v = p from hv) ▸ hpmem)
          · rw [Heap.vertexReplaced_graph, if_neg hpthis]
      entryIndex := fun p hpmem => by
        rw [Heap.vertexReplaced_function, Heap.vertexReplaced_vertexIndex,
          if_neg]
        · exact hp.entryIndex p hpmem
        · exact hother _ (by rw [hp.home_entry hpmem]; exact hpmem)
      exitIndex := fun p hpmem => by
        rw [Heap.vertexReplaced_function, Heap.vertexReplaced_vertexIndex,
          if_neg]
        · exact hp.exitIndex p hpmem
        · exact hother _ (by rw [hp.home_exit hpmem]; exact hpmem) }

end vertexReplaced

end ProgramFlow

end CoFlo.Ports
