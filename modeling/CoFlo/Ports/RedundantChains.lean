import CoFlo.Ports.AcyclicFlow
import CoFlo.Ports.CreateControlFlowGraph

/-!
# What `RemoveRedundantNodes` leaves

The loop rewires edges while it walks over the vertices, yet the order of that
walk does not matter.  The vertices that go are those that are redundant at the
start, the edges that go are their out-edges, and every other edge ends at the
first vertex that stays behind its old target (`removeRedundantNodes_removed`).

Of the two edges at a vertex that goes the in-edge is kept, with its own
back-edge flag.  A loop stays cut exactly when a marked edge of it leaves a
vertex that stays (`removeRedundantNodes_keepsLoopsCut_iff`).
-/

namespace CoFlo.Ports

open CoFlo.Verified.Bypass CoFlo.Verified.Detours
open CoFlo.Verified.FoldInvariant Relation

namespace Heap

/-- A redundant vertex passes control on along its out-edge. -/
def PassesOn (h : Heap) (g : GraphPtr) (u w : VertexPtr) : Prop :=
  h.isRedundant u = true ∧ h.EdgeStep g u w

/-- `h'` is `h` without the redundant vertices of the graph `g`. -/
structure RedundantRemoved (h : Heap) (g : GraphPtr) (h' : Heap) : Prop where
  mem_vertices : ∀ v, v ∈ (h'.graph g).vertices ↔
    v ∈ (h.graph g).vertices ∧ h.isRedundant v = false
  mem_edges : ∀ e, e ∈ (h'.graph g).edges ↔
    e ∈ (h.graph g).edges ∧ h.isRedundant (h.edge e).source = false
  edge : ∀ e ∈ (h'.graph g).edges, ∃ w,
    ReflTransGen (h.PassesOn g) (h.edge e).target w ∧ h.isRedundant w = false ∧
      h'.edge e = { h.edge e with target := w }
  detached : ∀ e ∈ (h.graph g).edges, e ∉ (h'.graph g).edges →
    h'.edge e = { h.edge e with source := null, target := null }
  degrees : ∀ v ∈ (h'.graph g).vertices,
    h'.inDegree v = h.inDegree v ∧ h'.outDegree v = h.outDegree v
  isRedundant : ∀ v ∈ (h'.graph g).vertices, h'.isRedundant v = false
  consistent : h'.Consistent
  encloses : h'.Encloses g (h'.graph g).vertices
  vertex : ∀ v, ∃ outEdges inEdges,
    h'.vertex v = { h.vertex v with outEdges, inEdges }
  edge_of_notMem : ∀ e, e ∉ (h.graph g).edges → h'.edge e = h.edge e
  vertexIdState : (h'.graph g).vertexIdState = (h.graph g).vertexIdState
  graph_of_ne : ∀ i, i ≠ g → h'.graph i = h.graph i
  function : h'.function = h.function
  nextVertex : h'.nextVertex = h.nextVertex
  nextEdge : h'.nextEdge = h.nextEdge

/-! ## Contractions, in terms of the graph at the start -/

section contractsTo

variable {h k : Heap} {g : GraphPtr} {vs : List VertexPtr}

theorem ContractsTo.eq_of_nil (hk : ContractsTo g h [] k) : k = h := by
  generalize hnil : [] = vs at hk
  cases hk with
  | refl => rfl
  | contract => exact absurd hnil (by simp)

/-- A contraction makes no vertex redundant. -/
theorem ContractsTo.isRedundant_of (hk : ContractsTo g h vs k)
    (hc : h.Consistent) {w : VertexPtr} (hw : k.isRedundant w = true) :
    h.isRedundant w = true := by
  induction hk with
  | refl => exact hw
  | @contract vs k v a b hk hv ha hb hag hbg ih =>
      have hck := hk.consistent hc
      by_cases hwv : w = v
      · exact ih (hwv ▸ hv)
      · rw [hck.isRedundant_contract ha hb hwv] at hw
        exact ih hw

/-- What is left of an edge that stays: its target has moved along vertices
that passed control on. -/
theorem ContractsTo.edge_eq (hk : ContractsTo g h vs k) (hc : h.Consistent) :
    ∀ e ∈ (k.graph g).edges, ∃ w,
      ReflTransGen (h.PassesOn g) (h.edge e).target w ∧
        k.edge e = { h.edge e with target := w } := by
  induction hk with
  | refl => exact fun e _ => ⟨_, .refl, rfl⟩
  | @contract vs k v a b hk hv ha hb hag hbg ih =>
      obtain ⟨htarget, hsource, _⟩ := (hk.consistent hc).edges_eq ha hb
      intro e he
      rw [contract_graph, if_pos rfl, Finset.mem_erase] at he
      obtain ⟨w, hw, hedge⟩ := ih e he.2
      rw [contract_edge, if_neg he.1, if_neg he.1]
      by_cases hea : e = a
      · -- On from the old target of `a`, which is `v`, along `b`.
        obtain ⟨x, hx, hbedge⟩ := ih b hbg
        have hwv : w = v := by
          have hev := (htarget e).mpr hea
          rw [hedge] at hev
          exact hev
        have hbsource : (h.edge b).source = v := by
          have hbv := (hsource b).mpr rfl
          rw [hbedge] at hbv
          exact hbv
        have hstep : h.PassesOn g v (h.edge b).target :=
          ⟨hk.isRedundant_of hc hv, b, (hk.contracted hc).edges_subset hbg,
            hbsource, rfl⟩
        refine ⟨x, (hwv ▸ hw).trans (.head hstep hx), ?_⟩
        rw [if_pos hea, hedge, hbedge]
      · refine ⟨w, hw, ?_⟩
        rw [if_neg hea, hedge]

/-- The edges that go are those that leave a contracted vertex. -/
theorem ContractsTo.mem_edges_iff (hk : ContractsTo g h vs k)
    (hc : h.Consistent) (e : EdgePtr) :
    e ∈ (k.graph g).edges ↔
      e ∈ (h.graph g).edges ∧ (h.edge e).source ∉ vs := by
  induction hk with
  | refl => simp
  | @contract vs k v a b hk hv ha hb hag hbg ih =>
      obtain ⟨_, hsource, _⟩ := (hk.consistent hc).edges_eq ha hb
      rw [contract_graph, if_pos rfl, Finset.mem_erase, ih, List.mem_append,
        List.mem_singleton, not_or]
      have hiff : e ∈ (k.graph g).edges →
          (e ≠ b ↔ (h.edge e).source ≠ v) := by
        intro he
        obtain ⟨_, _, hedge⟩ := hk.edge_eq hc e he
        have he' := hsource e
        rw [hedge] at he'
        exact he'.not.symm
      constructor
      · rintro ⟨hne, he⟩
        exact ⟨he.1, he.2, (hiff (ih.mpr he)).mp hne⟩
      · rintro ⟨he, hvs, hne⟩
        exact ⟨(hiff (ih.mpr ⟨he, hvs⟩)).mpr hne, he, hvs⟩

theorem ContractsTo.edge_detached (hk : ContractsTo g h vs k)
    (hc : h.Consistent) : ∀ e ∈ (h.graph g).edges, e ∉ (k.graph g).edges →
      k.edge e = { h.edge e with source := null, target := null } := by
  induction hk with
  | refl => exact fun e he hnot => absurd he hnot
  | @contract vs k v a b hk hv ha hb hag hbg ih =>
      intro e he hnot
      rw [contract_graph, if_pos rfl, Finset.mem_erase] at hnot
      rw [contract_edge]
      by_cases heb : e = b
      · obtain ⟨_, _, hedge⟩ := hk.edge_eq hc b hbg
        rw [if_pos heb, if_pos heb, heb, hedge]
      · have hek : e ∉ (k.graph g).edges := fun hmem => hnot ⟨heb, hmem⟩
        have hea : e ≠ a := fun heq => hek (heq ▸ hag)
        rw [if_neg heb, if_neg heb, if_neg hea, ih e he hek]

theorem ContractsTo.degrees (hk : ContractsTo g h vs k) (hc : h.Consistent)
    {w : VertexPtr} (hw : w ∉ vs) :
    k.inDegree w = h.inDegree w ∧ k.outDegree w = h.outDegree w := by
  induction hk with
  | refl => exact ⟨rfl, rfl⟩
  | @contract vs k v a b hk hv ha hb hag hbg ih =>
      rw [List.mem_append, List.mem_singleton, not_or] at hw
      obtain ⟨hin, hout⟩ := (hk.consistent hc).degree_contract (g := g) ha hb hw.2
      rw [hin, hout]
      exact ih hw.1

end contractsTo

/-! ## The graph that is left -/

section removed

variable {h k h' : Heap} {g : GraphPtr}

/-- From the heap at the end of the loop to the heap without the scheduled
vertices. -/
theorem ContractsTo.redundantRemoved {order : IterationOrder}
    (hk : ContractsTo g h (h.redundantVertices order g) k) (hc : h.Consistent)
    (hM : h.Encloses g (h.graph g).vertices)
    (hresult : h' = (h.redundantVertices order g).foldl
      (fun h v => h.removeVertex g v) k) :
    h.RedundantRemoved g h' := by
  have hcontracted := hk.contracted hc
  have hgraph := foldl_removeVertex (g := g) k (h.redundantVertices order g)
  obtain ⟨hvertex, hedge, hfunction, hnextVertex, hnextEdge⟩ :=
    foldl_removeVertex_frame (g := g) k (h.redundantVertices order g)
  rw [← hresult] at hgraph hvertex hedge hfunction hnextVertex hnextEdge
  have hmemVertices : ∀ v, v ∈ (h'.graph g).vertices ↔
      v ∈ (h.graph g).vertices ∧ h.isRedundant v = false := by
    intro v
    rw [hgraph, if_pos rfl, Finset.mem_filter, hcontracted.vertices,
      mem_redundantVertices, not_and, Bool.not_eq_true]
    exact and_congr_right fun hv => forall_prop_of_true hv
  have hedges : (h'.graph g).edges = (k.graph g).edges := by rw [hgraph]
  have hnotMem : ∀ v ∈ (h'.graph g).vertices,
      v ∉ h.redundantVertices order g := by
    intro v hv hmem
    have hfalse := ((hmemVertices v).mp hv).2
    rw [(mem_redundantVertices.mp hmem).2] at hfalse
    exact absurd hfalse (by decide)
  have hends : ∀ e ∈ (k.graph g).edges,
      (k.edge e).source ∈ (h'.graph g).vertices ∧
        (k.edge e).target ∈ (h'.graph g).vertices := by
    have hencloses := hk.encloses hc hM
    intro e he
    have hsource := (hencloses.mem_edges_source e).mp he
    have htarget := (hencloses.mem_edges_target e).mp he
    have hstay : ∀ v ∈ (h.graph g).vertices,
        v ∉ h.redundantVertices order g → v ∈ (h'.graph g).vertices := by
      intro v hv hnot
      rw [mem_redundantVertices, not_and, Bool.not_eq_true] at hnot
      exact (hmemVertices v).mpr ⟨hv, hnot hv⟩
    have hremoved := hk.edges_removed hc
    exact ⟨hstay _ hsource fun hmem => (hremoved _ hmem e he).1 rfl,
      hstay _ htarget fun hmem => (hremoved _ hmem e he).2 rfl⟩
  have hdegrees : ∀ v ∈ (h'.graph g).vertices,
      h'.inDegree v = h.inDegree v ∧ h'.outDegree v = h.outDegree v := by
    intro v hv
    rw [inDegree, outDegree, hvertex]
    exact hk.degrees hc (hnotMem v hv)
  have hconsistent : h'.Consistent := by
    refine (hk.consistent hc).congr hedge (fun v => ?_) (fun v => ?_)
      (fun i => ?_) (Nat.le_of_eq hnextVertex.symm) hnextEdge
    · rw [hvertex]
    · rw [hvertex]
    · rw [hgraph]
  exact
    { mem_vertices := hmemVertices
      mem_edges := fun e => by
        rw [hedges, hk.mem_edges_iff hc]
        refine and_congr_right fun he => ?_
        rw [mem_redundantVertices, not_and, Bool.not_eq_true]
        exact forall_prop_of_true ((hM.mem_edges_source e).mp he)
      edge := fun e he => by
        rw [hedges] at he
        obtain ⟨w, hw, hew⟩ := hk.edge_eq hc e he
        refine ⟨w, hw, ?_, by rw [hedge, hew]⟩
        have htarget := (hends e he).2
        rw [hew] at htarget
        exact ((hmemVertices w).mp htarget).2
      detached := fun e he hnot => by
        rw [hedge]
        exact hk.edge_detached hc e he (hedges ▸ hnot)
      degrees := hdegrees
      isRedundant := fun v hv => by
        obtain ⟨hin, hout⟩ := hdegrees v hv
        obtain ⟨_, _, hv'⟩ := hcontracted.vertex v
        have hstatement : (h'.vertex v).statement = (h.vertex v).statement := by
          rw [hvertex, hv']
        have hfalse := ((hmemVertices v).mp hv).2
        rw [Heap.isRedundant] at hfalse ⊢
        rw [hstatement, hin, hout, hfalse]
      consistent := hconsistent
      encloses := ((hk.encloses hc hM).subset (fun v hv =>
        ((hmemVertices v).mp hv).1) hends).congr hedge hedges
      vertex := fun v => by
        rw [hvertex]
        exact hcontracted.vertex v
      edge_of_notMem := fun e he => by
        rw [hedge]
        exact hcontracted.edge_of_notMem e he
      vertexIdState := by
        rw [hgraph]
        exact hcontracted.vertexIdState g
      graph_of_ne := fun i hi => by
        rw [hgraph, if_neg hi]
        exact Graph.ext (hcontracted.vertices i)
          (hcontracted.edges_of_ne i hi) (hcontracted.vertexIdState i)
      function := hfunction.trans hcontracted.function
      nextVertex := hnextVertex.trans hcontracted.nextVertex
      nextEdge := hnextEdge.trans hcontracted.nextEdge }

/-- A redundant vertex passes control on to one vertex only. -/
theorem Consistent.passesOn_unique (hc : h.Consistent) {u v w : VertexPtr}
    (hv : h.PassesOn g u v) (hw : h.PassesOn g u w) : v = w := by
  obtain ⟨hu, e, he, rfl, rfl⟩ := hv
  obtain ⟨_, d, hd, hdu, rfl⟩ := hw
  obtain ⟨a, b, ha, hb, _⟩ := hc.exists_edges hu
  obtain ⟨_, hsource, _⟩ := hc.edges_eq ha hb
  rw [(hsource e).mp rfl, (hsource d).mp hdu]

/-- So there is one vertex at the end of the chain. -/
theorem Consistent.survivor_unique (hc : h.Consistent) {u v w : VertexPtr}
    (huv : ReflTransGen (h.PassesOn g) u v) (hv : h.isRedundant v = false)
    (huw : ReflTransGen (h.PassesOn g) u w) (hw : h.isRedundant w = false) :
    v = w := by
  induction huv using ReflTransGen.head_induction_on with
  | refl =>
      rcases huw.cases_head with heq | ⟨x, hstep, _⟩
      · exact heq
      · rw [hstep.1] at hv
        exact absurd hv (by decide)
  | @head u x hstep _ ih =>
      rcases huw.cases_head with heq | ⟨y, hstep', hyw⟩
      · rw [← heq, hstep.1] at hw
        exact absurd hw (by decide)
      · obtain rfl := hc.passesOn_unique hstep hstep'
        exact ih hyw

/-- The graph that is left is determined by the graph at the start. -/
theorem RedundantRemoved.unique (hc : h.Consistent) {h₁ h₂ : Heap}
    (h₁' : h.RedundantRemoved g h₁) (h₂' : h.RedundantRemoved g h₂) :
    h₁ = h₂ := by
  have hmem : ∀ e, e ∈ (h₁.graph g).edges ↔ e ∈ (h₂.graph g).edges :=
    fun e => (h₁'.mem_edges e).trans (h₂'.mem_edges e).symm
  have hedge : h₁.edge = h₂.edge := by
    funext e
    by_cases he : e ∈ (h₁.graph g).edges
    · obtain ⟨w₁, hw₁, hstay₁, hedge₁⟩ := h₁'.edge e he
      obtain ⟨w₂, hw₂, hstay₂, hedge₂⟩ := h₂'.edge e ((hmem e).mp he)
      rw [hedge₁, hedge₂, hc.survivor_unique hw₁ hstay₁ hw₂ hstay₂]
    · by_cases hold : e ∈ (h.graph g).edges
      · rw [h₁'.detached e hold he,
          h₂'.detached e hold fun he₂ => he ((hmem e).mpr he₂)]
      · rw [h₁'.edge_of_notMem e hold, h₂'.edge_of_notMem e hold]
  have hvertex : h₁.vertex = h₂.vertex := by
    funext v
    have hout : (h₁.vertex v).outEdges = (h₂.vertex v).outEdges := by
      ext e
      rw [h₁'.consistent.mem_outEdges, h₂'.consistent.mem_outEdges, hedge]
    have hin : (h₁.vertex v).inEdges = (h₂.vertex v).inEdges := by
      ext e
      rw [h₁'.consistent.mem_inEdges, h₂'.consistent.mem_inEdges, hedge]
    obtain ⟨out₁, in₁, hv₁⟩ := h₁'.vertex v
    obtain ⟨out₂, in₂, hv₂⟩ := h₂'.vertex v
    rw [hv₁, hv₂] at hout hin ⊢
    dsimp only at hout hin
    rw [hout, hin]
  have hgraph : h₁.graph = h₂.graph := by
    funext i
    by_cases hi : i = g
    · subst hi
      refine Graph.ext (Finset.ext fun v => ?_) (Finset.ext hmem) ?_
      · exact (h₁'.mem_vertices v).trans (h₂'.mem_vertices v).symm
      · rw [h₁'.vertexIdState, h₂'.vertexIdState]
    · rw [h₁'.graph_of_ne i hi, h₂'.graph_of_ne i hi]
  have hfunction := h₁'.function.trans h₂'.function.symm
  have hnextVertex := h₁'.nextVertex.trans h₂'.nextVertex.symm
  have hnextEdge := h₁'.nextEdge.trans h₂'.nextEdge.symm
  cases h₁
  cases h₂
  congr

end removed

/-- Whenever the loop finds a vertex redundant, it schedules it for removal. -/
def SchedulesAll (h : Heap) (order : IterationOrder) (g : GraphPtr) : Prop :=
  ∀ pre v post, order.vertices.enum (h.graph g).vertices = pre ++ v :: post →
    ∃ k removed k',
      pre.foldlM (removeRedundantNode order g) (h, []) = .ok (k, removed) ∧
        removeRedundantNode order g (k, removed) v =
          .ok (k', if k.isRedundant v then removed ++ [v] else removed)

theorem Consistent.schedulesAll {h : Heap} {g : GraphPtr} (hc : h.Consistent)
    (hM : h.Encloses g (h.graph g).vertices) (order : IterationOrder) :
    h.SchedulesAll order g := by
  intro pre v post hwalk
  have hV : ∀ v ∈ (h.graph g).vertices, v ∈ ((h.graph g).vertices : Set _) :=
    fun _ hv => hv
  obtain ⟨k, hloop, _, hsame⟩ := hc.foldlM_removeRedundantNode hM hV order hwalk
  have hwalk' : order.vertices.enum (h.graph g).vertices =
      (pre ++ [v]) ++ post := by rw [hwalk, List.append_assoc]; rfl
  obtain ⟨k', hloop', _⟩ := hc.foldlM_removeRedundantNode hM hV order hwalk'
  refine ⟨k, _, k', hloop, ?_⟩
  rw [foldlM_append_singleton _ hloop] at hloop'
  rw [hloop', List.filter_append, List.filter_singleton, cond_eq_ite, hsame v]
  · split_ifs
    · rfl
    · rw [List.append_nil]
  · have hnodup := order.vertices.nodup_enum (h.graph g).vertices
    rw [hwalk, List.nodup_append] at hnodup
    exact fun hv => hnodup.2.2 v hv v List.mem_cons_self rfl

end Heap

/-- An endless loop over a statement. -/
def spinLoop : List Statement :=
  [.label "L", .noOp, .gotoUnlinked "L"]

/-- The back edge of `spinLoop` leaves the goto 6, which is contracted: the
edge from the statement 2 takes its place. -/
theorem spinLoop_flow :
    ∃ h : Heap, (∃ k, (Heap.singleFunction spinLoop).2.connectedFlow 1
        (Heap.singleFunction spinLoop).1 = .ok k ∧
          k.fixupBackEdges .ascending 1 4 = .ok h) ∧
      h.Consistent ∧ h.Encloses 1 (h.graph 1).vertices ∧
        Acyclic (h.UnmarkedStep 1) ∧
          (h.removeRedundantNodes .ascending 1).Holds fun h' =>
            h'.UnmarkedStep 1 1 2 ∧ h'.UnmarkedStep 1 2 1 := by
  have hf := Heap.singleFunction_fresh spinLoop
  obtain ⟨k, ρ, hrun, hk⟩ := connectedFlow_spec hf
  have hcheck : ((Heap.singleFunction spinLoop).2.connectedFlow 1
      (Heap.singleFunction spinLoop).1).Holds fun k =>
      4 = (Heap.singleFunction spinLoop).2.entryPtr ∧
      (k.fixupBackEdges .ascending 1 4).Holds fun h =>
        (∀ e ∈ (h.graph 1).edges, (h.edge e).source ∈ (h.graph 1).vertices ∧
          (h.edge e).target ∈ (h.graph 1).vertices) ∧
        (∀ e ∈ (h.graph 1).edges, (h.edge e).isBackEdge = false →
          [6, 2, 1, 4].idxOf (h.edge e).target <
            [6, 2, 1, 4].idxOf (h.edge e).source) ∧
        (h.removeRedundantNodes .ascending 1).Holds fun h' =>
          h'.UnmarkedStep 1 1 2 ∧ h'.UnmarkedStep 1 2 1 := by
    decide +kernel
  obtain ⟨_, hok, hentry, h, hfixup, hends, hrank, hsteps⟩ := hcheck
  obtain rfl := Except.ok.inj (hrun.symm.trans hok)
  rcases hk.consistent.fixupBackEdges_spec .ascending 1 4 with
    ⟨_, herror⟩ | ⟨_, h₁, hok', hfix⟩
  · rw [hfixup] at herror
    exact absurd herror (by simp)
  · obtain rfl := Except.ok.inj (hfixup.symm.trans hok')
    have hM := hfix.encloses hk.consistent hk.encloses
      (hentry ▸ hk.roots_owned hf .ascending)
    refine ⟨h, ⟨k, hrun, hfixup⟩, hfix.consistent, hM.subset (fun v hv => ?_)
      hends, ?_, hsteps⟩
    · rw [hfix.vertices] at hv
      exact hk.vertices_subset hf hv
    · refine Acyclic.of_rank [6, 2, 1, 4].idxOf ?_
      rintro u v ⟨e, he, rfl, rfl, hmark⟩
      exact hrank e he hmark

/-- `RemoveRedundantNodes` leaves the same graph for every order, schedules all
it contracts, and has nothing left to do in a second call. -/
theorem removeRedundantNodes_removed {h : Heap} (hc : h.Consistent)
    {g : GraphPtr} (hM : h.Encloses g (h.graph g).vertices) :
    ∃ h', h.RedundantRemoved g h' ∧
      (∀ order, h.removeRedundantNodes order g = .ok h' ∧
        h.SchedulesAll order g) ∧
      ∀ order, h'.removeRedundantNodes order g = .ok h' := by
  have hrun : ∀ order, ∃ h', h.RedundantRemoved g h' ∧
      h.removeRedundantNodes order g = .ok h' := by
    intro order
    obtain ⟨k, hk, hremove⟩ :=
      hc.removeRedundantNodes_spec hM (fun _ hv => hv) order
    exact ⟨_, hk.redundantRemoved hc hM rfl, hremove⟩
  obtain ⟨h', hremoved, _⟩ := hrun .ascending
  refine ⟨h', hremoved, fun order => ⟨?_, hc.schedulesAll hM order⟩,
    fun order => ?_⟩
  · obtain ⟨h'', hremoved', hremove⟩ := hrun order
    rw [hremove, hremoved.unique hc hremoved']
  · have hnone : h'.redundantVertices order g = [] := by
      rw [Heap.redundantVertices, List.filter_eq_nil_iff]
      intro v hv
      rw [hremoved.isRedundant v ((order.vertices.mem_enum _).mp hv)]
      decide
    obtain ⟨k, hk, hremove⟩ := hremoved.consistent.removeRedundantNodes_spec
      hremoved.encloses (fun _ hv => hv) order
    rw [hnone] at hk hremove
    rw [hk.eq_of_nil] at hremove
    exact hremove

theorem removeRedundantNodes_removed_spinLoop :
    ∃ h : Heap, (∃ k, (Heap.singleFunction spinLoop).2.connectedFlow 1
        (Heap.singleFunction spinLoop).1 = .ok k ∧
          k.fixupBackEdges .ascending 1 4 = .ok h) ∧
      ∃ h', h.RedundantRemoved 1 h' ∧
        (∀ order, h.removeRedundantNodes order 1 = .ok h' ∧
          h.SchedulesAll order 1) ∧
        ∀ order, h'.removeRedundantNodes order 1 = .ok h' := by
  obtain ⟨h, hrun, hc, hM, _⟩ := spinLoop_flow
  exact ⟨h, hrun, removeRedundantNodes_removed hc hM⟩

/-! ## Loops stay cut -/

section loops

variable {h h' : Heap} {g : GraphPtr}

/-- A step along an edge that is not marked, or whose mark is lost: it leaves a
redundant vertex. -/
def Heap.UncutStep (h : Heap) (g : GraphPtr) (u w : VertexPtr) : Prop :=
  ∃ e ∈ (h.graph g).edges, (h.edge e).source = u ∧ (h.edge e).target = w ∧
    ((h.edge e).isBackEdge = false ∨ h.isRedundant u = true)

theorem Heap.uncutStep_eq (h : Heap) (g : GraphPtr) :
    h.UncutStep g = Stepwise (h.UnmarkedStep g) (h.EdgeStep g)
      (fun v => h.isRedundant v = true) := by
  funext u w
  refine propext ⟨?_, ?_⟩
  · rintro ⟨e, he, hsource, htarget, hmark⟩
    by_cases hu : h.isRedundant u = true
    · exact .inr ⟨hu, e, he, hsource, htarget⟩
    · exact .inl ⟨hu, e, he, hsource, htarget, hmark.resolve_right hu⟩
  · rintro (⟨_, e, he, hsource, htarget, hmark⟩ | ⟨hu, e, he, hsource, htarget⟩)
    · exact ⟨e, he, hsource, htarget, .inl hmark⟩
    · exact ⟨e, he, hsource, htarget, .inr hu⟩

/-- The unmarked edges that are left: an unmarked edge, and the chain behind
it. -/
theorem Heap.RedundantRemoved.unmarkedStep_eq (hc : h.Consistent)
    (hremoved : h.RedundantRemoved g h') :
    h'.UnmarkedStep g = Skip (h.UnmarkedStep g) (h.EdgeStep g)
      (fun v => h.isRedundant v = true) := by
  funext u w
  refine propext ⟨?_, ?_⟩
  · rintro ⟨e, he, hsource, htarget, hmark⟩
    obtain ⟨x, hchain, hx, hedge⟩ := hremoved.edge e he
    obtain ⟨hold, hstay⟩ := (hremoved.mem_edges e).mp he
    rw [hedge] at hsource htarget hmark
    dsimp only at hsource htarget hmark
    subst hsource htarget
    exact ⟨ne_true_of_eq_false hstay, _, ⟨e, hold, rfl, rfl, hmark⟩, hchain,
      ne_true_of_eq_false hx⟩
  · rintro ⟨hu, y, ⟨e, he, rfl, rfl, hmark⟩, hchain, hw⟩
    rw [Bool.not_eq_true] at hu hw
    have hmem := (hremoved.mem_edges e).mpr ⟨he, hu⟩
    obtain ⟨x, hchain', hx, hedge⟩ := hremoved.edge e hmem
    have hxw : x = w := hc.survivor_unique hchain' hx hchain hw
    refine ⟨e, hmem, ?_⟩
    rw [hedge]
    exact ⟨rfl, hxw, hmark⟩

end loops

/-- After `RemoveRedundantNodes` every cycle has a marked edge exactly when
every cycle through a vertex that stays had a marked edge that leaves a vertex
that stays. -/
theorem removeRedundantNodes_keepsLoopsCut_iff {h : Heap} (hc : h.Consistent)
    {g : GraphPtr} (hM : h.Encloses g (h.graph g).vertices)
    (order : IterationOrder) :
    (h.removeRedundantNodes order g).Holds
        (fun h' => Acyclic (h'.UnmarkedStep g)) ↔
      ∀ v ∈ (h.graph g).vertices, h.isRedundant v = false →
        ¬ TransGen (h.UncutStep g) v v := by
  obtain ⟨k, hk, hremove⟩ :=
    hc.removeRedundantNodes_spec hM (fun _ hv => hv) order
  have hremoved := hk.redundantRemoved hc hM rfl
  rw [hremove, Result.holds_ok, hremoved.unmarkedStep_eq hc, Acyclic,
    forall_not_transGen_skip_iff, ← h.uncutStep_eq g]
  constructor
  · intro hcut v _ hv
    exact hcut v (ne_true_of_eq_false hv)
  · intro hcut v hv hcycle
    obtain ⟨w, ⟨e, he, hsource, _⟩, _⟩ := TransGen.head'_iff.mp hcycle
    refine hcut v ?_ (Bool.not_eq_true _ ▸ hv) hcycle
    exact hsource ▸ (hM.mem_edges_source e).mp he

theorem removeRedundantNodes_spinLoop :
    ∃ (h : Heap) (g : GraphPtr) (order : IterationOrder),
      h.Consistent ∧ h.Encloses g (h.graph g).vertices ∧
        Acyclic (h.UnmarkedStep g) ∧
          ¬ (h.removeRedundantNodes order g).Holds
            (fun h' => Acyclic (h'.UnmarkedStep g)) := by
  obtain ⟨h, _, hc, hM, hacyclic, h', hremove, hthere, hback⟩ := spinLoop_flow
  refine ⟨h, 1, .ascending, hc, hM, hacyclic, ?_⟩
  rintro ⟨_, hok, hcut⟩
  obtain rfl := Except.ok.inj (hremove.symm.trans hok)
  exact hcut 1 (.tail (.single hthere) hback)

/-- The goto of `whileLoop` has a proxy edge besides the one it jumps back with, so it stays,
and its mark with it. -/
theorem removeRedundantNodes_keepsLoopsCut_iff_whileLoop :
    ∃ h : Heap, (∃ k, (Heap.singleFunction whileLoop).2.connectedFlow 1
        (Heap.singleFunction whileLoop).1 = .ok k ∧
          k.fixupBackEdges .ascending 1 7 = .ok h) ∧
      (∀ v ∈ (h.graph 1).vertices, h.isRedundant v = false →
        ¬ TransGen (h.UncutStep 1) v v) ∧
      (h.removeRedundantNodes .ascending 1).Holds
        (fun h' => Acyclic (h'.UnmarkedStep 1)) := by
  obtain ⟨k, h, hrun, hfixup, hc, hM, -, hfix, ⟨hentry, -⟩, -⟩ := whileLoop_flow
  have hcheck : ((Heap.singleFunction whileLoop).2.connectedFlow 1
      (Heap.singleFunction whileLoop).1).Holds fun k =>
      (k.fixupBackEdges .ascending 1 7).Holds fun h => ∀ e ∈ (h.graph 1).edges,
        (h.edge e).isBackEdge = false ∨ h.isRedundant (h.edge e).source = true →
          [8, 6, 10, 4, 3, 9, 1, 7].idxOf (h.edge e).target <
            [8, 6, 10, 4, 3, 9, 1, 7].idxOf (h.edge e).source := by
    decide +kernel
  obtain ⟨_, hok, _, hok', hrank⟩ := hcheck
  obtain rfl := Except.ok.inj (hrun.symm.trans hok)
  obtain rfl := Except.ok.inj (hfixup.symm.trans hok')
  have hM' : h.Encloses 1 (h.graph 1).vertices := by
    rw [hfix.vertices]
    exact hfix.encloses hc hM (Heap.searchRoots_mem hentry)
  have huncut : Acyclic (h.UncutStep 1) := by
    refine Acyclic.of_rank [8, 6, 10, 4, 3, 9, 1, 7].idxOf ?_
    rintro u w ⟨e, he, rfl, rfl, hmark⟩
    exact hrank e he hmark
  have hcut : ∀ v ∈ (h.graph 1).vertices, h.isRedundant v = false →
      ¬ TransGen (h.UncutStep 1) v v :=
    fun v _ _ => huncut v
  exact ⟨h, ⟨k, hrun, hfixup⟩, hcut,
    (removeRedundantNodes_keepsLoopsCut_iff hfix.consistent hM' .ascending).mpr hcut⟩

end CoFlo.Ports
