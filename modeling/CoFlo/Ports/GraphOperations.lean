import CoFlo.Ports.TranslationUnit

/-!
# Any sequence of graph operations

Where an edge is attached is stored three times: in the edge, in the set of its
source and in the set of its target.  The mutating methods of `Graph` and the
two `Change` methods of `Edge` each update some of these places.  This module
takes the methods as the steps of a machine that works on any number of graphs
and shows that the three places agree after every run (`run_graphConsistent`).

The methods trust their callers: an edge must not be attached twice, a vertex
must be taken out of its graph without edges, and so on.  `Allowed` is what a
caller has to see to.
-/

namespace CoFlo.Ports

/-- The mutating methods of `Graph`, and `ChangeSource` and `ChangeTarget` of
its edges. -/
inductive GraphOperation where
  | addVertex (v : VertexPtr)
  | addEdge (source target : VertexPtr) (e : EdgePtr)
  | removeEdge (e : EdgePtr)
  | removeVertex (v : VertexPtr)
  | replaceVertex (oldVertex newVertex : VertexPtr)
  | changeSource (e : EdgePtr) (source : VertexPtr)
  | changeTarget (e : EdgePtr) (target : VertexPtr)
  deriving DecidableEq, Repr

namespace Heap

/-- What the graph `g` and its vertices and edges say about each other. -/
structure GraphConsistent (h : Heap) (g : GraphPtr) : Prop where
  source_mem : ∀ e ∈ (h.graph g).edges,
    (h.edge e).source ∈ (h.graph g).vertices
  target_mem : ∀ e ∈ (h.graph g).edges,
    (h.edge e).target ∈ (h.graph g).vertices
  mem_outEdges : ∀ e ∈ (h.graph g).edges, ∀ v ∈ (h.graph g).vertices,
    (e ∈ (h.vertex v).outEdges ↔ (h.edge e).source = v)
  mem_inEdges : ∀ e ∈ (h.graph g).edges, ∀ v ∈ (h.graph g).vertices,
    (e ∈ (h.vertex v).inEdges ↔ (h.edge e).target = v)
  outEdges_subset : ∀ v ∈ (h.graph g).vertices,
    (h.vertex v).outEdges ⊆ (h.graph g).edges
  inEdges_subset : ∀ v ∈ (h.graph g).vertices,
    (h.vertex v).inEdges ⊆ (h.graph g).edges
  vertexIndex_injOn : Set.InjOn (fun v => (h.vertex v).vertexIndex)
    ((h.graph g).vertices : Set VertexPtr)

/-- A vertex object without edges that is not in the graph; `home` is the one
graph every vertex is ever put into. -/
def IsNewVertex (home : VertexPtr → GraphPtr) (h : Heap) (g : GraphPtr)
    (v : VertexPtr) : Prop :=
  v ≠ null ∧ home v = g ∧ v ∉ (h.graph g).vertices ∧
    (h.vertex v).outEdges = ∅ ∧ (h.vertex v).inEdges = ∅

instance (home : VertexPtr → GraphPtr) (h : Heap) (g : GraphPtr)
    (v : VertexPtr) : Decidable (IsNewVertex home h g v) :=
  inferInstanceAs (Decidable (v ≠ null ∧ home v = g ∧
    v ∉ (h.graph g).vertices ∧ (h.vertex v).outEdges = ∅ ∧
    (h.vertex v).inEdges = ∅))

end Heap

namespace GraphOperation

/-- Calls the method on the graph `g`. -/
def run (h : Heap) (g : GraphPtr) : GraphOperation → Result Heap
  | addVertex v => h.addVertex g v
  | addEdge source target e => .ok (h.addEdge g source target e)
  | removeEdge e => h.removeEdge g e
  | removeVertex v => .ok (h.removeVertex g v)
  | replaceVertex oldVertex newVertex => h.replaceVertex g oldVertex newVertex
  | changeSource e source => .ok (h.changeSource e source)
  | changeTarget e target => .ok (h.changeTarget e target)

/-- What the caller of the method sees to. -/
def Allowed (home : VertexPtr → GraphPtr) (h : Heap) (g : GraphPtr) :
    GraphOperation → Prop
  | addVertex v => h.IsNewVertex home g v
  | addEdge source target e =>
      source ∈ (h.graph g).vertices ∧ target ∈ (h.graph g).vertices ∧
        (h.edge e).source = null ∧ (h.edge e).target = null
  | removeEdge e => e ∈ (h.graph g).edges
  | removeVertex v =>
      v ∈ (h.graph g).vertices ∧ (h.vertex v).outEdges = ∅ ∧
        (h.vertex v).inEdges = ∅
  | replaceVertex oldVertex newVertex =>
      oldVertex ∈ (h.graph g).vertices ∧ h.IsNewVertex home g newVertex
  | changeSource e source =>
      e ∈ (h.graph g).edges ∧ source ∈ (h.graph g).vertices
  | changeTarget e target =>
      e ∈ (h.graph g).edges ∧ target ∈ (h.graph g).vertices

instance (home : VertexPtr → GraphPtr) (h : Heap) (g : GraphPtr)
    (op : GraphOperation) : Decidable (op.Allowed home h g) := by
  cases op <;> unfold Allowed <;> infer_instance

/-- One step of a run: a method and the graph it is called on. -/
def step (h : Heap) (p : GraphPtr × GraphOperation) : Result Heap :=
  p.2.run h p.1

/-- Every step of the run is one its caller may make. -/
def AllAllowed (home : VertexPtr → GraphPtr) (h : Heap) :
    List (GraphPtr × GraphOperation) → Prop
  | [] => True
  | p :: rest =>
      p.2.Allowed home h p.1 ∧
        ∀ h', step h p = .ok h' → AllAllowed home h' rest

instance instDecidableAllAllowed (home : VertexPtr → GraphPtr) :
    (h : Heap) → (ops : List (GraphPtr × GraphOperation)) →
      Decidable (AllAllowed home h ops)
  | _, [] => isTrue trivial
  | h, p :: rest =>
      match hstep : step h p with
      | .ok h' =>
          have := instDecidableAllAllowed home h' rest
          decidable_of_iff (p.2.Allowed home h p.1 ∧ AllAllowed home h' rest)
            (and_congr_right fun _ => ⟨fun hrest h₁ heq =>
              Except.ok.inj (hstep.symm.trans heq) ▸ hrest,
              fun hrest => hrest h' hstep⟩)
      | .error err =>
          decidable_of_iff (p.2.Allowed home h p.1)
            ⟨fun hp => ⟨hp, fun h₁ heq =>
              absurd (hstep.symm.trans heq) (by simp)⟩, fun hp => hp.1⟩

end GraphOperation

/-! ## The invariant -/

/-- All graphs are consistent, and each vertex is in its own graph. -/
structure GraphsInvariant (home : VertexPtr → GraphPtr) (h : Heap) : Prop where
  consistent : ∀ g, h.GraphConsistent g
  home_eq : ∀ g, ∀ v ∈ (h.graph g).vertices, home v = g
  ne_null : ∀ g, ∀ v ∈ (h.graph g).vertices, v ≠ null
  vertexIndex_lt : ∀ g, ∀ v ∈ (h.graph g).vertices,
    (h.vertex v).vertexIndex < (h.graph g).vertexIdState

/-- The start of a run: no graph holds anything. -/
theorem GraphsInvariant.empty {home : VertexPtr → GraphPtr} {h : Heap}
    (hempty : ∀ g, (h.graph g).vertices = ∅ ∧ (h.graph g).edges = ∅) :
    GraphsInvariant home h where
  consistent g :=
    { source_mem := by simp [(hempty g).2]
      target_mem := by simp [(hempty g).2]
      mem_outEdges := by simp [(hempty g).2]
      mem_inEdges := by simp [(hempty g).2]
      outEdges_subset := by simp [(hempty g).1]
      inEdges_subset := by simp [(hempty g).1]
      vertexIndex_injOn := by simp [(hempty g).1] }
  home_eq g := by simp [(hempty g).1]
  ne_null g := by simp [(hempty g).1]
  vertexIndex_lt g := by simp [(hempty g).1]

namespace GraphsInvariant

variable {home : VertexPtr → GraphPtr} {h h' : Heap} {g : GraphPtr}
  (hi : GraphsInvariant home h)

include hi

/-- An edge of another graph is attached to vertices of that graph. -/
theorem home_source {e : EdgePtr} (he : e ∈ (h.graph g).edges) :
    home (h.edge e).source = g :=
  hi.home_eq g _ ((hi.consistent g).source_mem e he)

/-- No edge is in two graphs. -/
theorem edges_disjoint {k : GraphPtr} {e : EdgePtr}
    (hg : e ∈ (h.graph g).edges) (hk : e ∈ (h.graph k).edges) : g = k :=
  (hi.home_source hg).symm.trans (hi.home_source hk)

/-- No edge of a graph is unattached. -/
theorem attached {e : EdgePtr} (he : e ∈ (h.graph g).edges) :
    (h.edge e).source ≠ null ∧ (h.edge e).target ≠ null :=
  ⟨hi.ne_null g _ ((hi.consistent g).source_mem e he),
    hi.ne_null g _ ((hi.consistent g).target_mem e he)⟩

/-- A step on `g` that leaves the vertices and edges of other graphs alone. -/
theorem of_graph (hgraph : ∀ k, k ≠ g → h'.graph k = h.graph k)
    (hvertex : ∀ v, home v ≠ g → h'.vertex v = h.vertex v)
    (hedge : ∀ k, k ≠ g → ∀ e ∈ (h.graph k).edges, h'.edge e = h.edge e)
    (hg : h'.GraphConsistent g)
    (hself : ∀ v ∈ (h'.graph g).vertices, home v = g ∧ v ≠ null ∧
      (h'.vertex v).vertexIndex < (h'.graph g).vertexIdState) :
    GraphsInvariant home h' := by
  have hv : ∀ k, k ≠ g → ∀ v ∈ (h.graph k).vertices,
      h'.vertex v = h.vertex v := by
    intro k hk v hmem
    apply hvertex
    rw [hi.home_eq k v hmem]
    exact hk
  exact
    { consistent := fun k => by
        by_cases hk : k = g
        · exact hk ▸ hg
        · have hc := hi.consistent k
          exact
            { source_mem := fun e he => by
                rw [hgraph k hk] at he ⊢
                rw [hedge k hk e he]
                exact hc.source_mem e he
              target_mem := fun e he => by
                rw [hgraph k hk] at he ⊢
                rw [hedge k hk e he]
                exact hc.target_mem e he
              mem_outEdges := fun e he v hmem => by
                rw [hgraph k hk] at he hmem
                rw [hedge k hk e he, hv k hk v hmem]
                exact hc.mem_outEdges e he v hmem
              mem_inEdges := fun e he v hmem => by
                rw [hgraph k hk] at he hmem
                rw [hedge k hk e he, hv k hk v hmem]
                exact hc.mem_inEdges e he v hmem
              outEdges_subset := fun v hmem => by
                rw [hgraph k hk] at hmem ⊢
                rw [hv k hk v hmem]
                exact hc.outEdges_subset v hmem
              inEdges_subset := fun v hmem => by
                rw [hgraph k hk] at hmem ⊢
                rw [hv k hk v hmem]
                exact hc.inEdges_subset v hmem
              vertexIndex_injOn := by
                rw [hgraph k hk]
                intro v hmem w hmem' heq
                simp only [hv k hk v hmem, hv k hk w hmem'] at heq
                exact hc.vertexIndex_injOn hmem hmem' heq }
      home_eq := fun k v hmem => by
        by_cases hk : k = g
        · subst hk
          exact (hself v hmem).1
        · rw [hgraph k hk] at hmem
          exact hi.home_eq k v hmem
      ne_null := fun k v hmem => by
        by_cases hk : k = g
        · subst hk
          exact (hself v hmem).2.1
        · rw [hgraph k hk] at hmem
          exact hi.ne_null k v hmem
      vertexIndex_lt := fun k v hmem => by
        by_cases hk : k = g
        · subst hk
          exact (hself v hmem).2.2
        · rw [hgraph k hk] at hmem ⊢
          rw [hv k hk v hmem]
          exact hi.vertexIndex_lt k v hmem }

/-- A step that moves edges of `g` between vertices it has. -/
theorem of_edges (hgraph : ∀ k, k ≠ g → h'.graph k = h.graph k)
    (hvertices : (h'.graph g).vertices = (h.graph g).vertices)
    (hstate : (h'.graph g).vertexIdState = (h.graph g).vertexIdState)
    (hvertex : ∀ v, home v ≠ g → h'.vertex v = h.vertex v)
    (hindex : ∀ v, (h'.vertex v).vertexIndex = (h.vertex v).vertexIndex)
    (hedge : ∀ k, k ≠ g → ∀ e ∈ (h.graph k).edges, h'.edge e = h.edge e)
    (hends : ∀ e ∈ (h'.graph g).edges,
      (h'.edge e).source ∈ (h.graph g).vertices ∧
        (h'.edge e).target ∈ (h.graph g).vertices)
    (hout : ∀ v ∈ (h.graph g).vertices, ∀ e, e ∈ (h'.vertex v).outEdges ↔
      e ∈ (h'.graph g).edges ∧ (h'.edge e).source = v)
    (hin : ∀ v ∈ (h.graph g).vertices, ∀ e, e ∈ (h'.vertex v).inEdges ↔
      e ∈ (h'.graph g).edges ∧ (h'.edge e).target = v) :
    GraphsInvariant home h' := by
  apply hi.of_graph hgraph hvertex hedge
  · exact
      { source_mem := fun e he => by rw [hvertices]; exact (hends e he).1
        target_mem := fun e he => by rw [hvertices]; exact (hends e he).2
        mem_outEdges := fun e he v hv => by
          rw [hvertices] at hv
          rw [hout v hv]
          exact and_iff_right he
        mem_inEdges := fun e he v hv => by
          rw [hvertices] at hv
          rw [hin v hv]
          exact and_iff_right he
        outEdges_subset := fun v hv e he => by
          rw [hvertices] at hv
          exact ((hout v hv e).mp he).1
        inEdges_subset := fun v hv e he => by
          rw [hvertices] at hv
          exact ((hin v hv e).mp he).1
        vertexIndex_injOn := by
          rw [hvertices]
          simp only [hindex]
          exact (hi.consistent g).vertexIndex_injOn }
  · intro v hv
    rw [hvertices] at hv
    rw [hindex, hstate]
    exact ⟨hi.home_eq g v hv, hi.ne_null g v hv, hi.vertexIndex_lt g v hv⟩

/-- The out-edges of a vertex of the graph, as a set of edges of the graph. -/
theorem mem_outEdges_iff {v : VertexPtr} (hv : v ∈ (h.graph g).vertices)
    (e : EdgePtr) : e ∈ (h.vertex v).outEdges ↔
      e ∈ (h.graph g).edges ∧ (h.edge e).source = v := by
  have hc := hi.consistent g
  constructor
  · intro he
    have hmem := hc.outEdges_subset v hv he
    exact ⟨hmem, (hc.mem_outEdges e hmem v hv).mp he⟩
  · intro he
    exact (hc.mem_outEdges e he.1 v hv).mpr he.2

theorem mem_inEdges_iff {v : VertexPtr} (hv : v ∈ (h.graph g).vertices)
    (e : EdgePtr) : e ∈ (h.vertex v).inEdges ↔
      e ∈ (h.graph g).edges ∧ (h.edge e).target = v := by
  have hc := hi.consistent g
  constructor
  · intro he
    have hmem := hc.inEdges_subset v hv he
    exact ⟨hmem, (hc.mem_inEdges e hmem v hv).mp he⟩
  · intro he
    exact (hc.mem_inEdges e he.1 v hv).mpr he.2

theorem ne_of_home {v w : VertexPtr} (hw : w ∈ (h.graph g).vertices)
    (hv : home v ≠ g) : v ≠ w :=
  fun heq => hv (heq ▸ hi.home_eq g w hw)

/-! ## One step of each kind -/

theorem addEdge {s t : VertexPtr} {e : EdgePtr}
    (hs : s ∈ (h.graph g).vertices) (ht : t ∈ (h.graph g).vertices)
    (he : (h.edge e).source = null) :
    GraphsInvariant home (h.addEdge g s t e) := by
  have hnew : ∀ k, e ∉ (h.graph k).edges := fun k hmem =>
    (hi.attached hmem).1 he
  have hc := hi.consistent g
  apply hi.of_edges (g := g)
  · intro k hk
    simp only [Heap.addEdge, Heap.modifyGraph_graph, if_neg hk]
    rfl
  · simp only [Heap.addEdge, Heap.modifyGraph_graph, if_true]
    rfl
  · simp only [Heap.addEdge, Heap.modifyGraph_graph, if_true]
    rfl
  · intro v hv
    rw [Heap.addEdge_vertex, if_neg (hi.ne_of_home hs hv),
      if_neg (hi.ne_of_home ht hv)]
  · intro v
    rw [Heap.addEdge_vertex]
  · intro k hk d hd
    rw [Heap.addEdge_edge, if_neg]
    rintro rfl
    exact hnew k hd
  · intro d hd
    rw [Heap.addEdge_edge]
    rw [Heap.addEdge_graph] at hd
    have hd1 := hc.source_mem d
    have hd2 := hc.target_mem d
    grind
  · intro v hv d
    rw [Heap.addEdge_vertex, Heap.addEdge_edge, Heap.addEdge_graph]
    have hold := hi.mem_outEdges_iff hv d
    have hnot := hnew g
    grind
  · intro v hv d
    rw [Heap.addEdge_vertex, Heap.addEdge_edge, Heap.addEdge_graph]
    have hold := hi.mem_inEdges_iff hv d
    have hnot := hnew g
    grind

theorem changeSource {s : VertexPtr} {e : EdgePtr} (he : e ∈ (h.graph g).edges)
    (hs : s ∈ (h.graph g).vertices) :
    GraphsInvariant home (h.changeSource e s) := by
  have hne := (hi.attached he).1
  have hold := (hi.consistent g).source_mem e he
  have hvertex := Heap.changeSource_vertex h e hne s
  have hgraph := Heap.changeSource_graph h e s
  apply hi.of_edges (g := g)
  · intro k _
    rw [hgraph]
  · rw [hgraph]
  · rw [hgraph]
  · intro v hv
    rw [hvertex, if_neg (hi.ne_of_home hs hv), if_neg (hi.ne_of_home hold hv)]
  · intro v
    rw [hvertex]
  · intro k hk d hd
    rw [Heap.changeSource_edge, if_neg]
    rintro rfl
    exact hk (hi.edges_disjoint hd he)
  · intro d hd
    rw [hgraph] at hd
    rw [Heap.changeSource_edge]
    refine ⟨?_, (hi.consistent g).target_mem d hd⟩
    split_ifs
    · exact hs
    · exact (hi.consistent g).source_mem d hd
  · intro v hv d
    rw [hvertex, Heap.changeSource_edge, hgraph]
    have hiff := hi.mem_outEdges_iff hv d
    grind
  · intro v hv d
    rw [hvertex, Heap.changeSource_edge, hgraph]
    exact hi.mem_inEdges_iff hv d

theorem changeTarget {t : VertexPtr} {e : EdgePtr} (he : e ∈ (h.graph g).edges)
    (ht : t ∈ (h.graph g).vertices) :
    GraphsInvariant home (h.changeTarget e t) := by
  have hne := (hi.attached he).2
  have hold := (hi.consistent g).target_mem e he
  have hvertex := Heap.changeTarget_vertex h e hne t
  have hgraph := Heap.changeTarget_graph h e t
  apply hi.of_edges (g := g)
  · intro k _
    rw [hgraph]
  · rw [hgraph]
  · rw [hgraph]
  · intro v hv
    rw [hvertex, if_neg (hi.ne_of_home ht hv), if_neg (hi.ne_of_home hold hv)]
  · intro v
    rw [hvertex]
  · intro k hk d hd
    rw [Heap.changeTarget_edge, if_neg]
    rintro rfl
    exact hk (hi.edges_disjoint hd he)
  · intro d hd
    rw [hgraph] at hd
    rw [Heap.changeTarget_edge]
    refine ⟨(hi.consistent g).source_mem d hd, ?_⟩
    split_ifs
    · exact ht
    · exact (hi.consistent g).target_mem d hd
  · intro v hv d
    rw [hvertex, Heap.changeTarget_edge, hgraph]
    exact hi.mem_outEdges_iff hv d
  · intro v hv d
    rw [hvertex, Heap.changeTarget_edge, hgraph]
    have hiff := hi.mem_inEdges_iff hv d
    grind

/-- An edge of a graph is attached, so `RemoveEdge` meets no `NULL`. -/
theorem removeEdge {e : EdgePtr} (he : e ∈ (h.graph g).edges) :
    ∃ h', h.removeEdge g e = .ok h' ∧ GraphsInvariant home h' := by
  obtain ⟨hsource, htarget⟩ := hi.attached he
  have hs := (hi.consistent g).source_mem e he
  have ht := (hi.consistent g).target_mem e he
  refine ⟨h.edgeRemoved g e, Heap.removeEdge_eq_ok hsource htarget, ?_⟩
  apply hi.of_edges (g := g)
  · intro k hk
    rw [Heap.edgeRemoved_graph, if_neg hk]
  · rw [Heap.edgeRemoved_graph]
  · rw [Heap.edgeRemoved_graph]
  · intro v hv
    rw [Heap.edgeRemoved_vertex, if_neg (hi.ne_of_home hs hv),
      if_neg (hi.ne_of_home ht hv)]
  · intro v
    rw [Heap.edgeRemoved_vertex]
  · intro k hk d hd
    rw [Heap.edgeRemoved_edge, if_neg]
    rintro rfl
    exact hk (hi.edges_disjoint hd he)
  · intro d hd
    rw [Heap.edgeRemoved_graph, if_pos rfl] at hd
    obtain ⟨hne, hd⟩ := Finset.mem_erase.mp hd
    rw [Heap.edgeRemoved_edge, if_neg hne]
    exact ⟨(hi.consistent g).source_mem d hd, (hi.consistent g).target_mem d hd⟩
  · intro v hv d
    rw [Heap.edgeRemoved_vertex, Heap.edgeRemoved_edge,
      Heap.edgeRemoved_graph, if_pos rfl]
    have hiff := hi.mem_outEdges_iff hv d
    grind
  · intro v hv d
    rw [Heap.edgeRemoved_vertex, Heap.edgeRemoved_edge,
      Heap.edgeRemoved_graph, if_pos rfl]
    have hiff := hi.mem_inEdges_iff hv d
    grind

/-- What is attached to a vertex without edges. -/
theorem ne_ends {v : VertexPtr} (hv : v ∈ (h.graph g).vertices)
    (hout : (h.vertex v).outEdges = ∅) (hin : (h.vertex v).inEdges = ∅)
    {e : EdgePtr} (he : e ∈ (h.graph g).edges) :
    (h.edge e).source ≠ v ∧ (h.edge e).target ≠ v := by
  have hiff := hi.mem_outEdges_iff hv e
  have hiff' := hi.mem_inEdges_iff hv e
  rw [hout] at hiff
  rw [hin] at hiff'
  exact ⟨fun heq => Finset.notMem_empty e (hiff.mpr ⟨he, heq⟩),
    fun heq => Finset.notMem_empty e (hiff'.mpr ⟨he, heq⟩)⟩

theorem removeVertex {v : VertexPtr} (hv : v ∈ (h.graph g).vertices)
    (hout : (h.vertex v).outEdges = ∅) (hin : (h.vertex v).inEdges = ∅) :
    GraphsInvariant home (h.removeVertex g v) := by
  have hc := hi.consistent g
  have hgraph : (h.removeVertex g v).graph g =
      { h.graph g with vertices := (h.graph g).vertices.erase v } := by
    rw [Heap.removeVertex, Heap.modifyGraph_graph, if_pos rfl]
  have hsubset : ∀ w, w ∈ ((h.removeVertex g v).graph g).vertices →
      w ∈ (h.graph g).vertices := by
    rw [hgraph]
    exact fun w hw => Finset.mem_of_mem_erase hw
  have hedges : ((h.removeVertex g v).graph g).edges = (h.graph g).edges := by
    rw [hgraph]
  apply hi.of_graph (g := g)
  · intro k hk
    rw [Heap.removeVertex, Heap.modifyGraph_graph, if_neg hk]
  · exact fun _ _ => rfl
  · exact fun _ _ _ _ => rfl
  · exact
      { source_mem := fun e he => by
          rw [hedges] at he
          rw [hgraph]
          exact Finset.mem_erase.mpr
            ⟨(hi.ne_ends hv hout hin he).1, hc.source_mem e he⟩
        target_mem := fun e he => by
          rw [hedges] at he
          rw [hgraph]
          exact Finset.mem_erase.mpr
            ⟨(hi.ne_ends hv hout hin he).2, hc.target_mem e he⟩
        mem_outEdges := fun e he w hw =>
          hc.mem_outEdges e (hedges ▸ he) w (hsubset w hw)
        mem_inEdges := fun e he w hw =>
          hc.mem_inEdges e (hedges ▸ he) w (hsubset w hw)
        outEdges_subset := fun w hw => by
          rw [hedges]
          exact hc.outEdges_subset w (hsubset w hw)
        inEdges_subset := fun w hw => by
          rw [hedges]
          exact hc.inEdges_subset w (hsubset w hw)
        vertexIndex_injOn := hc.vertexIndex_injOn.mono hsubset }
  · intro w hw
    have hw := hsubset w hw
    rw [hgraph]
    exact ⟨hi.home_eq g w hw, hi.ne_null g w hw, hi.vertexIndex_lt g w hw⟩

/-- One more vertex with the next index. -/
theorem vertexIndex_injOn_insert {v : VertexPtr}
    (hself : (h'.vertex v).vertexIndex = (h.graph g).vertexIdState)
    (hother : ∀ w ∈ (h.graph g).vertices,
      (h'.vertex w).vertexIndex = (h.vertex w).vertexIndex) :
    Set.InjOn (fun w => (h'.vertex w).vertexIndex)
      (insert v (h.graph g).vertices : Finset VertexPtr) := by
  have hlt : ∀ w ∈ (h.graph g).vertices,
      (h'.vertex w).vertexIndex < (h'.vertex v).vertexIndex := by
    intro w hw
    rw [hself, hother w hw]
    exact hi.vertexIndex_lt g w hw
  intro u hu w hw heq
  have heq : (h'.vertex u).vertexIndex = (h'.vertex w).vertexIndex := heq
  rcases Finset.mem_insert.mp hu with huv | hu'
  · rcases Finset.mem_insert.mp hw with hwv | hw'
    · exact huv.trans hwv.symm
    · rw [huv] at heq
      exact absurd heq (Nat.ne_of_gt (hlt w hw'))
  · rcases Finset.mem_insert.mp hw with hwv | hw'
    · rw [hwv] at heq
      exact absurd heq (Nat.ne_of_lt (hlt u hu'))
    · rw [hother u hu', hother w hw'] at heq
      exact (hi.consistent g).vertexIndex_injOn hu' hw' heq

theorem addVertex {v : VertexPtr} (hv : h.IsNewVertex home g v) :
    ∃ h', h.addVertex g v = .ok h' ∧ GraphsInvariant home h' := by
  obtain ⟨hne, hhome, hnew, hout, hin⟩ := hv
  have hc := hi.consistent g
  have hgraph : (h.vertexAdded g v).graph g =
      { vertices := insert v (h.graph g).vertices
        edges := (h.graph g).edges
        vertexIdState := (h.graph g).vertexIdState + 1 } := by
    rw [Heap.vertexAdded_graph, if_pos rfl]
  refine ⟨h.vertexAdded g v, Heap.addVertex_eq_ok hnew, ?_⟩
  have hself : ((h.vertexAdded g v).vertex v).vertexIndex =
      (h.graph g).vertexIdState := by
    rw [Heap.vertexAdded_vertex]
    exact if_pos rfl
  have hother : ∀ w ∈ (h.graph g).vertices,
      ((h.vertexAdded g v).vertex w).vertexIndex =
        (h.vertex w).vertexIndex := by
    intro w hw
    rw [Heap.vertexAdded_vertex]
    exact if_neg fun heq : w = v => hnew (heq ▸ hw)
  -- The vertex has no edges, and no edge of the graph has it.
  have hends : ∀ e ∈ (h.graph g).edges,
      (h.edge e).source ≠ v ∧ (h.edge e).target ≠ v := fun e he =>
    ⟨fun heq => hnew (heq ▸ hc.source_mem e he),
      fun heq => hnew (heq ▸ hc.target_mem e he)⟩
  apply hi.of_graph (g := g)
  · intro k hk
    rw [Heap.vertexAdded_graph, if_neg hk]
  · intro w hw
    have hwv : w ≠ v := by
      intro heq
      rw [heq] at hw
      exact hw hhome
    rw [Heap.vertexAdded_vertex, if_neg hwv]
  · exact fun _ _ _ _ => rfl
  · exact
      { source_mem := fun e he => by
          rw [hgraph] at he ⊢
          exact Finset.mem_insert_of_mem (hc.source_mem e he)
        target_mem := fun e he => by
          rw [hgraph] at he ⊢
          exact Finset.mem_insert_of_mem (hc.target_mem e he)
        mem_outEdges := fun e he w hw => by
          rw [hgraph] at he hw
          rw [Heap.vertexAdded_vertex, Heap.vertexAdded_edge]
          have hiff := hc.mem_outEdges e he w
          have hne := hends e he
          grind
        mem_inEdges := fun e he w hw => by
          rw [hgraph] at he hw
          rw [Heap.vertexAdded_vertex, Heap.vertexAdded_edge]
          have hiff := hc.mem_inEdges e he w
          have hne := hends e he
          grind
        outEdges_subset := fun w hw => by
          rw [hgraph] at hw ⊢
          rw [Heap.vertexAdded_vertex]
          have hsub := hc.outEdges_subset w
          grind
        inEdges_subset := fun w hw => by
          rw [hgraph] at hw ⊢
          rw [Heap.vertexAdded_vertex]
          have hsub := hc.inEdges_subset w
          grind
        vertexIndex_injOn := by
          rw [hgraph]
          exact hi.vertexIndex_injOn_insert hself hother }
  · intro w hw
    rw [hgraph] at hw ⊢
    rcases Finset.mem_insert.mp hw with rfl | hw
    · exact ⟨hhome, hne, by rw [hself]; exact Nat.lt_succ_self _⟩
    · rw [hother w hw]
      exact ⟨hi.home_eq g w hw, hi.ne_null g w hw,
        Nat.lt_succ_of_lt (hi.vertexIndex_lt g w hw)⟩

/-- The new vertex takes over the edges, and their ends with them. -/
theorem replaceVertex {oldVertex newVertex : VertexPtr}
    (hold : oldVertex ∈ (h.graph g).vertices)
    (hnew : h.IsNewVertex home g newVertex) :
    ∃ h', h.replaceVertex g oldVertex newVertex = .ok h' ∧
      GraphsInvariant home h' := by
  obtain ⟨hnull, hhome, hnotMem, hout, hin⟩ := hnew
  have hc := hi.consistent g
  have hne : oldVertex ≠ newVertex := fun heq => hnotMem (heq ▸ hold)
  have hvertex := Heap.vertexReplaced_vertex h g hne
  refine ⟨h.vertexReplaced g oldVertex newVertex,
    Heap.replaceVertex_eq_ok hnotMem, ?_⟩
  have hgraph : (h.vertexReplaced g oldVertex newVertex).graph g =
      { vertices := (insert newVertex (h.graph g).vertices).erase oldVertex
        edges := (h.graph g).edges
        vertexIdState := (h.graph g).vertexIdState + 1 } := by
    rw [Heap.vertexReplaced_graph, if_pos rfl]
  -- The edges of the old vertex, read off the edges themselves.
  have hsource : ∀ e ∈ (h.graph g).edges,
      ((h.vertexReplaced g oldVertex newVertex).edge e).source =
        if (h.edge e).source = oldVertex then newVertex
        else (h.edge e).source := by
    intro e he
    rw [Heap.vertexReplaced_edge]
    have hiff := hc.mem_outEdges e he oldVertex hold
    grind
  have htarget : ∀ e ∈ (h.graph g).edges,
      ((h.vertexReplaced g oldVertex newVertex).edge e).target =
        if (h.edge e).target = oldVertex then newVertex
        else (h.edge e).target := by
    intro e he
    rw [Heap.vertexReplaced_edge]
    have hiff := hc.mem_inEdges e he oldVertex hold
    grind
  have hself : ((h.vertexReplaced g oldVertex newVertex).vertex
      newVertex).vertexIndex = (h.graph g).vertexIdState := by
    rw [Heap.vertexReplaced_vertexIndex, if_pos rfl]
  have hother : ∀ w ∈ (h.graph g).vertices,
      ((h.vertexReplaced g oldVertex newVertex).vertex w).vertexIndex =
        (h.vertex w).vertexIndex := by
    intro w hw
    rw [Heap.vertexReplaced_vertexIndex]
    exact if_neg fun heq : w = newVertex => hnotMem (heq ▸ hw)
  have hmem : ∀ w, w ∈ ((h.vertexReplaced g oldVertex
      newVertex).graph g).vertices ↔
        w ≠ oldVertex ∧ (w = newVertex ∨ w ∈ (h.graph g).vertices) := by
    intro w
    rw [hgraph, Finset.mem_erase, Finset.mem_insert]
  have hedges : ((h.vertexReplaced g oldVertex newVertex).graph g).edges =
      (h.graph g).edges := by
    rw [hgraph]
  apply hi.of_graph (g := g)
  · intro k hk
    rw [Heap.vertexReplaced_graph, if_neg hk]
  · intro w hw
    have hwnew : w ≠ newVertex := by
      intro heq
      rw [heq] at hw
      exact hw hhome
    have hwold := hi.ne_of_home hold hw
    rw [hvertex, if_neg hwnew, if_neg hwnew, if_neg hwnew, if_neg hwold,
      if_neg hwold]
  · intro k hk e he
    have hnot : e ∉ (h.graph g).edges := fun hmem =>
      hk (hi.edges_disjoint he hmem)
    rw [Heap.vertexReplaced_edge,
      if_neg fun hmem => hnot (hc.outEdges_subset oldVertex hold hmem),
      if_neg fun hmem => hnot (hc.inEdges_subset oldVertex hold hmem)]
  · exact
      { source_mem := fun e he => by
          rw [hedges] at he
          rw [hmem, hsource e he]
          have hold' := hc.source_mem e he
          grind
        target_mem := fun e he => by
          rw [hedges] at he
          rw [hmem, htarget e he]
          have hold' := hc.target_mem e he
          grind
        mem_outEdges := fun e he w hw => by
          rw [hedges] at he
          rw [hmem] at hw
          rw [hsource e he, hvertex]
          have hiff := hc.mem_outEdges e he oldVertex hold
          have hiff' := hc.mem_outEdges e he w
          have hmem' := hc.source_mem e he
          grind
        mem_inEdges := fun e he w hw => by
          rw [hedges] at he
          rw [hmem] at hw
          rw [htarget e he, hvertex]
          have hiff := hc.mem_inEdges e he oldVertex hold
          have hiff' := hc.mem_inEdges e he w
          have hmem' := hc.target_mem e he
          grind
        outEdges_subset := fun w hw => by
          rw [hmem] at hw
          rw [hedges, hvertex]
          have hsub := hc.outEdges_subset oldVertex hold
          have hsub' := hc.outEdges_subset w
          grind
        inEdges_subset := fun w hw => by
          rw [hmem] at hw
          rw [hedges, hvertex]
          have hsub := hc.inEdges_subset oldVertex hold
          have hsub' := hc.inEdges_subset w
          grind
        vertexIndex_injOn :=
          (hi.vertexIndex_injOn_insert hself hother).mono fun w hw =>
            Finset.mem_insert.mpr ((hmem w).mp hw).2 }
  · intro w hw
    rw [hmem] at hw
    rcases hw.2 with rfl | hw
    · exact ⟨hhome, hnull, by rw [hself, hgraph]; exact Nat.lt_succ_self _⟩
    · rw [hother w hw, hgraph]
      exact ⟨hi.home_eq g w hw, hi.ne_null g w hw,
        Nat.lt_succ_of_lt (hi.vertexIndex_lt g w hw)⟩

/-- An allowed step does not throw, and keeps the invariant. -/
theorem step {p : GraphPtr × GraphOperation}
    (hp : p.2.Allowed home h p.1) :
    ∃ h', GraphOperation.step h p = .ok h' ∧ GraphsInvariant home h' := by
  obtain ⟨g, op⟩ := p
  cases op with
  | addVertex v => exact hi.addVertex hp
  | addEdge source target e =>
      obtain ⟨hs, ht, he, _⟩ := hp
      exact ⟨_, rfl, hi.addEdge hs ht he⟩
  | removeEdge e => exact hi.removeEdge hp
  | removeVertex v =>
      obtain ⟨hv, hout, hin⟩ := hp
      exact ⟨_, rfl, hi.removeVertex hv hout hin⟩
  | replaceVertex oldVertex newVertex => exact hi.replaceVertex hp.1 hp.2
  | changeSource e source => exact ⟨_, rfl, hi.changeSource hp.1 hp.2⟩
  | changeTarget e target => exact ⟨_, rfl, hi.changeTarget hp.1 hp.2⟩

end GraphsInvariant

/-- A run of allowed steps does not throw, and keeps the invariant. -/
theorem GraphsInvariant.run {home : VertexPtr → GraphPtr} {h : Heap}
    (hi : GraphsInvariant home h) {ops : List (GraphPtr × GraphOperation)}
    (hops : GraphOperation.AllAllowed home h ops) :
    ∃ h', ops.foldlM GraphOperation.step h = .ok h' ∧
      GraphsInvariant home h' := by
  induction ops generalizing h with
  | nil => exact ⟨h, rfl, hi⟩
  | cons p rest ih =>
      obtain ⟨h₁, hstep, hi₁⟩ := hi.step hops.1
      obtain ⟨h', hfold, hi'⟩ := ih hi₁ (hops.2 h₁ hstep)
      refine ⟨h', ?_, hi'⟩
      rw [List.foldlM_cons, hstep]
      exact hfold

/-- Whatever is done to graphs that were empty at first leaves them
consistent. -/
theorem run_graphConsistent {home : VertexPtr → GraphPtr} {h : Heap}
    {ops : List (GraphPtr × GraphOperation)}
    (hempty : ∀ g, (h.graph g).vertices = ∅ ∧ (h.graph g).edges = ∅)
    (hops : GraphOperation.AllAllowed home h ops) :
    ∃ h', ops.foldlM GraphOperation.step h = .ok h' ∧
      ∀ g, h'.GraphConsistent g := by
  obtain ⟨h', hfold, hi⟩ := (GraphsInvariant.empty hempty).run hops
  exact ⟨h', hfold, hi.consistent⟩

/-- All seven operations, with parallel and self edges. -/
def rebuiltGraph : List (GraphPtr × GraphOperation) :=
  [(1, .addVertex 1), (1, .addVertex 2), (1, .addEdge 1 2 1),
    (1, .addEdge 1 2 2), (1, .addEdge 2 2 3), (1, .changeSource 1 2),
    (1, .changeTarget 3 1), (1, .replaceVertex 2 3), (1, .removeEdge 2),
    (1, .addVertex 4), (1, .removeVertex 4)]

theorem run_graphConsistent_rebuiltGraph :
    ∃ h', rebuiltGraph.foldlM GraphOperation.step
        (Heap.blank fun _ => ⟨.noOp, .unknown, null, ∅, ∅, 0⟩) = .ok h' ∧
      ∀ g, h'.GraphConsistent g := by
  have hops : GraphOperation.AllAllowed (fun _ => 1)
      (Heap.blank fun _ => ⟨.noOp, .unknown, null, ∅, ∅, 0⟩) rebuiltGraph := by
    decide +kernel
  exact run_graphConsistent (fun _ => ⟨rfl, rfl⟩) hops

end CoFlo.Ports
