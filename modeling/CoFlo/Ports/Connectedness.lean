import CoFlo.Ports.AcyclicFlow
import CoFlo.Ports.CreateControlFlowGraph

/-!
# Is the graph connected?

`AddImpossibleEdges` is there to keep the graph connected where a basic block
leader has no jump to it.  It goes by pointers recorded before linking, and
only looks at in-degrees, so two things can be wrong with the graph in the
end: an edge may end at a vertex that has been replaced, and a block that only
jumps to itself is not attached to anything.  `createControlFlowGraph_connected_iff`
says for which lists neither happens.
-/

namespace CoFlo.Ports

open CoFlo.Verified.DepthFirstSearch CoFlo.Verified.Detours Relation

/-- Along one of the arcs. -/
def ArcStep (arcs : List Arc) (u v : VertexPtr) : Prop :=
  ∃ a ∈ arcs, a.source = u ∧ a.target = v

namespace Heap

/-! ## The two conditions on the list -/

section conditions

variable (h : Heap) (l : List VertexPtr)

/-- No edge of `AddImpossibleEdges` ends at a statement that linking has
replaced. -/
def NoStaleEdge : Prop :=
  ∀ a ∈ h.impossibleArcs l,
    h.replacement l a.source = none ∧ h.replacement l a.target = none

/-- The flow of control with the edges of `AddImpossibleEdges`. -/
def connectedArcs : List Arc :=
  h.linkedArcs l ++ h.impossibleArcs l

/-- The statement that stands in the graph for a vertex. -/
def linkedStatementOf (v : VertexPtr) : Statement :=
  (h.replacement l v).getD (h.statementOf v)

/-- A goto or compiler-generated label with one way in and one way out. -/
def isPassThrough (v : VertexPtr) : Bool :=
  (h.linkedStatementOf l v).isRedundantKind &&
    ((h.connectedArcs l).countP (·.target = v) = 1 &&
      (h.connectedArcs l).countP (·.source = v) = 1)

/-- Every place of the list is reached from ENTRY, or is contracted away. -/
def AllReached : Prop :=
  ∀ v ∈ h.originals l,
    ReflTransGen (ArcStep (h.connectedArcs l)) h.entryPtr v ∨
      h.isPassThrough l v = true

end conditions

/-- Every edge of the graph has both ends in `V`. -/
def EdgesWithin (k : Heap) (g : GraphPtr) (V : Set VertexPtr) : Prop :=
  ∀ e ∈ (k.graph g).edges, (k.edge e).source ∈ V ∧ (k.edge e).target ∈ V

/-- "Well formed and connected": no edge leads out of the vertex set, and
every vertex is reached from `entry`. -/
structure Connected (k : Heap) (g : GraphPtr) (entry : VertexPtr) : Prop where
  edges : k.EdgesWithin g (k.graph g).vertices
  reached : ∀ v ∈ (k.graph g).vertices, ReflTransGen (k.EdgeStep g) entry v

/-! ## Edges within the vertex set -/

section within

variable {k c f : Heap} {g : GraphPtr} {V : Set VertexPtr}

theorem edgesWithin_iff_arcs : k.EdgesWithin g V ↔
    ∀ a ∈ k.arcs g, a.source ∈ V ∧ a.target ∈ V := by
  simp [EdgesWithin, arcs, arc]

theorem edgeStep_iff_arcs (u w : VertexPtr) : k.EdgeStep g u w ↔
    ∃ a ∈ k.arcs g, a.source = u ∧ a.target = w := by
  simp [EdgeStep, arcs, arc]

/-- Contractions neither make nor mend an edge out of a set with all the
contracted vertices in it. -/
theorem ContractsTo.edgesWithin_iff {vs : List VertexPtr}
    (hk : ContractsTo g f vs c) (hc : f.Consistent) (hvs : ∀ v ∈ vs, v ∈ V) :
    c.EdgesWithin g V ↔ f.EdgesWithin g V := by
  induction hk with
  | refl => exact Iff.rfl
  | @contract vs k v a b hk hv ha hb hag hbg ih =>
      rw [← ih fun w hw => hvs w (List.mem_append_left _ hw)]
      obtain ⟨htarget, hsource, _⟩ := (hk.consistent hc).edges_eq ha hb
      have hvV : v ∈ V := hvs v (by simp)
      have hav := (htarget a).mpr rfl
      have hbv := (hsource b).mpr rfl
      have hmem : ∀ e, e ∈ ((k.contract g a b).graph g).edges ↔
          e ≠ b ∧ e ∈ (k.graph g).edges := by
        intro e
        rw [contract_graph, if_pos rfl, Finset.mem_erase]
      have hedge : ∀ e, e ≠ b → (k.contract g a b).edge e =
          { k.edge e with
            target := if e = a then (k.edge b).target
              else (k.edge e).target } := by
        intro e he
        rw [contract_edge, if_neg he, if_neg he]
      constructor
      · intro hwithin e he
        by_cases heb : e = b
        · subst heb
          refine ⟨hbv ▸ hvV, ?_⟩
          by_cases hae : a = e
          · rw [← hae, hav]
            exact hvV
          · have ha' := (hwithin a ((hmem a).mpr ⟨hae, hag⟩)).2
            rwa [hedge a hae, if_pos rfl] at ha'
        · have he' := hwithin e ((hmem e).mpr ⟨heb, he⟩)
          rw [hedge e heb] at he'
          refine ⟨he'.1, ?_⟩
          by_cases hea : e = a
          · rw [hea, hav]
            exact hvV
          · have htarget' := he'.2
            rwa [if_neg hea] at htarget'
      · intro hwithin e he
        obtain ⟨heb, he⟩ := (hmem e).mp he
        rw [hedge e heb]
        refine ⟨(hwithin e he).1, ?_⟩
        dsimp only
        split_ifs
        · exact (hwithin b hbg).2
        · exact (hwithin e he).2

end within

/-! ## Reachability from ENTRY -/

section reach

variable {k f : Heap} {g : GraphPtr} (hc : k.Consistent)

include hc

theorem Consistent.edgeStep_out {u w : VertexPtr} (order : IterationOrder)
    (h : k.EdgeStep g u w) :
    ∃ e ∈ (k.incidence order).out u, (k.incidence order).target e = w := by
  obtain ⟨e, he, rfl, rfl⟩ := h
  exact ⟨e, (hc.mem_incidence_out order _ e).mpr
    ⟨rfl, hc.edges_attached g e he⟩, rfl⟩

theorem Consistent.isWalk_of_reflTransGen {u w : VertexPtr}
    (order : IterationOrder) (h : ReflTransGen (k.EdgeStep g) u w) :
    ∃ p, IsWalk (k.incidence order) u p w := by
  induction h with
  | refl => exact ⟨[], rfl⟩
  | tail _ hstep ih =>
      obtain ⟨p, hp⟩ := ih
      obtain ⟨e, he, rfl⟩ := hc.edgeStep_out order hstep
      exact ⟨p ++ [e], hp.snoc he⟩

theorem Consistent.reflTransGen_of_isWalk {M : Set VertexPtr}
    (hM : k.Encloses g M) {order : IterationOrder} {u w : VertexPtr}
    {p : List EdgePtr} (hu : u ∈ M) (h : IsWalk (k.incidence order) u p w) :
    ReflTransGen (k.EdgeStep g) u w := by
  induction p generalizing u with
  | nil =>
      have huw : u = w := h
      rw [huw]
  | cons e p ih =>
      obtain ⟨hsource, _⟩ := (hc.mem_incidence_out order u e).mp h.1
      have he : e ∈ (k.graph g).edges :=
        (hM.mem_edges_source e).mpr (hsource ▸ hu)
      exact .head ⟨e, he, hsource, rfl⟩ (ih ((hM.mem_edges_target e).mp he) h.2)

/-- A proxy edge leads to where one could get before. -/
theorem FixedUp.reflTransGen_iff {order : IterationOrder} {entry : VertexPtr}
    (hfix : FixedUp k order g (k.searchRoots order g entry) f)
    {M : Set VertexPtr} (hM : k.Encloses g M) (hentry : entry ∈ M)
    (v : VertexPtr) :
    ReflTransGen (f.EdgeStep g) entry v ↔ ReflTransGen (k.EdgeStep g) entry v := by
  have hold : ∀ e ∈ (k.graph g).edges, (f.edge e).source = (k.edge e).source ∧
      (f.edge e).target = (k.edge e).target := by
    intro e he
    obtain ⟨_, hedge, _⟩ :=
      hfix.old e (hc.lt_nextEdge (hc.edges_attached g e he))
    rw [hedge]
    exact ⟨rfl, rfl⟩
  constructor
  · intro h
    induction h with
    | refl => exact .refl
    | @tail u w _ hstep ih =>
        obtain ⟨e, he, rfl, rfl⟩ := hstep
        rcases (hfix.mem_edges g e).mp he with he | ⟨_, hle, hlt⟩
        · refine ih.tail ⟨e, he, ?_, ?_⟩
          · rw [(hold e he).1]
          · rw [(hold e he).2]
        · obtain ⟨s, t, hproxy, hedge⟩ := hfix.new e hle hlt
          rw [hedge] at ih ⊢
          -- The search comes to the source from the entry vertex.
          obtain ⟨d, hd⟩ := hc.isWalk_of_reflTransGen order ih
          obtain ⟨r, p₁, p₂, w, e', _, ⟨p, hpath⟩, hp₁, _, _, he', rfl⟩ :=
            hc.exists_decision hproxy
          obtain rfl := hpath.root_eq hd
          have hw := hc.reflTransGen_of_isWalk hM hentry hp₁
          have hwM := hc.mem_of_isWalk hM hentry hp₁
          have hsource := hc.source_eq_of_mem he'
          exact hw.tail ⟨e', (hM.mem_edges_source e').mpr (hsource ▸ hwM),
            hsource, rfl⟩
  · intro h
    refine ReflTransGen.mono (fun u w hstep => ?_) _ _ h
    obtain ⟨e, he, rfl, rfl⟩ := hstep
    exact ⟨e, (hfix.mem_edges g e).mpr (.inl he), (hold e he).1, (hold e he).2⟩

omit hc in
theorem FixedUp.statement_eq {order : IterationOrder} {roots : List VertexPtr}
    (hfix : FixedUp k order g roots f) (v : VertexPtr) :
    (f.vertex v).statement = (k.vertex v).statement := by
  obtain ⟨_, _, hv⟩ := hfix.vertex v
  rw [hv]

/-- `FixupBackEdges` does not take edges away. -/
theorem FixedUp.edges_subset {order : IterationOrder} {roots : List VertexPtr}
    (hfix : FixedUp k order g roots f) (v : VertexPtr) :
    (k.vertex v).outEdges ⊆ (f.vertex v).outEdges ∧
      (k.vertex v).inEdges ⊆ (f.vertex v).inEdges := by
  constructor
  · intro e he
    obtain ⟨hsource, hv⟩ := (hc.mem_outEdges v e).mp he
    obtain ⟨_, hedge, _⟩ := hfix.old e (hc.lt_nextEdge (hsource ▸ hv))
    exact (hfix.consistent.mem_outEdges v e).mpr ⟨by rw [hedge]; exact hsource, hv⟩
  · intro e he
    obtain ⟨htarget, hv⟩ := (hc.mem_inEdges v e).mp he
    obtain ⟨_, hedge, _⟩ :=
      hfix.old e (hc.lt_nextEdge (hc.source_ne_null_of_mem he))
    exact (hfix.consistent.mem_inEdges v e).mpr ⟨by rw [hedge]; exact htarget, hv⟩

/-- The out-edges of a vertex that gets no proxy edge stay the same. -/
theorem FixedUp.outEdges_eq {order : IterationOrder} {roots : List VertexPtr}
    (hfix : FixedUp k order g roots f) {v : VertexPtr}
    (hno : ∀ t, ¬ k.Proxy order roots v t) :
    (f.vertex v).outEdges = (k.vertex v).outEdges := by
  refine Finset.Subset.antisymm (fun e he => ?_) (hfix.edges_subset hc v).1
  obtain ⟨hsource, hv⟩ := (hfix.consistent.mem_outEdges v e).mp he
  rcases Nat.lt_or_ge e k.nextEdge with hlt | hge
  · obtain ⟨_, hedge, _⟩ := hfix.old e hlt
    rw [hedge] at hsource
    exact (hc.mem_outEdges v e).mpr ⟨hsource, hv⟩
  · obtain ⟨s, t, hproxy, hedge⟩ :=
      hfix.new e hge (hfix.consistent.lt_nextEdge (hsource ▸ hv))
    rw [hedge] at hsource
    exact absurd (hsource ▸ hproxy) (hno t)

/-- The in-edges of a vertex no proxy edge goes to stay the same. -/
theorem FixedUp.inEdges_eq {order : IterationOrder} {roots : List VertexPtr}
    (hfix : FixedUp k order g roots f) {v : VertexPtr}
    (hno : ∀ s, ¬ k.Proxy order roots s v) :
    (f.vertex v).inEdges = (k.vertex v).inEdges := by
  refine Finset.Subset.antisymm (fun e he => ?_) (hfix.edges_subset hc v).2
  obtain ⟨htarget, hv⟩ := (hfix.consistent.mem_inEdges v e).mp he
  rcases Nat.lt_or_ge e k.nextEdge with hlt | hge
  · obtain ⟨_, hedge, _⟩ := hfix.old e hlt
    rw [hedge] at htarget
    exact (hc.mem_inEdges v e).mpr ⟨htarget, hv⟩
  · obtain ⟨s, t, hproxy, hedge⟩ := hfix.new e hge
      (hfix.consistent.lt_nextEdge (hfix.consistent.source_ne_null_of_mem he))
    rw [hedge] at htarget
    exact absurd (htarget ▸ hproxy) (hno s)

/-- Proxy edges make no vertex redundant. -/
theorem FixedUp.isRedundant_of {order : IterationOrder}
    {roots : List VertexPtr} (hfix : FixedUp k order g roots f) {v : VertexPtr}
    (hv : f.isRedundant v = true) : k.isRedundant v = true := by
  simp only [isRedundant, Bool.and_eq_true, decide_eq_true_iff,
    hfix.statement_eq] at hv ⊢
  obtain ⟨hkind, hin, hout⟩ := hv
  obtain ⟨hsubOut, hsubIn⟩ := hfix.edges_subset hc v
  refine ⟨hkind, ?_, ?_⟩
  · by_cases hproxy : ∃ s, k.Proxy order roots s v
    · obtain ⟨s, hproxy⟩ := hproxy
      obtain ⟨_, _, _, w, d, _, _, _, _, _, hd, htarget⟩ :=
        hc.exists_decision hproxy
      have hmem : d ∈ (k.vertex v).inEdges :=
        (hc.mem_inEdges v d).mpr ⟨htarget, hproxy.1⟩
      have hpos := Finset.card_pos.mpr ⟨d, hmem⟩
      have hle := Finset.card_le_card hsubIn
      rw [inDegree] at hin ⊢
      omega
    · rw [← hin, inDegree, inDegree,
        hfix.inEdges_eq hc fun s hs => hproxy ⟨s, hs⟩]
  · by_cases hproxy : ∃ t, k.Proxy order roots v t
    · obtain ⟨t, _, e, hsingle, _⟩ := hproxy
      rw [outDegree, hsingle]
      rfl
    · rw [← hout, outDegree, outDegree,
        hfix.outEdges_eq hc fun t ht => hproxy ⟨t, ht⟩]

/-- When the vertices that are not reached are redundant, none of them is a
decision statement, so no proxy edge is added among them. -/
theorem FixedUp.isRedundant_of_unreached {order : IterationOrder}
    {entry : VertexPtr}
    (hfix : FixedUp k order g (k.searchRoots order g entry) f)
    (hM : k.Encloses g (k.graph g).vertices)
    (hentry : entry ∈ (k.graph g).vertices)
    (hall : ∀ v ∈ (k.graph g).vertices,
      ReflTransGen (k.EdgeStep g) entry v ∨ k.isRedundant v = true)
    {v : VertexPtr} (hv : v ∈ (k.graph g).vertices)
    (hunreached : ¬ ReflTransGen (k.EdgeStep g) entry v) :
    f.isRedundant v = true := by
  have hroots : ∀ r ∈ k.searchRoots order g entry, r ∈ (k.graph g).vertices :=
    searchRoots_mem hentry
  -- A decision statement before `v` would be reached, and `v` with it.
  have hdecision : ∀ w, w ∈ (k.graph g).vertices →
      (k.vertex w).statement.isDecisionStatement = true →
        ReflTransGen (k.EdgeStep g) w v → False := by
    intro w hw hdec hwv
    rcases hall w hw with hreached | hred
    · exact hunreached (hreached.trans hwv)
    · simp only [isRedundant, Bool.and_eq_true] at hred
      have hkind := hred.1
      cases hst : (k.vertex w).statement <;>
        simp_all [Statement.isDecisionStatement, Statement.isRedundantKind]
  have hred := (hall v hv).resolve_left hunreached
  have hin : (f.vertex v).inEdges = (k.vertex v).inEdges := by
    refine hfix.inEdges_eq hc fun s hproxy => ?_
    obtain ⟨r, p₁, _, w, d, hr, _, hp₁, _, hdec, hd, htarget⟩ :=
      hc.exists_decision hproxy
    have hw := hc.mem_of_isWalk hM (hroots r hr) hp₁
    refine hdecision w hw hdec (.single ⟨d, ?_, hc.source_eq_of_mem hd, htarget⟩)
    exact (hM.mem_edges_source d).mpr (hc.source_eq_of_mem hd ▸ hw)
  have hout : (f.vertex v).outEdges = (k.vertex v).outEdges := by
    refine hfix.outEdges_eq hc fun t hproxy => ?_
    obtain ⟨r, p₁, p₂, w, d, hr, _, hp₁, hp₂, hdec, _, _⟩ :=
      hc.exists_decision hproxy
    have hw := hc.mem_of_isWalk hM (hroots r hr) hp₁
    exact hdecision w hw hdec (hc.reflTransGen_of_isWalk hM hw hp₂)
  rw [← hred, isRedundant, isRedundant, inDegree, inDegree, outDegree,
    outDegree, hin, hout, hfix.statement_eq]

end reach

end Heap

/-! ## From the graph to the list -/

namespace FlowConnected

variable {h k : Heap} {this : FunctionPtr} {l : List VertexPtr}
  {ρ : VertexPtr → VertexPtr} (hf : h.Fresh this l)
  (hk : FlowConnected h this l ρ k)

include hf hk

theorem map_entryPtr : ρ h.entryPtr = h.entryPtr :=
  hk.kept _ fun hmem => absurd rfl (hf.ne_entryPtr hmem)

theorem map_exitPtr : ρ h.exitPtr = h.exitPtr :=
  hk.kept _ fun hmem => absurd rfl (hf.ne_exitPtr hmem)

omit hf in
theorem mem_vertices_map {v : VertexPtr} (hv : v ∈ h.originals l) :
    ρ v ∈ (k.graph (h.function this).theCfg).vertices := by
  rw [hk.vertices]
  exact Finset.mem_image_of_mem ρ hv

theorem entryPtr_mem : h.entryPtr ∈ (k.graph (h.function this).theCfg).vertices := by
  rw [← hk.map_entryPtr hf]
  exact hk.mem_vertices_map (Heap.mem_originals.mpr (.inl rfl))

theorem exitPtr_mem : h.exitPtr ∈ (k.graph (h.function this).theCfg).vertices := by
  rw [← hk.map_exitPtr hf]
  exact hk.mem_vertices_map (Heap.mem_originals.mpr (.inr (.inl rfl)))

/-- A statement object is in the graph when it has not been replaced. -/
theorem mem_vertices_iff {v : VertexPtr} (hv : v ∈ l) :
    v ∈ (k.graph (h.function this).theCfg).vertices ↔
      h.replacement l v = none := by
  rw [hk.vertices, Finset.mem_image]
  constructor
  · rintro ⟨x, _, heq⟩
    by_cases hkept : x ∈ l → h.replacement l x = none
    · rw [hk.kept x hkept] at heq
      subst heq
      exact hkept hv
    · rw [Classical.not_imp] at hkept
      obtain ⟨new, hnew⟩ := Option.ne_none_iff_exists'.mp hkept.2
      have hle := (hk.linked x hkept.1 new hnew).1
      rw [heq] at hle
      have hlt := hf.lt_nextVertex v hv
      exact absurd (Nat.lt_of_lt_of_le hlt (Nat.le_add_right _ 2))
        (Nat.not_lt.mpr hle)
  · intro hnone
    exact ⟨v, Heap.mem_originals.mpr (.inr (.inr hv)), hk.kept v fun _ => hnone⟩

omit hf hk in
theorem impossibleArcs_mem {a : Arc} (ha : a ∈ h.impossibleArcs l) :
    a.source ∈ l ∧ a.target ∈ l := by
  obtain ⟨p, hp, rfl⟩ := List.mem_map.mp ha
  have hp' := List.mem_of_mem_filter hp
  exact ⟨(immediatePredecessor_mem hp').1, leader_mem hp'⟩

omit hf hk in
theorem linkedArcs_mem {a : Arc} (ha : a ∈ h.linkedArcs l) :
    a.source ∈ h.originals l ∧ a.target ∈ h.originals l :=
  mem_flowArcs (fun _ hv => List.mem_of_mem_filter hv) ha

theorem edgesWithin_iff :
    k.EdgesWithin (h.function this).theCfg
        (k.graph (h.function this).theCfg).vertices ↔ h.NoStaleEdge l := by
  have hself : ∀ a ∈ h.selfArcs,
      a.source ∈ (k.graph (h.function this).theCfg).vertices ∧
        a.target ∈ (k.graph (h.function this).theCfg).vertices := by
    intro a ha
    rcases List.mem_cons.mp ha with rfl | ha
    · exact ⟨hk.entryPtr_mem hf, hk.entryPtr_mem hf⟩
    · rw [List.mem_singleton.mp ha]
      exact ⟨hk.exitPtr_mem hf, hk.exitPtr_mem hf⟩
  rw [Heap.edgesWithin_iff_arcs, hk.arcs]
  simp only [Multiset.mem_coe, List.mem_append, Finset.mem_coe]
  constructor
  · intro hall a ha
    have hends := impossibleArcs_mem ha
    obtain ⟨hsource, htarget⟩ := hall a (.inl (.inr ha))
    exact ⟨(hk.mem_vertices_iff hf hends.1).mp hsource,
      (hk.mem_vertices_iff hf hends.2).mp htarget⟩
  · rintro hall a ((ha | ha) | ha)
    · obtain ⟨b, hb, rfl⟩ := List.mem_map.mp ha
      obtain ⟨hsource, htarget⟩ := linkedArcs_mem hb
      exact ⟨hk.mem_vertices_map hsource, hk.mem_vertices_map htarget⟩
    · have hends := impossibleArcs_mem ha
      obtain ⟨hsource, htarget⟩ := hall a ha
      exact ⟨(hk.mem_vertices_iff hf hends.1).mpr hsource,
        (hk.mem_vertices_iff hf hends.2).mpr htarget⟩
    · exact hself a ha

omit hf in
/-- Without stale edges the arcs of the graph are those of the list. -/
theorem arcs_eq (hstale : h.NoStaleEdge l) :
    k.arcs (h.function this).theCfg =
      ((h.connectedArcs l).map (Arc.map ρ) ++ h.selfArcs : List Arc) := by
  have hmap : (h.impossibleArcs l).map (Arc.map ρ) = h.impossibleArcs l := by
    refine List.map_congr_left (g := id) (fun a ha => ?_) |>.trans (List.map_id _)
    obtain ⟨hsource, htarget⟩ := hstale a ha
    rw [Arc.map, hk.kept _ fun _ => hsource, hk.kept _ fun _ => htarget]
    rfl
  rw [hk.arcs, Heap.connectedArcs, List.map_append, hmap]

omit hf hk in
theorem connectedArcs_mem {a : Arc} (ha : a ∈ h.connectedArcs l) :
    a.source ∈ h.originals l ∧ a.target ∈ h.originals l := by
  rcases List.mem_append.mp ha with ha | ha
  · exact linkedArcs_mem ha
  · obtain ⟨hsource, htarget⟩ := impossibleArcs_mem ha
    exact ⟨Heap.mem_originals.mpr (.inr (.inr hsource)),
      Heap.mem_originals.mpr (.inr (.inr htarget))⟩

/-- Reachability in the graph is reachability in the list. -/
theorem reached_iff (hstale : h.NoStaleEdge l) {v : VertexPtr}
    (hv : v ∈ h.originals l) :
    ReflTransGen (k.EdgeStep (h.function this).theCfg) h.entryPtr (ρ v) ↔
      ReflTransGen (ArcStep (h.connectedArcs l)) h.entryPtr v := by
  have hentryMem : h.entryPtr ∈ h.originals l := Heap.mem_originals.mpr (.inl rfl)
  have hstep : ∀ u w, k.EdgeStep (h.function this).theCfg u w ↔
      (∃ a ∈ h.connectedArcs l, ρ a.source = u ∧ ρ a.target = w) ∨
        ∃ a ∈ h.selfArcs, a.source = u ∧ a.target = w := by
    intro u w
    rw [Heap.edgeStep_iff_arcs, hk.arcs_eq hstale]
    simp only [Multiset.mem_coe, List.mem_append, List.mem_map]
    constructor
    · rintro ⟨_, ⟨a, ha, rfl⟩ | ha, hends⟩
      · exact .inl ⟨a, ha, hends⟩
      · exact .inr ⟨_, ha, hends⟩
    · rintro (⟨a, ha, hends⟩ | ⟨a, ha, hends⟩)
      · exact ⟨_, .inl ⟨a, ha, rfl⟩, hends⟩
      · exact ⟨a, .inr ha, hends⟩
  constructor
  · intro hreach
    suffices hall : ∀ w, ReflTransGen
        (k.EdgeStep (h.function this).theCfg) h.entryPtr w →
        ∃ x ∈ h.originals l, ρ x = w ∧
          ReflTransGen (ArcStep (h.connectedArcs l)) h.entryPtr x by
      obtain ⟨x, hx, hxv, hreach'⟩ := hall _ hreach
      rwa [hk.injOn hx hv hxv] at hreach'
    intro w hw
    induction hw with
    | refl => exact ⟨_, hentryMem, hk.map_entryPtr hf, .refl⟩
    | @tail u w _ hlast ih =>
        obtain ⟨x, hx, rfl, hreach'⟩ := ih
        rcases (hstep _ _).mp hlast with ⟨a, ha, hsource, rfl⟩ | ⟨a, ha, hsource, rfl⟩
        · obtain ⟨haSource, haTarget⟩ := connectedArcs_mem ha
          have hax := hk.injOn haSource hx hsource
          exact ⟨_, haTarget, rfl, hreach'.tail ⟨a, ha, hax, rfl⟩⟩
        · -- A self edge stays where it is.
          have hends : a.target = a.source := by
            rcases List.mem_cons.mp ha with rfl | ha
            · rfl
            · rw [List.mem_singleton.mp ha]
          exact ⟨x, hx, hsource.symm.trans hends.symm, hreach'⟩
  · intro hreach
    rw [← hk.map_entryPtr hf]
    have hlift := ReflTransGen.lift
      (p := k.EdgeStep (h.function this).theCfg) ρ
      (fun u w (hstep' : ArcStep (h.connectedArcs l) u w) => by
        obtain ⟨a, ha, rfl, rfl⟩ := hstep'
        exact (hstep _ _).mpr (.inl ⟨a, ha, rfl, rfl⟩))
    exact hlift _ _ hreach

theorem statement_map {v : VertexPtr} (hv : v ∈ h.originals l) :
    (k.vertex (ρ v)).statement = h.linkedStatementOf l v := by
  rw [Heap.linkedStatementOf]
  by_cases hkept : v ∈ l → h.replacement l v = none
  · rw [hk.kept v hkept, hk.statement_old v (hf.lt_of_mem_originals hv)]
    cases hnew : h.replacement l v with
    | none => rfl
    | some new =>
        -- Only statements of the list are replaced.
        have hends := Heap.endsBasicBlock_of_replacement hnew
        rcases Heap.mem_originals.mp hv with rfl | rfl | hmem
        · rw [Heap.endsBasicBlock, Heap.statementOf_entryPtr] at hends
          exact absurd hends (by decide)
        · rw [Heap.endsBasicBlock, Heap.statementOf_exitPtr] at hends
          exact absurd hends (by decide)
        · rw [hkept hmem] at hnew
          exact absurd hnew (by simp)
  · rw [Classical.not_imp] at hkept
    obtain ⟨new, hnew⟩ := Option.ne_none_iff_exists'.mp hkept.2
    rw [(hk.linked v hkept.1 new hnew).2.2, hnew]
    rfl

theorem map_ne_null {v : VertexPtr} (hv : v ∈ h.originals l) : ρ v ≠ null :=
  hf.ne_null_of_owned (hk.map_owned hf hv)

/-- The redundant vertices of the graph, read off the list. -/
theorem isRedundant_map (hstale : h.NoStaleEdge l) {v : VertexPtr}
    (hv : v ∈ h.originals l) : k.isRedundant (ρ v) = h.isPassThrough l v := by
  rw [Heap.isRedundant, Heap.isPassThrough, hk.statement_map hf hv]
  cases hkind : (h.linkedStatementOf l v).isRedundantKind with
  | false => rfl
  | true =>
      have hpseudo : v ≠ h.entryPtr ∧ v ≠ h.exitPtr := by
        constructor <;> rintro rfl <;>
          rw [← hk.statement_map hf hv] at hkind
        · rw [hk.map_entryPtr hf, hk.statement_old _ (hf.lt_of_mem_originals hv),
            Heap.statementOf_entryPtr] at hkind
          exact absurd hkind (by decide)
        · rw [hk.map_exitPtr hf, hk.statement_old _ (hf.lt_of_mem_originals hv),
            Heap.statementOf_exitPtr] at hkind
          exact absurd hkind (by decide)
      have hentryNe : h.entryPtr ≠ ρ v := fun heq => hpseudo.1
        (hk.injOn hv (Heap.mem_originals.mpr (.inl rfl))
          (heq.symm.trans (hk.map_entryPtr hf).symm))
      have hexitNe : h.exitPtr ≠ ρ v := fun heq => hpseudo.2
        (hk.injOn hv (Heap.mem_originals.mpr (.inr (.inl rfl)))
          (heq.symm.trans (hk.map_exitPtr hf).symm))
      have howned := hk.map_owned hf hv
      have hne := hk.map_ne_null hf hv
      have hin : k.inDegree (ρ v) =
          (h.connectedArcs l).countP (·.target = v) := by
        rw [hk.consistent.inDegree_eq hk.encloses hne howned,
          hk.arcs_eq hstale, Multiset.coe_countP, List.countP_append,
          List.countP_map]
        have hself : h.selfArcs.countP (·.target = ρ v) = 0 := by
          simp [Heap.selfArcs, hentryNe, hexitNe]
        rw [hself, Nat.add_zero]
        refine List.countP_congr fun a ha => ?_
        rw [Function.comp_apply, decide_eq_true_iff, decide_eq_true_iff]
        exact hk.injOn.eq_iff (connectedArcs_mem ha).2 hv
      have hout : k.outDegree (ρ v) =
          (h.connectedArcs l).countP (·.source = v) := by
        rw [← Heap.card_outArcs, hk.consistent.outArcs_eq hk.encloses hne howned,
          Multiset.card_map, ← Multiset.countP_eq_card_filter,
          hk.arcs_eq hstale, Multiset.coe_countP, List.countP_append,
          List.countP_map]
        have hself : h.selfArcs.countP (·.source = ρ v) = 0 := by
          simp [Heap.selfArcs, hentryNe, hexitNe]
        rw [hself, Nat.add_zero]
        refine List.countP_congr fun a ha => ?_
        rw [Function.comp_apply, decide_eq_true_iff, decide_eq_true_iff]
        exact hk.injOn.eq_iff (connectedArcs_mem ha).1 hv
      rw [hin, hout]

end FlowConnected

/-! ## The finished graph -/

namespace CreateRun

variable {k : Heap} {fixupOrder removalOrder : IterationOrder} {g : GraphPtr}
  {entry : VertexPtr} {f c h' : Heap}
  (hr : CreateRun k fixupOrder removalOrder g entry f c h')
  (hc : k.Consistent)

include hr hc

/-- No edge of the finished graph ends at a contracted vertex. -/
theorem edgesWithin_iff {M : Set VertexPtr} (hM : k.Encloses g M)
    (hV : ∀ v ∈ (k.graph g).vertices, v ∈ M)
    (hentry : entry ∈ (k.graph g).vertices) :
    h'.EdgesWithin g (h'.graph g).vertices ↔
      k.EdgesWithin g (k.graph g).vertices := by
  have hremoved := hr.contractsTo.edges_removed hr.fixedUp.consistent
  have hc' : h'.EdgesWithin g (h'.graph g).vertices ↔
      c.EdgesWithin g (k.graph g).vertices := by
    have hmem : ∀ e ∈ (c.graph g).edges, ∀ v,
        ((c.edge e).source = v ∨ (c.edge e).target = v) →
          (v ∈ (h'.graph g).vertices ↔ v ∈ (k.graph g).vertices) := by
      intro e he v hv
      rw [hr.mem_vertices]
      refine and_iff_left_of_imp fun hvk => ?_
      by_contra hred
      have hcon := hremoved v
        ((hr.mem_removed v).mpr ⟨hvk, Bool.not_eq_false _ ▸ hred⟩) e he
      rcases hv with hv | hv
      · exact hcon.1 hv
      · exact hcon.2 hv
    unfold Heap.EdgesWithin
    rw [hr.edges_eq, hr.edge_eq]
    refine forall_congr' fun e => forall_congr' fun he => ?_
    exact and_congr (hmem e he _ (.inl rfl)) (hmem e he _ (.inr rfl))
  have hf' : c.EdgesWithin g (k.graph g).vertices ↔
      f.EdgesWithin g (k.graph g).vertices :=
    hr.contractsTo.edgesWithin_iff hr.fixedUp.consistent fun v hv =>
      ((hr.mem_removed v).mp hv).1
  rw [hc', hf']
  have hold : ∀ e ∈ (k.graph g).edges, (f.edge e).source = (k.edge e).source ∧
      (f.edge e).target = (k.edge e).target := by
    intro e he
    obtain ⟨_, hedge, _⟩ :=
      hr.fixedUp.old e (hc.lt_nextEdge (hc.edges_attached g e he))
    rw [hedge]
    exact ⟨rfl, rfl⟩
  constructor
  · intro hwithin e he
    have he' := hwithin e ((hr.fixedUp.mem_edges g e).mpr (.inl he))
    rwa [(hold e he).1, (hold e he).2] at he'
  · intro hwithin e he
    have hV' : k.Encloses g (k.graph g).vertices := hM.subset hV hwithin
    have henc := hr.fixedUp.encloses hc hV' (Heap.searchRoots_mem hentry)
    exact ⟨(henc.mem_edges_source e).mp he, (henc.mem_edges_target e).mp he⟩

/-- A vertex that stays is reached in the finished graph when it was before. -/
theorem reached_iff {M : Set VertexPtr} (hM : k.Encloses g M)
    (hV : ∀ v ∈ (k.graph g).vertices, v ∈ M)
    (hentry : entry ∈ (k.graph g).vertices)
    (hkind : (k.vertex entry).statement.isRedundantKind = false)
    {v : VertexPtr} (hv : f.isRedundant v = false) :
    ReflTransGen (h'.EdgeStep g) entry v ↔
      ReflTransGen (k.EdgeStep g) entry v := by
  have hredEntry : f.isRedundant entry = false := by
    rw [Heap.isRedundant, hr.fixedUp.statement_eq, hkind, Bool.false_and]
  rw [hr.edgeStep_iff (hr.notMem_removed hredEntry) (hr.notMem_removed hv)]
  exact hr.fixedUp.reflTransGen_iff hc hM (hV entry hentry) v

theorem connected_iff {M : Set VertexPtr} (hM : k.Encloses g M)
    (hV : ∀ v ∈ (k.graph g).vertices, v ∈ M)
    (hentry : entry ∈ (k.graph g).vertices)
    (hkind : (k.vertex entry).statement.isRedundantKind = false) :
    h'.Connected g entry ↔ k.EdgesWithin g (k.graph g).vertices ∧
      ∀ v ∈ (k.graph g).vertices,
        ReflTransGen (k.EdgeStep g) entry v ∨ k.isRedundant v = true := by
  have hwithin := hr.edgesWithin_iff hc hM hV hentry
  constructor
  · rintro ⟨hedges, hreached⟩
    refine ⟨hwithin.mp hedges, fun v hv => ?_⟩
    cases hred : f.isRedundant v with
    | true => exact .inr (hr.fixedUp.isRedundant_of hc hred)
    | false =>
        exact .inl ((hr.reached_iff hc hM hV hentry hkind hred).mp
          (hreached v ((hr.mem_vertices v).mpr ⟨hv, hred⟩)))
  · rintro ⟨hedges, hall⟩
    refine ⟨hwithin.mpr hedges, fun v hv => ?_⟩
    obtain ⟨hvk, hred⟩ := (hr.mem_vertices v).mp hv
    rw [hr.reached_iff hc hM hV hentry hkind hred]
    by_contra hunreached
    rw [hr.fixedUp.isRedundant_of_unreached hc (hM.subset hV hedges) hentry hall
      hvk hunreached] at hred
    exact absurd hred (by decide)

end CreateRun

section result

variable {h : Heap} {this : FunctionPtr} {l : List VertexPtr}

/-- The graph `CreateControlFlowGraph` leaves is well formed and connected
exactly when no edge was recorded for a statement that linking replaced, every
place of the list is reached or contracted away, and `FixupBackEdges` finds
its ways out. -/
theorem createControlFlowGraph_connected_iff (hf : h.Fresh this l)
    (fixupOrder removalOrder : IterationOrder) :
    (h.createControlFlowGraph fixupOrder removalOrder this l).Holds
        (fun h' => h'.Connected (h'.function this).theCfg
          (h'.function this).entryVertexDesc) ↔
      h.NoStaleEdge l ∧ h.AllReached l ∧
        (h.connectedFlow this l).Holds fun k =>
          ¬ k.NoWayOut fixupOrder (k.searchRoots fixupOrder
            (h.function this).theCfg h.entryPtr) := by
  obtain ⟨k, ρ, hrun, hk⟩ := connectedFlow_spec hf
  have hkind : (k.vertex h.entryPtr).statement.isRedundantKind = false := by
    rw [hk.statement_old _ (hf.lt_of_mem_originals
      (Heap.mem_originals.mpr (.inl rfl))), Heap.statementOf_entryPtr]
    rfl
  rcases createControlFlowGraph_spec hf hrun hk fixupOrder removalOrder with
    ⟨hno, hcreate⟩ | ⟨hno, f, c, h', hcreate, hr⟩
  · rw [hcreate, hrun, Result.holds_ok]
    exact iff_of_false Result.not_holds_error fun hcond => hcond.2.2 hno
  · obtain ⟨_, _, hfunction, _, _⟩ := hk.function
    have hconnected := hr.connected_iff hk.consistent hk.encloses
      (fun v hv => hk.vertices_subset hf (Finset.mem_coe.mpr hv))
      (hk.entryPtr_mem hf) hkind
    rw [hcreate, hrun, Result.holds_ok, Result.holds_ok, hr.function_eq,
      hfunction, Function.update_self, hconnected, hk.edgesWithin_iff hf,
      and_iff_left hno]
    refine and_congr_right fun hstale => ?_
    rw [hk.vertices, Heap.AllReached]
    simp only [Finset.mem_image, forall_exists_index, and_imp,
      forall_apply_eq_imp_iff₂]
    refine forall_congr' fun v => forall_congr' fun hv => ?_
    rw [hk.reached_iff hf hstale hv, hk.isRedundant_map hf hstale hv]

/-- `for (;;) { }`, the way it reaches CoFlo. -/
def infiniteLoop : List Statement :=
  [.label "L", .gotoUnlinked "L"]

/-- Nothing leads to EXIT in `infiniteLoop`: the goto is the last statement,
so it has no leader after it. -/
theorem infiniteLoop_flow :
    ((Heap.singleFunction infiniteLoop).2.createControlFlowGraph
      .ascending .ascending 1 (Heap.singleFunction infiniteLoop).1).Holds
        fun h' => (h'.function 1).theCfg = 1 ∧
          (h'.function 1).entryVertexDesc = 3 ∧
            (h'.function 1).exitVertexDesc = 4 ∧ 4 ∈ (h'.graph 1).vertices ∧
              ¬ ReflTransGen (h'.EdgeStep 1) 3 4 := by
  have hcheck : ((Heap.singleFunction infiniteLoop).2.createControlFlowGraph
      .ascending .ascending 1 (Heap.singleFunction infiniteLoop).1).Holds
        fun h' => (h'.function 1).theCfg = 1 ∧
          (h'.function 1).entryVertexDesc = 3 ∧
            (h'.function 1).exitVertexDesc = 4 ∧ 4 ∈ (h'.graph 1).vertices ∧
              ∀ e ∈ (h'.graph 1).edges,
                (h'.edge e).target = 4 → (h'.edge e).source = 4 := by
    decide +kernel
  obtain ⟨h', hrun, hcfg, hentry, hexit, hmem, hin⟩ := hcheck
  refine ⟨h', hrun, hcfg, hentry, hexit, hmem, fun hreach => ?_⟩
  have havoid : ∀ v, ReflTransGen (h'.EdgeStep 1) 3 v → v ≠ 4 := by
    intro v hv
    induction hv with
    | refl => decide
    | tail _ hstep ih =>
        obtain ⟨e, he, hsource, htarget⟩ := hstep
        intro hv
        exact ih (hsource.symm.trans (hin e he (htarget.trans hv)))
  exact havoid 4 hreach rfl

theorem createControlFlowGraph_infiniteLoop :
    (Heap.singleFunction infiniteLoop).2.Fresh 1
        (Heap.singleFunction infiniteLoop).1 ∧
      LabelsDefined infiniteLoop ∧
        ¬ ((Heap.singleFunction infiniteLoop).2.createControlFlowGraph
          .ascending .ascending 1 (Heap.singleFunction infiniteLoop).1).Holds
            (fun h' => h'.Connected (h'.function 1).theCfg
              (h'.function 1).entryVertexDesc) := by
  refine ⟨Heap.singleFunction_fresh _, by unfold LabelsDefined; decide, ?_⟩
  obtain ⟨h', hrun, hcfg, hentry, _, hexit, hunreached⟩ := infiniteLoop_flow
  rintro ⟨_, hok, hconn⟩
  obtain rfl := Except.ok.inj (hrun.symm.trans hok)
  rw [hcfg, hentry] at hconn
  exact hunreached (hconn.reached 4 hexit)

/-- Every place of `whileLoop` is reached from ENTRY: but for the edge out of ENTRY, each
place has one from a place created before it. -/
theorem whileLoop_allReached :
    (Heap.singleFunction whileLoop).2.AllReached (Heap.singleFunction whileLoop).1 := by
  have hcheck : ∀ v ∈ (Heap.singleFunction whileLoop).2.originals
      (Heap.singleFunction whileLoop).1,
      v = 7 ∨ ∃ a ∈ (Heap.singleFunction whileLoop).2.connectedArcs
        (Heap.singleFunction whileLoop).1,
          a.source ∈ (Heap.singleFunction whileLoop).2.originals
            (Heap.singleFunction whileLoop).1 ∧
          (if a.source = 7 then 0 else a.source) < (if v = 7 then 0 else v) ∧
            a.target = v := by
    decide
  have hback : ∀ v, v ∈ (Heap.singleFunction whileLoop).2.originals
      (Heap.singleFunction whileLoop).1 →
      v = 7 ∨ ∃ u, u ∈ (Heap.singleFunction whileLoop).2.originals
        (Heap.singleFunction whileLoop).1 ∧
          (if u = 7 then 0 else u) < (if v = 7 then 0 else v) ∧
            ArcStep ((Heap.singleFunction whileLoop).2.connectedArcs
              (Heap.singleFunction whileLoop).1) u v := by
    intro v hv
    rcases hcheck v hv with rfl | ⟨a, ha, hsource, hlt, htarget⟩
    · exact .inl rfl
    · exact .inr ⟨a.source, hsource, hlt, a, ha, rfl, htarget⟩
  intro v hv
  exact .inl (reflTransGen_of_rank (fun v => if v = 7 then 0 else v) hback hv)

/-- The test of `whileLoop` is its only decision statement, and its goto gets the way out
there: the graph is connected. -/
theorem createControlFlowGraph_connected_iff_whileLoop :
    (Heap.singleFunction whileLoop).2.Fresh 1 (Heap.singleFunction whileLoop).1 ∧
      (Heap.singleFunction whileLoop).2.NoStaleEdge (Heap.singleFunction whileLoop).1 ∧
      (Heap.singleFunction whileLoop).2.AllReached (Heap.singleFunction whileLoop).1 ∧
      (((Heap.singleFunction whileLoop).2.connectedFlow 1
        (Heap.singleFunction whileLoop).1).Holds fun k =>
          ¬ k.NoWayOut .ascending (k.searchRoots .ascending 1 7)) ∧
      ((Heap.singleFunction whileLoop).2.createControlFlowGraph .ascending .ascending 1
        (Heap.singleFunction whileLoop).1).Holds fun h' =>
          h'.Connected (h'.function 1).theCfg (h'.function 1).entryVertexDesc := by
  obtain ⟨k, _, hrun, _, _, _, hno, _⟩ := whileLoop_flow
  have hstale : (Heap.singleFunction whileLoop).2.NoStaleEdge
      (Heap.singleFunction whileLoop).1 := by
    unfold Heap.NoStaleEdge
    decide
  have hout : ((Heap.singleFunction whileLoop).2.connectedFlow 1
      (Heap.singleFunction whileLoop).1).Holds fun k =>
        ¬ k.NoWayOut .ascending (k.searchRoots .ascending 1 7) :=
    ⟨k, hrun, hno⟩
  exact ⟨Heap.singleFunction_fresh _, hstale, whileLoop_allReached, hout,
    (createControlFlowGraph_connected_iff (Heap.singleFunction_fresh whileLoop)
      .ascending .ascending).mpr ⟨hstale, whileLoop_allReached, hout⟩⟩

end result

end CoFlo.Ports
