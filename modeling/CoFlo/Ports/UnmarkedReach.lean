import CoFlo.Ports.ExitReachable
import CoFlo.Ports.FunctionCopies
import CoFlo.Ports.LoopExits

/-!
# Every vertex that is reached is reached along unmarked edges

`FixupBackEdges` cuts nothing off, and contracting the redundant vertices does
not either: where the out-edge of one is marked, the edge that takes its place
is not.  So in a linked program an edge that is marked leads, from what is
reached along unmarked edges, to what is reached so too
(`LinkedProgram.reaches_target`).
-/

namespace CoFlo.Ports

open CoFlo.Verified CoFlo.Verified.DepthFirstSearch Relation

/-- Gotos and labels that are the target of an edge are in the graph:
what linking replaces is neither. -/
theorem FlowConnected.target_mem {h k : Heap} {this : FunctionPtr}
    {l : List VertexPtr} {ρ : VertexPtr → VertexPtr} (hf : h.Fresh this l)
    (hk : FlowConnected h this l ρ k) {e : EdgePtr}
    (he : e ∈ (k.graph (h.function this).theCfg).edges)
    (hkind : (k.vertex (k.edge e).target).statement.isRedundantKind = true) :
    (k.edge e).target ∈ (k.graph (h.function this).theCfg).vertices := by
  have hmem : k.arc e ∈ k.arcs (h.function this).theCfg :=
    Multiset.mem_map_of_mem _ he
  rw [hk.arcs, Multiset.mem_coe, List.mem_append, List.mem_append,
    List.mem_map] at hmem
  rcases hmem with (⟨a, ha, heq⟩ | ha) | ha
  · rw [Heap.arc, Arc.map, Arc.mk.injEq] at heq
    rw [← heq.2.2]
    exact hk.mem_vertices_map (linkedArcs_mem ha).2
  · have htarget : (k.edge e).target ∈ l := (impossibleArcs_mem ha).2
    rw [hk.mem_vertices_iff hf htarget]
    by_contra hsome
    obtain ⟨new, hnew⟩ := Option.ne_none_iff_exists'.mp hsome
    have hunlinked : (h.statementOf (k.edge e).target).isFlowControlUnlinked = true :=
      Heap.endsBasicBlock_of_replacement hnew
    rw [hk.statement_old _ (hf.lt_of_mem_originals
      (Heap.mem_originals.mpr (.inr (.inr htarget))))] at hkind
    cases hst : h.statementOf (k.edge e).target <;>
      simp_all [Statement.isRedundantKind, Statement.isFlowControlUnlinked]
  · rcases List.mem_cons.mp ha with heq | ha
    · rw [Heap.arc, Arc.mk.injEq] at heq
      rw [heq.2.2]
      exact hk.entryPtr_mem hf
    · have heq := List.mem_singleton.mp ha
      rw [Heap.arc, Arc.mk.injEq] at heq
      rw [heq.2.2]
      exact hk.exitPtr_mem hf

namespace Heap

/-- An edge out of a vertex that is reached: it is unmarked, or it is going to
be taken over by the in-edge of the vertex. -/
def TakenAlong (f : Heap) (g : GraphPtr) (entry : VertexPtr) (e : EdgePtr) :
    Prop :=
  ReflTransGen (f.EdgeStep g) entry (f.edge e).source ∧
    ((f.edge e).isBackEdge = false ∨ f.isRedundant (f.edge e).source = true)

/-- The in-edge of a redundant vertex is not marked, so it is taken along when
the out-edge is. -/
theorem FixedUp.takenAlong {k f : Heap} {g : GraphPtr} {M : Set VertexPtr}
    {entry exit : VertexPtr} (hs : k.FlowShape g M entry exit)
    {order : IterationOrder}
    (hfix : FixedUp k order g (k.searchRoots order g entry) f) :
    f.PassesThrough (f.TakenAlong g entry) := by
  have hlive := hfix.reflTransGen_iff hs.consistent hs.encloses
    (hs.vertices entry hs.entry_mem)
  intro v a b hred ha hb
  obtain ⟨_, hsource, _⟩ := hfix.consistent.edges_eq ha hb
  have hbv := (hsource b).mpr rfl
  have hsame := hfix.live_source_iff hs hred ha hb
  constructor
  · rintro ⟨hreach, _⟩
    rw [TakenAlong, hbv]
    exact ⟨hsame.mp hreach, .inr hred⟩
  · rintro ⟨hreach, _⟩
    rw [hbv] at hreach
    exact ⟨hsame.mpr hreach,
      .inl (hfix.inEdge_unmarked hs ((hlive v).mp hreach) hred ha)⟩

end Heap

/-- In the finished graph unmarked edges lead wherever all of them do. -/
theorem CreateRun.reaches_unmarked {k : Heap}
    {fixupOrder removalOrder : IterationOrder} {g : GraphPtr} {M : Set VertexPtr}
    {entry exit : VertexPtr} {f c h' : Heap}
    (hr : CreateRun k fixupOrder removalOrder g entry f c h')
    (hs : k.FlowShape g M entry exit)
    (hstays : ∀ e ∈ (k.graph g).edges,
      (k.vertex (k.edge e).target).statement.isRedundantKind = true →
        (k.edge e).target ∈ (k.graph g).vertices) {v : VertexPtr}
    (hv : ReflTransGen (h'.EdgeStep g) entry v) :
    ReflTransGen (h'.UnmarkedStep g) entry v := by
  have hfix := hr.fixedUp
  have hlive := hfix.reflTransGen_iff hs.consistent hs.encloses
    (hs.vertices entry hs.entry_mem)
  have hmem := hr.notMem_removed_of_live hs hv
  -- A redundant vertex that is reached has been removed.
  have hgone : ∀ u, ReflTransGen (f.EdgeStep g) entry u →
      f.isRedundant u = true → u ∈ f.redundantVertices removalOrder g := by
    intro u hu hred
    refine (hr.mem_removed u).mpr ⟨?_, hred⟩
    rw [Heap.isRedundant, Bool.and_eq_true, hfix.statement_eq] at hred
    rcases ReflTransGen.cases_tail ((hlive u).mp hu) with
      rfl | ⟨w, _, e, he, _, rfl⟩
    · exact hs.entry_mem
    · exact hstays e he hred.1
  -- The search cuts nothing off.
  have hforward : ReflTransGen
      (k.ForwardStep fixupOrder g (k.searchRoots fixupOrder g entry)) entry v :=
    hs.consistent.reaches_forwardStep hs.encloses hs.unmarked
      ((hr.live_iff hs hmem).mp hv)
  have hbefore : ReflTransGen (f.StepIn g (f.TakenAlong g entry)) entry v := by
    suffices hboth : ReflTransGen (f.StepIn g (f.TakenAlong g entry)) entry v ∧
        ReflTransGen (f.EdgeStep g) entry v from hboth.1
    clear hv hmem
    induction hforward with
    | refl => exact ⟨.refl, .refl⟩
    | @tail u w _ hstep ih =>
        obtain ⟨e, he, rfl, rfl, hmark⟩ :=
          (hfix.unmarkedStep_iff hs.consistent u w).mpr (.inl hstep)
        exact ⟨ih.1.tail ⟨e, he, ⟨ih.2, .inl hmark⟩, rfl, rfl⟩,
          ih.2.tail ⟨e, he, rfl, rfl⟩⟩
  have hafter := (hr.reflTransGen_iff (hfix.takenAlong hs)
    (hr.notMem_removed_of_ne hs (.inl rfl)) hmem).mpr hbefore
  -- No edge is left that starts at a removed vertex.
  refine ReflTransGen.mono (fun u w hstep => ?_) _ _ hafter
  obtain ⟨e, he, ⟨hreach, hmark⟩, hsource, htarget⟩ := hstep
  have hold := he
  rw [hr.edges_eq] at hold
  obtain ⟨_, hedge⟩ :=
    (hr.contractsTo.contracted hfix.consistent).edge e hold
  have hstart := hr.contractsTo.edges_removed hfix.consistent
  refine ⟨e, he, hsource, htarget, ?_⟩
  rw [hr.edge_eq, hedge]
  rcases hmark with hmark | hred
  · exact hmark
  · refine absurd ?_ (hstart _ (hgone _ hreach hred) e hold).1
    rw [hedge]

/-- The same for a function that was built. -/
theorem IsBuilt.reaches_unmarked {g : FunctionPtr} {k : Heap} (hk : IsBuilt g k)
    {v : VertexPtr}
    (hv : ReflTransGen (k.EdgeStep g) (k.function g).entryVertexDesc v) :
    ReflTransGen (k.UnmarkedStep g) (k.function g).entryVertexDesc v := by
  obtain ⟨h, l, fixupOrder, removalOrder, hf, -, hcfg, hcreate⟩ := hk
  obtain ⟨k₀, ρ, hrun, hk₀⟩ := connectedFlow_spec hf
  have hs := hk₀.flowShape hf
  rcases createControlFlowGraph_spec hf hrun hk₀ fixupOrder removalOrder with
    ⟨-, hfault⟩ | ⟨-, f, c, h', hcreate', hr⟩
  · rw [hfault] at hcreate
    exact absurd hcreate (by simp)
  · obtain rfl := Except.ok.inj (hcreate'.symm.trans hcreate)
    obtain ⟨_, _, hfunction, _⟩ := hk₀.function
    have hentry : (h'.function g).entryVertexDesc = h.entryPtr := by
      rw [hr.function_eq, hfunction, Function.update_self]
    rw [hcfg] at hr hs
    rw [hentry] at hv ⊢
    refine hr.reaches_unmarked hs (fun e he hkind => ?_) hv
    have hmem := hk₀.target_mem hf (e := e) (by rw [hcfg]; exact he) hkind
    rwa [hcfg] at hmem

theorem IsBuilt.entry_mem {g : FunctionPtr} {k : Heap} (hk : IsBuilt g k) :
    (k.function g).entryVertexDesc ∈ (k.graph g).vertices := by
  obtain ⟨h, l, _, _, hf, hparsed, hcfg, hcreate⟩ := hk
  obtain ⟨_, hb⟩ := createControlFlowGraph_built hf hparsed hcreate
  obtain ⟨_, _, hfunction, _⟩ := hb.function
  have hmem := hb.entry_mem
  rw [hcfg] at hmem
  rwa [hfunction, Function.update_self]

/-! ## Linked programs -/

/-- Along an edge inside the function that is not marked. -/
def Heap.InnerStep (h : Heap) (g : FunctionPtr) (u v : VertexPtr) : Prop :=
  ∃ e ∈ (h.graph g).edges, (h.edge e).source = u ∧ (h.edge e).target = v ∧
    (h.edge e).isBackEdge = false ∧ (h.edge e).edgeType.isIntraprocedural = true

namespace FunctionCopy

variable {g : FunctionPtr} {ρ : VertexPtr → VertexPtr} {k h : Heap}
  (hcopy : FunctionCopy g ρ k h)

include hcopy

theorem innerStep {u v : VertexPtr} (huv : k.UnmarkedStep g u v) :
    h.InnerStep g (ρ u) (ρ v) := by
  obtain ⟨e, he, rfl, rfl, hmark⟩ := huv
  obtain ⟨hmem, htype⟩ := (hcopy.mem_edges e).mp he
  refine ⟨e, hmem, ?_, ?_, ?_, htype⟩ <;> rw [hcopy.edge e he]
  exact hmark

/-- What is reached in the copy is reached in the function that was built. -/
theorem exists_of_reaches {u w : VertexPtr} (hu : u ∈ k.occurring g)
    (huw : ReflTransGen (h.InnerStep g) (ρ u) w) :
    ∃ v ∈ k.occurring g, ρ v = w ∧ ReflTransGen (k.EdgeStep g) u v := by
  induction huw with
  | refl => exact ⟨u, hu, rfl, .refl⟩
  | @tail x w _ hstep ih =>
      obtain ⟨v, hv, rfl, huv⟩ := ih
      obtain ⟨e, hmem, hsource, rfl, -, htype⟩ := hstep
      have he := (hcopy.mem_edges e).mpr ⟨hmem, htype⟩
      rw [hcopy.edge e he] at hsource ⊢
      have hsame := hcopy.injOn (Heap.source_mem_occurring he) hv hsource
      exact ⟨_, Heap.target_mem_occurring he, rfl, huv.tail ⟨e, he, hsame, rfl⟩⟩

end FunctionCopy

/-- A marked edge leads to what is reached without it. -/
theorem LinkedProgram.reaches_target {p : Program} (hp : LinkedProgram p)
    {g : FunctionPtr} (hg : g ∈ p.functions) {e : EdgePtr}
    (he : e ∈ (p.heap.graph g).edges)
    (htype : (p.heap.edge e).edgeType.isIntraprocedural = true)
    (hsource : ReflTransGen (p.heap.InnerStep g)
      (p.heap.function g).entryVertexDesc (p.heap.edge e).source) :
    ReflTransGen (p.heap.InnerStep g) (p.heap.function g).entryVertexDesc
      (p.heap.edge e).target := by
  obtain ⟨k, ρ, hbuilt, hcopy⟩ := hp.exists_copy hg
  have hmem := (hcopy.mem_edges e).mpr ⟨he, htype⟩
  have hentry : (k.function g).entryVertexDesc ∈ k.occurring g :=
    .inl hbuilt.entry_mem
  rw [← hcopy.entry] at hsource ⊢
  obtain ⟨v, hv, hsame, hreach⟩ := hcopy.exists_of_reaches hentry hsource
  rw [hcopy.edge e hmem] at hsame ⊢
  obtain rfl := hcopy.injOn hv (Heap.source_mem_occurring hmem) hsame
  have hunmarked := hbuilt.reaches_unmarked (hreach.tail ⟨e, hmem, rfl, rfl⟩)
  exact ReflTransGen.lift ρ (fun _ _ => hcopy.innerStep) _ _ hunmarked

end CoFlo.Ports
