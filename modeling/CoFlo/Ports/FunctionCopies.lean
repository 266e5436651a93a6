import CoFlo.Ports.LinkedProgram

/-!
# The graphs of a linked program are those that were built

Linking puts resolved calls in the place of unresolved ones, and draws edges
from one graph to another.  The edges that stay inside a function are still the
ones `CreateControlFlowGraph` made for it, up to the names of the vertices
(`LinkedProgram.exists_copy`), so what is known of the graph of a function when
it is built can be carried over to the linked program.
-/

namespace CoFlo.Ports

namespace Heap

/-- The vertices of a graph, and what its edges lead between. -/
def occurring (h : Heap) (g : GraphPtr) : Set VertexPtr :=
  {v | v ∈ (h.graph g).vertices ∨
    ∃ e ∈ (h.graph g).edges, (h.edge e).source = v ∨ (h.edge e).target = v}

theorem source_mem_occurring {h : Heap} {g : GraphPtr} {e : EdgePtr}
    (he : e ∈ (h.graph g).edges) : (h.edge e).source ∈ h.occurring g :=
  .inr ⟨e, he, .inl rfl⟩

theorem target_mem_occurring {h : Heap} {g : GraphPtr} {e : EdgePtr}
    (he : e ∈ (h.graph g).edges) : (h.edge e).target ∈ h.occurring g :=
  .inr ⟨e, he, .inr rfl⟩

end Heap

/-- `k` is what `CreateControlFlowGraph` has made of the function `g`. -/
def IsBuilt (g : FunctionPtr) (k : Heap) : Prop :=
  ∃ (h : Heap) (l : List VertexPtr) (fixupOrder removalOrder : IterationOrder),
    h.Fresh g l ∧ (∀ v ∈ l, (h.vertex v).statement.isParsed = true) ∧
      (h.function g).theCfg = g ∧
        h.createControlFlowGraph fixupOrder removalOrder g l = .ok k

/-- In `h` the function `g` has the graph it has in `k`, with the vertices
renamed by `ρ` and edges to and from other graphs besides. -/
structure FunctionCopy (g : FunctionPtr) (ρ : VertexPtr → VertexPtr) (k h : Heap) :
    Prop where
  injOn : Set.InjOn ρ (k.occurring g)
  vertices : (h.graph g).vertices = (k.graph g).vertices.image ρ
  mem_edges : ∀ e, e ∈ (k.graph g).edges ↔
    e ∈ (h.graph g).edges ∧ (h.edge e).edgeType.isIntraprocedural = true
  edge : ∀ e ∈ (k.graph g).edges, h.edge e =
    { k.edge e with source := ρ (k.edge e).source, target := ρ (k.edge e).target }
  statement : ∀ v ∈ (k.graph g).vertices,
    (h.vertex (ρ v)).statement.isFunctionCall = (k.vertex v).statement.isFunctionCall
  entry : ρ (k.function g).entryVertexDesc = (h.function g).entryVertexDesc
  exit : ρ (k.function g).exitVertexDesc = (h.function g).exitVertexDesc

/-- Every function of the program is a copy of one that was built. -/
def FunctionsCopied (functions : List FunctionPtr) (h : Heap) : Prop :=
  ∀ g ∈ functions, ∃ k ρ, IsBuilt g k ∧ FunctionCopy g ρ k h

/-! ## Building one more function -/

namespace FunctionCopy

variable {g : FunctionPtr} {ρ : VertexPtr → VertexPtr} {k h h' : Heap}

theorem refl (hedges : ∀ e ∈ (h.graph g).edges,
    (h.edge e).edgeType.isIntraprocedural = true) : FunctionCopy g id h h where
  injOn := Function.injective_id.injOn
  vertices := Finset.image_id.symm
  mem_edges e := (and_iff_left_of_imp (hedges e)).symm
  edge _ _ := rfl
  statement _ _ := rfl
  entry := rfl
  exit := rfl

/-- What is read of a copy. -/
theorem congr (hk : FunctionCopy g ρ k h) (hgraph : h'.graph g = h.graph g)
    (hfunction : h'.function g = h.function g)
    (hedge : ∀ e ∈ (h.graph g).edges, h'.edge e = h.edge e)
    (hvertex : ∀ v ∈ (h.graph g).vertices,
      (h'.vertex v).statement = (h.vertex v).statement) : FunctionCopy g ρ k h' where
  injOn := hk.injOn
  vertices := by rw [hgraph, hk.vertices]
  mem_edges e := by
    rw [hk.mem_edges, hgraph]
    refine and_congr_right fun he => ?_
    rw [hedge e he]
  edge e he := by
    rw [hedge e ((hk.mem_edges e).mp he).1]
    exact hk.edge e he
  statement v hv := by
    rw [hvertex (ρ v) (by rw [hk.vertices]; exact Finset.mem_image_of_mem ρ hv)]
    exact hk.statement v hv
  entry := by rw [hfunction, hk.entry]
  exit := by rw [hfunction, hk.exit]

end FunctionCopy

/-- An old function stays the copy it is, with its statements. -/
theorem FunctionCopy.built {functions : List FunctionPtr}
    {home : VertexPtr → FunctionPtr} {h k h' : Heap} (hp : ProgramFlow functions home h)
    {this g : FunctionPtr} (hg : g ∈ functions) (hne : g ≠ this) {l : List VertexPtr}
    {N : Set VertexPtr} (hk : FunctionAllocated h this l k)
    (hb : BuiltFunction k this l N h') {ρ : VertexPtr → VertexPtr} {k₀ : Heap}
    (hcopy : FunctionCopy g ρ k₀ h) :
    FunctionCopy g ρ k₀ h' ∧ ∀ v ∈ (h.graph g).vertices,
      (h'.vertex v).statement = (h.vertex v).statement := by
  have hgraph : h'.graph g = h.graph g := by
    rw [hb.graph_old g (by rw [hk.theCfg]; exact hne), hk.graph g hne]
  have hstatement : ∀ v ∈ (h.graph g).vertices,
      (h'.vertex v).statement = (h.vertex v).statement := by
    intro v hv
    have hlt := (hp.allocated v (by rw [hp.home_eq g hg v hv]; exact hg)).2
    rw [hb.statement_old v (Nat.lt_of_lt_of_le hlt hk.nextVertex_le), hk.vertex_old v hlt]
  obtain ⟨_, _, hfunction, _⟩ := hb.function
  refine ⟨hcopy.congr hgraph ?_ (fun e he => ?_) hstatement, hstatement⟩
  · rw [hfunction, Function.update_of_ne hne, hk.function g hne]
  · exact hb.edge_eq hp hk e ((hp.mem_edges g hg e).mp he).1

/-- One more function, and the old ones stay copies. -/
theorem FunctionsCopied.built {functions : List FunctionPtr}
    {home : VertexPtr → FunctionPtr} {h k h' : Heap} (hp : ProgramFlow functions home h)
    (hcopied : FunctionsCopied functions h) {this : FunctionPtr}
    (hnew : this ∉ functions) {l : List VertexPtr}
    {fixupOrder removalOrder : IterationOrder} (hk : FunctionAllocated h this l k)
    (hfresh : k.Fresh this l) (hparsed : ∀ v ∈ l, (k.vertex v).statement.isParsed = true)
    (hcreate : k.createControlFlowGraph fixupOrder removalOrder this l = .ok h') :
    FunctionsCopied (functions ++ [this]) h' := by
  obtain ⟨N, hb⟩ := createControlFlowGraph_built hfresh hparsed hcreate
  intro g hg
  rcases List.mem_append.mp hg with hg | hg
  · have hne : g ≠ this := fun heq => hnew (heq ▸ hg)
    obtain ⟨k₀, ρ, hbuilt, hcopy⟩ := hcopied g hg
    exact ⟨k₀, ρ, hbuilt, (hcopy.built hp hg hne hk hb).1⟩
  · obtain rfl := List.mem_singleton.mp hg
    refine ⟨h', id, ⟨k, l, fixupOrder, removalOrder, hfresh, hparsed, hk.theCfg, hcreate⟩,
      .refl fun e he => hb.edgeType e ?_⟩
    rw [hk.theCfg]
    exact he

/-! ## Linking -/

/-- What a replacement does to the edges and vertices of the graphs. -/
structure CallDrawn (h : Heap) (this : GraphPtr) (p : VertexPtr × VertexPtr) (h' : Heap) :
    Prop where
  function : h'.function = h.function
  statement : ∀ v, (h'.vertex v).statement = (h.vertex v).statement
  vertices : ∀ g, (h'.graph g).vertices =
    if g = this then (insert p.2 (h.graph this).vertices).erase p.1
    else (h.graph g).vertices
  edges_subset : ∀ g, (h.graph g).edges ⊆ (h'.graph g).edges
  edges_new : ∀ g, ∀ e ∈ (h'.graph g).edges, e ∉ (h.graph g).edges →
    (h'.edge e).edgeType.isIntraprocedural = false
  edge : ∀ e < h.nextEdge, h'.edge e = (h.vertexReplaced this p.1 p.2).edge e

theorem Heap.replaceCall_drawn {h h' : Heap} {outEdges : SetOrder} {this : GraphPtr}
    {p : VertexPtr × VertexPtr} (hnew : p.2 ∉ (h.graph this).vertices)
    (hrun : h.replaceCall outEdges this p = .ok h') : CallDrawn h this p h' := by
  obtain ⟨s, t, callee, heq⟩ : ∃ (s t : VertexPtr) (callee : Function),
      h' = ((h.vertexReplaced this p.1 p.2).addNewEdge this p.2 callee.entryVertexDesc
        (.functionCall p.2 callee.theCfg)).addNewEdge callee.theCfg s t
          (.returnEdge p.2) := by
    unfold Heap.replaceCall at hrun
    rw [Heap.replaceVertex_eq_ok hnew] at hrun
    simp only [bind, Except.bind] at hrun
    split at hrun
    · split at hrun
      · exact ⟨_, _, _, (Except.ok.inj hrun).symm⟩
      · exact absurd hrun (by simp)
    · exact absurd hrun (by simp)
  have hedge : ∀ e, h'.edge e = if e = h.nextEdge + 1 then ⟨s, t, .returnEdge p.2, false⟩
      else if e = h.nextEdge then
        ⟨p.2, callee.entryVertexDesc, .functionCall p.2 callee.theCfg, false⟩
      else (h.vertexReplaced this p.1 p.2).edge e := fun e => by
    rw [heq, Heap.addNewEdge_edge, Heap.addNewEdge_edge, Heap.addNewEdge_nextEdge,
      Heap.vertexReplaced_nextEdge]
  have hedges : ∀ g, (h'.graph g).edges =
      if g = callee.theCfg then
        insert (h.nextEdge + 1) (if g = this then insert h.nextEdge (h.graph g).edges
          else (h.graph g).edges)
      else if g = this then insert h.nextEdge (h.graph g).edges
      else (h.graph g).edges := fun g => by
    rw [heq, Heap.addNewEdge_graph, Heap.addNewEdge_graph, Heap.vertexReplaced_edges,
      Heap.addNewEdge_nextEdge, Heap.vertexReplaced_nextEdge]
  exact
    { function := by rw [heq]; rfl
      statement := fun v => by
        rw [heq, Heap.addNewEdge_statement, Heap.addNewEdge_statement,
          Heap.vertexReplaced_statement]
      vertices := fun g => by
        rw [heq, Heap.addNewEdge_vertices, Heap.addNewEdge_vertices,
          Heap.vertexReplaced_graph]
        split_ifs <;> rfl
      edges_subset := fun g e he => by
        rw [hedges]
        split_ifs <;> simp [he]
      edges_new := fun g e he hnot => by
        have hcases : e = h.nextEdge + 1 ∨ e = h.nextEdge := by
          rw [hedges] at he
          split_ifs at he <;> simp only [Finset.mem_insert, hnot, or_false] at he <;> tauto
        rw [hedge]
        split_ifs with h1 h2
        · rfl
        · rfl
        · exact absurd hcases (not_or.mpr ⟨h1, h2⟩)
      edge := fun e he => by
        rw [hedge, if_neg (Nat.ne_of_lt (Nat.lt_succ_of_lt he)), if_neg (Nat.ne_of_lt he)] }

section replaceCall

variable {functions : List FunctionPtr} {home : VertexPtr → FunctionPtr} {h h' : Heap}
  (hp : ProgramFlow functions home h) {this : FunctionPtr} (hthis : this ∈ functions)
  {p : VertexPtr × VertexPtr} (hcall : PendingCall functions home h this p)
  {g : FunctionPtr} (hg : g ∈ functions) {ρ : VertexPtr → VertexPtr} {k : Heap}

include hp hg

/-- The copies are vertices of the function. -/
theorem FunctionCopy.home_eq (hcopy : FunctionCopy g ρ k h) {v : VertexPtr} (hv : v ∈ k.occurring g) :
    home (ρ v) = g := by
  rcases hv with hv | ⟨e, he, hends⟩
  · refine hp.home_eq g hg _ ?_
    rw [hcopy.vertices]
    exact Finset.mem_image_of_mem ρ hv
  · obtain ⟨hmem, htype⟩ := (hcopy.mem_edges e).mp he
    obtain ⟨hattached, hsource⟩ := (hp.mem_edges g hg e).mp hmem
    have htarget := hp.home_eq_home e hattached htype
    rw [hsource] at htarget
    rw [hcopy.edge e he] at hsource htarget
    rcases hends with rfl | rfl
    · exact hsource
    · exact htarget

include hthis hcall

/-- The vertices of a graph after a replacement. -/
theorem CallDrawn.image_vertices (hdrawn : CallDrawn h this p h') :
    (h'.graph g).vertices = ((h.graph g).vertices).image (renameVertex p.1 p.2) := by
  have hhomeOld := hp.home_eq this hthis _ hcall.mem
  have hne : p.1 ≠ p.2 := fun heq =>
    hcall.home_notMem (by rw [← heq, hhomeOld]; exact hthis)
  rw [hdrawn.vertices]
  ext v
  split_ifs with heq
  · subst heq
    simp only [Finset.mem_erase, Finset.mem_insert, Finset.mem_image]
    constructor
    · rintro ⟨hv, rfl | hmem⟩
      · exact ⟨p.1, hcall.mem, renameVertex_self _ _⟩
      · exact ⟨v, hmem, renameVertex_of_ne _ hv⟩
    · rintro ⟨u, hu, rfl⟩
      by_cases huold : u = p.1
      · rw [huold, renameVertex_self]
        exact ⟨hne.symm, .inl rfl⟩
      · rw [renameVertex_of_ne _ huold]
        exact ⟨huold, .inr hu⟩
  · have hother : ∀ u ∈ (h.graph g).vertices, renameVertex p.1 p.2 u = u := by
      intro u hu
      refine renameVertex_of_ne _ fun hold => heq ?_
      rw [← hp.home_eq g hg u hu, hold, hhomeOld]
    simp only [Finset.mem_image]
    constructor
    · exact fun hv => ⟨v, hv, hother v hv⟩
    · rintro ⟨u, hu, rfl⟩
      rw [hother u hu]
      exact hu

/-- One round of the second loop of `Link`. -/
theorem FunctionCopy.replaceCall (hcopy : FunctionCopy g ρ k h) {outEdges : SetOrder}
    (hrun : h.replaceCall outEdges this p = .ok h') :
    FunctionCopy g (renameVertex p.1 p.2 ∘ ρ) k h' := by
  have hc := hp.consistent
  obtain ⟨identifier, params, hunresolved⟩ := hcall.unresolved
  obtain ⟨f, params', -, hresolved⟩ := hcall.resolved
  have hhomeOld := hp.home_eq this hthis _ hcall.mem
  have hold0 : p.1 ≠ null := (hp.allocated _ (by rw [hhomeOld]; exact hthis)).1
  have hnotMem : p.2 ∉ (h.graph this).vertices := fun hmem =>
    hcall.home_notMem (by rw [hp.home_eq this hthis _ hmem]; exact hthis)
  have hdrawn := Heap.replaceCall_drawn hnotMem hrun
  -- The new vertex does not occur yet.
  have hne : ∀ v ∈ k.occurring g, ρ v ≠ p.2 := fun v hv heq =>
    hcall.home_notMem (by rw [← heq, hcopy.home_eq hp hg hv]; exact hg)
  have hedge : ∀ e ∈ (h.graph g).edges, h'.edge e =
      { h.edge e with
        source := renameVertex p.1 p.2 (h.edge e).source
        target := renameVertex p.1 p.2 (h.edge e).target } := by
    intro e he
    rw [hdrawn.edge e (hc.lt_nextEdge (hc.edges_attached g e he))]
    exact Edge.ext (hc.vertexReplaced_source this hold0 e)
      (hc.vertexReplaced_target this hold0 e) (Heap.vertexReplaced_edgeType _ _ _)
      (Heap.vertexReplaced_isBackEdge _ _ _)
  -- Neither ENTRY nor EXIT is a call.
  have hends : ∀ v, (h.vertex v).statement = .entry ∨ (h.vertex v).statement = .exit →
      renameVertex p.1 p.2 v = v := by
    intro v hst
    refine renameVertex_of_ne _ fun heq => ?_
    rw [heq, hunresolved] at hst
    exact hst.elim (fun hst => absurd hst (by simp)) fun hst => absurd hst (by simp)
  exact
    { injOn := by
        intro u hu w hw heq
        refine hcopy.injOn hu hw ?_
        simp only [Function.comp_apply, renameVertex] at heq
        split_ifs at heq with h1 h2 h2
        · rw [h1, h2]
        · exact absurd heq.symm (hne w hw)
        · exact absurd heq (hne u hu)
        · exact heq
      vertices := by
        rw [hdrawn.image_vertices hp hthis hcall hg, hcopy.vertices, Finset.image_image]
      mem_edges := fun e => by
        rw [hcopy.mem_edges]
        by_cases he : e ∈ (h.graph g).edges
        · rw [hedge e he]
          exact and_congr_left fun _ => iff_of_true he (hdrawn.edges_subset g he)
        · refine iff_of_false (fun hcon => he hcon.1) fun hcon => ?_
          rw [hdrawn.edges_new g e hcon.1 he] at hcon
          exact absurd hcon.2 (by decide)
      edge := fun e he => by
        rw [hedge e ((hcopy.mem_edges e).mp he).1, hcopy.edge e he]
        rfl
      statement := fun v hv => by
        rw [hdrawn.statement, ← hcopy.statement v hv, Function.comp_apply]
        by_cases hold : ρ v = p.1
        · rw [hold, renameVertex_self, hresolved, hunresolved]
          rfl
        · rw [renameVertex_of_ne _ hold]
      entry := by
        rw [Function.comp_apply, hcopy.entry, hdrawn.function]
        exact hends _ (.inl (hp.entryStatement hg))
      exit := by
        rw [Function.comp_apply, hcopy.exit, hdrawn.function]
        exact hends _ (.inr (hp.exitStatement hg)) }

end replaceCall

/-! ## Whole programs -/

namespace Program

variable {memory : VertexPtr → Vertex} {p p' : Program}

theorem Invariant.functionsCopied_buildFunction (hp : p.Invariant memory)
    (hcopied : FunctionsCopied p.functions p.heap) {orders : PassOrders}
    {fi : FunctionInfo} (hfi : ∀ st ∈ fi.statementList, st.1.isParsed = true)
    (hrun : Program.buildFunction orders p fi = .ok p') :
    FunctionsCopied p'.functions p'.heap := by
  obtain ⟨home, hflow, -⟩ := hp.flow
  obtain ⟨this, k, h', l, hthis, hk, hfresh, hparsed, -, hcreate, rfl⟩ :=
    buildFunction_eq_ok hflow.consistent hfi hrun
  refine hcopied.built hflow ?_ hk hfresh hparsed hcreate
  rw [hp.mem_functions, hthis, Nat.add_comm 1]
  exact fun hmem => Nat.lt_irrefl _ hmem.2

theorem Invariant.functionsCopied_linkFunction (hp : p.Invariant memory)
    (hcopied : FunctionsCopied p.functions p.heap) {orders : PassOrders}
    {this : FunctionPtr} (hthis : this ∈ p.functions)
    (hrun : Program.linkFunction orders p this = .ok p') :
    FunctionsCopied p'.functions p'.heap := by
  obtain ⟨home, hflow, hlinked⟩ := hp.flow
  obtain ⟨h', home', hlink, -, -, -, hcopied'⟩ :=
    hflow.link_invariant (Q := FunctionsCopied p.functions) hlinked hthis
      hp.functionMap_mem (orders.link this) p.unresolvedFunctionCalls
      (fun k hedge hgraph hfunction hvertex g hg => by
        obtain ⟨k₀, ρ, hbuilt, hcopy⟩ := hcopied g hg
        refine ⟨k₀, ρ, hbuilt, hcopy.congr (by rw [hgraph]) (by rw [hfunction])
          (fun e _ => by rw [hedge]) fun v hv => ?_⟩
        rw [hvertex v (hflow.allocated v (by rw [hflow.home_eq g hg v hv]; exact hg)).2])
      fun home' q k k' hk hcall hQ hrun' g hg => by
        obtain ⟨k₀, ρ, hbuilt, hcopy⟩ := hQ g hg
        exact ⟨k₀, _, hbuilt, hcopy.replaceCall hk hthis hcall hg hrun'⟩
  unfold Program.linkFunction at hrun
  rw [hlink] at hrun
  rw [← Except.ok.inj hrun]
  exact hcopied'

theorem functionsCopied_build {orders : PassOrders} {fis : List FunctionInfo}
    (hfis : ∀ fi ∈ fis, ∀ st ∈ fi.statementList, st.1.isParsed = true)
    (hrun : build memory orders fis = .ok p) : FunctionsCopied p.functions p.heap := by
  suffices hfold : ∀ (fis : List FunctionInfo) (p₀ : Program),
      (∀ fi ∈ fis, ∀ st ∈ fi.statementList, st.1.isParsed = true) →
      p₀.Invariant memory → FunctionsCopied p₀.functions p₀.heap →
        fis.foldlM (buildFunction orders) p₀ = .ok p →
          FunctionsCopied p.functions p.heap from
    hfold fis _ hfis (.initial memory) (fun _ hg => absurd hg List.not_mem_nil) hrun
  intro fis
  induction fis with
  | nil =>
      intro p₀ _ _ hcopied hrun
      exact Except.ok.inj hrun ▸ hcopied
  | cons fi fis ih =>
      intro p₀ hfis hp hcopied hrun
      have hfi := hfis fi List.mem_cons_self
      rw [List.foldlM_cons] at hrun
      cases hfirst : buildFunction orders p₀ fi with
      | error err =>
          rw [hfirst] at hrun
          exact absurd hrun (by simp [bind, Except.bind])
      | ok p₁ =>
          rw [hfirst] at hrun
          exact ih p₁ (fun fi' hmem => hfis fi' (List.mem_cons_of_mem _ hmem))
            (hp.buildFunction hfi hfirst)
            (hp.functionsCopied_buildFunction hcopied hfi hfirst) hrun

end Program

/-- The functions of a linked program are copies of the ones that were built. -/
theorem LinkedProgram.exists_copy {p : Program} (hp : LinkedProgram p) {g : FunctionPtr}
    (hg : g ∈ p.functions) : ∃ k ρ, IsBuilt g k ∧ FunctionCopy g ρ k p.heap := by
  obtain ⟨memory, orders, fis, built, seq, hfis, hbuild, hseq, hlink⟩ := hp
  suffices hfold : ∀ (seq : List FunctionPtr) (p₀ : Program), p₀.Invariant memory →
      FunctionsCopied p₀.functions p₀.heap → (∀ f ∈ seq, f ∈ p₀.functions) →
        seq.foldlM (Program.linkFunction orders) p₀ = .ok p →
          FunctionsCopied p.functions p.heap from
    hfold seq built (Program.Invariant.build hfis hbuild)
      (Program.functionsCopied_build hfis hbuild) (fun f hf => hseq.mem_iff.mp hf) hlink g hg
  intro seq
  induction seq with
  | nil =>
      intro p₀ _ hcopied _ hrun
      exact Except.ok.inj hrun ▸ hcopied
  | cons f seq ih =>
      intro p₀ hp₀ hcopied hseq hrun
      obtain ⟨p₁, hfirst, hp₁, hfunctions, -⟩ :=
        hp₀.linkFunction orders (hseq f List.mem_cons_self)
      rw [List.foldlM_cons, hfirst] at hrun
      exact ih p₁ hp₁
        (hp₀.functionsCopied_linkFunction hcopied (hseq f List.mem_cons_self) hfirst)
        (fun g hg => hfunctions ▸ hseq g (List.mem_cons_of_mem _ hg)) hrun

end CoFlo.Ports
