import CoFlo.Ports.ExitReachable
import CoFlo.Ports.Link

/-!
# What a built function adds to the program

`CreateControlFlowGraph` seen from the rest of the program: it works on the
statements it is given and on the vertices it makes, and leaves every other
vertex, edge and graph alone.  What it leaves in its own graph is a flow that
is entered at ENTRY and left at EXIT only, along edges that stay inside the
function, and in which no call has been resolved yet.
-/

namespace CoFlo.Ports

/-- `GetCalledFunction()`, of a `FunctionCallResolved`. -/
def Statement.calledFunction : Statement → Option FunctionPtr
  | functionCallResolved targetFunction _ => some targetFunction
  | _ => none

/-- The edge types that `CreateControlFlowGraph` makes. -/
def EdgeType.isIntraprocedural : EdgeType → Bool
  | fallthrough | ifTrue | ifFalse | impossible => true
  | _ => false

open CoFlo.Verified.DepthFirstSearch Relation

/-! ## The edges before the back edges are fixed up -/

theorem linkArcs_isIntraprocedural {m : LabelMap} {st : Statement}
    {arc : EdgeType × VertexPtr} (harc : arc ∈ Heap.linkArcs m st) :
    arc.1.isIntraprocedural = true := by
  have hcase : ∀ caseList, arc ∈ Heap.caseArcs m caseList →
      arc.1.isIntraprocedural = true := by
    intro caseList hmem
    obtain ⟨v, _, rfl⟩ := List.mem_map.mp hmem
    rfl
  cases st with
  | ifUnlinked condition ifTrue ifFalse =>
      simp only [Heap.linkArcs] at harc
      split at harc
      · simp only [List.mem_cons, List.not_mem_nil, or_false] at harc
        rcases harc with rfl | rfl <;> rfl
      · exact absurd harc List.not_mem_nil
  | gotoUnlinked linkTargetName => exact hcase _ harc
  | returnUnlinked returnVarName => exact hcase _ harc
  | switchUnlinked caseList => exact hcase _ harc
  | _ => exact absurd harc List.not_mem_nil

theorem fallthroughArcs_edgeType {flow : VertexPtr → Bool}
    {chain : List VertexPtr} {a : Arc} (ha : a ∈ fallthroughArcs flow chain) :
    a.edgeType = .fallthrough := by
  induction chain with
  | nil => exact absurd ha List.not_mem_nil
  | cons v rest ih =>
      cases rest with
      | nil => exact absurd ha List.not_mem_nil
      | cons w rest =>
          rw [fallthroughArcs, List.mem_append] at ha
          rcases ha with ha | ha
          · split_ifs at ha
            · exact absurd ha List.not_mem_nil
            · rw [List.mem_singleton.mp ha]
          · exact ih ha

namespace FlowConnected

variable {h k : Heap} {this : FunctionPtr} {l : List VertexPtr}
  {ρ : VertexPtr → VertexPtr} (hf : h.Fresh this l)
  (hk : FlowConnected h this l ρ k)

include hk

theorem isIntraprocedural {e : EdgePtr}
    (he : e ∈ (k.graph (h.function this).theCfg).edges) :
    (k.edge e).edgeType.isIntraprocedural = true := by
  have hmem : k.arc e ∈ k.arcs (h.function this).theCfg :=
    Multiset.mem_map_of_mem _ he
  rw [hk.arcs, Multiset.mem_coe, List.mem_append, List.mem_append,
    List.mem_map] at hmem
  change (k.arc e).edgeType.isIntraprocedural = true
  rcases hmem with (⟨a, ha, heq⟩ | ha) | ha
  · rw [← heq]
    rcases List.mem_append.mp ha with ha | ha
    · have htype := fallthroughArcs_edgeType ha
      rw [Arc.map, htype]
      rfl
    · obtain ⟨v, _, hjump⟩ := List.mem_flatMap.mp ha
      obtain ⟨arc, harc, rfl⟩ := List.mem_map.mp hjump
      exact linkArcs_isIntraprocedural harc
  · obtain ⟨p, _, hp⟩ := List.mem_map.mp ha
    rw [← hp]
    rfl
  · rcases List.mem_cons.mp ha with heq | ha
    · rw [heq]
      rfl
    · rw [List.mem_singleton.mp ha]
      rfl

include hf

/-- A statement that control just passes through has one out-edge, a
fallthrough. -/
theorem outEdges_eq_singleton {v : VertexPtr} (hv : v ∈ l)
    (hends : h.endsBasicBlock v = false)
    (hdecision : (h.vertex v).statement.isDecisionStatement = false) :
    ∃ e, (k.vertex v).outEdges = {e} ∧
      (k.edge e).edgeType = .fallthrough := by
  have hmem : v ∈ h.originals l := Heap.mem_originals.mpr (.inr (.inr hv))
  have hkept : ρ v = v := hk.kept v fun _ => by
    by_contra hnew
    obtain ⟨new, hnew⟩ := Option.ne_none_iff_exists'.mp hnew
    rw [Heap.endsBasicBlock_of_replacement hnew] at hends
    exact absurd hends (by decide)
  have hstatement : (k.vertex v).statement = (h.vertex v).statement := by
    rw [hk.statement_old v (hf.lt_of_mem_originals hmem),
      Heap.statementOf_of_ne (hf.ne_entryPtr hv) (hf.ne_exitPtr hv)]
  obtain ⟨i, hi⟩ := List.getElem?_of_mem (List.mem_cons_of_mem h.entryPtr hv)
  have hlt := (List.getElem?_eq_some_iff.mp hi).1
  obtain ⟨w, hw⟩ : ∃ w, (h.entryPtr :: l ++ [h.exitPtr])[i + 1]? = some w := by
    rw [← Option.isSome_iff_exists, isSome_getElem?]
    simpa using hlt
  have hi' : (h.entryPtr :: l ++ [h.exitPtr])[i]? = some v := by
    rw [List.getElem?_append_left hlt, hi]
  have harc : (⟨v, .fallthrough, w⟩ : Arc) ∈ h.linkedArcs l := by
    have hfilter := flowArcs_filter_of_getElem? hf hi' hw
    rw [hends] at hfilter
    have hin : (⟨v, .fallthrough, w⟩ : Arc) ∈
        (h.flowArcs l (l.filter h.endsBasicBlock)).filter (·.source = v) := by
      rw [hfilter]
      exact List.mem_singleton_self _
    exact List.mem_of_mem_filter hin
  have hgraph : (⟨v, .fallthrough, ρ w⟩ : Arc) ∈
      k.arcs (h.function this).theCfg := by
    rw [hk.arcs, Multiset.mem_coe, List.mem_append, List.mem_append,
      List.mem_map]
    refine .inl (.inl ⟨_, harc, ?_⟩)
    rw [Arc.map, hkept]
  obtain ⟨e, _, heq⟩ := Multiset.mem_map.mp hgraph
  rw [Heap.arc, Arc.mk.injEq] at heq
  have hout : e ∈ (k.vertex v).outEdges :=
    (hk.consistent.mem_outEdges v e).mpr ⟨heq.1, hf.ne_null v hv⟩
  have hdegree : (k.vertex v).outEdges.card ≤ 1 :=
    hk.outDegree_le hf (.inl hv) (hf.ne_entryPtr hv) (hf.ne_exitPtr hv)
      (hstatement ▸ hdecision)
  refine ⟨e, ?_, heq.2.1⟩
  exact Finset.eq_singleton_iff_unique_mem.mpr
    ⟨hout, fun d hd => Finset.card_le_one.mp hdegree d hd e hout⟩

/-- The self edge is all that comes to ENTRY. -/
theorem target_eq_entryPtr_iff {entrySelf : EdgePtr}
    (hself : k.edge entrySelf = ⟨h.entryPtr, h.entryPtr, .impossible, false⟩)
    (e : EdgePtr) : (k.edge e).target = h.entryPtr ↔ e = entrySelf := by
  have hne : h.entryPtr ≠ null :=
    Nat.ne_of_gt hf.consistent.null_lt_nextVertex
  have hdegree : k.inDegree h.entryPtr = 1 := by
    rw [hk.consistent.inDegree_eq hk.encloses hne (.inr (Nat.le_refl _)),
      hk.arcs, Multiset.coe_countP, List.countP_append, List.countP_append,
      List.countP_map]
    have hlinked : (h.linkedArcs l).countP
        ((fun a => decide (a.target = h.entryPtr)) ∘ Arc.map ρ) = 0 := by
      rw [List.countP_eq_zero]
      intro a ha
      rw [Function.comp_apply, decide_eq_true_iff]
      intro heq
      refine (linkedArcs_ends hf ha).2 (hk.injOn (linkedArcs_mem ha).2
        (Heap.mem_originals.mpr (.inl rfl)) ?_)
      exact heq.trans (hk.map_entryPtr hf).symm
    have himpossible : (h.impossibleArcs l).countP
        (fun a => decide (a.target = h.entryPtr)) = 0 := by
      rw [List.countP_eq_zero]
      intro a ha
      rw [decide_eq_true_iff]
      exact hf.ne_entryPtr (impossibleArcs_mem ha).2
    have hexit : h.exitPtr ≠ h.entryPtr := h.entryPtr_ne_exitPtr.symm
    rw [hlinked, himpossible, Heap.selfArcs]
    simp [hexit]
  obtain ⟨d, hd⟩ := Finset.card_eq_one.mp hdegree
  have hmem : ∀ e, (k.edge e).target = h.entryPtr ↔ e = d := by
    intro e
    have hiff := hk.consistent.mem_inEdges h.entryPtr e
    rw [hd, Finset.mem_singleton, and_iff_left hne] at hiff
    exact hiff.symm
  have hentry : entrySelf = d := (hmem _).mp (by rw [hself])
  rw [hentry]
  exact hmem e

end FlowConnected

/-! ## ENTRY and EXIT through the other phases -/

namespace Heap

section fixedUp

variable {k f : Heap} {g : GraphPtr} {M : Set VertexPtr}
  {entry exit : VertexPtr} (hs : FlowShape k g M entry exit)
  {order : IterationOrder}

include hs

theorem FlowShape.ne_null : entry ≠ null ∧ exit ≠ null := by
  have hnull := hs.consistent.null_notMem hs.encloses
  constructor
  · rintro rfl
    exact hnull (hs.vertices _ hs.entry_mem)
  · rintro rfl
    exact hnull (hs.vertices _ hs.exit_mem)

/-- Proxy edges do not come to ENTRY, nor from EXIT. -/
theorem FlowShape.proxy_ends {s t : VertexPtr}
    (hproxy : k.Proxy order (k.searchRoots order g entry) s t) :
    t ≠ entry ∧ s ≠ exit := by
  constructor
  · obtain ⟨_, _, _, w, d, _, _, _, _, hdecision, hd, htarget⟩ :=
      hs.consistent.exists_decision hproxy
    intro hentry
    have hsource := hs.enter d (htarget.trans hentry)
    rw [hs.consistent.source_eq_of_mem hd] at hsource
    rw [hsource, hs.entry_statement] at hdecision
    exact absurd hdecision (by decide)
  · obtain ⟨hnull, e, hsingle, _, _, _, _, hres⟩ := hproxy
    have hsource : (k.edge e).source = s :=
      hs.consistent.source_eq_of_mem (by simp [hsingle])
    intro hexit
    -- The only way out of EXIT is its self edge, which gets no proxy.
    have htarget := hs.leave e (hsource.trans hexit)
    rw [if_pos (hsource.trans (hexit.trans htarget.symm))] at hres
    exact hnull (Except.ok.inj hres)

/-- A self edge of a vertex the search starts from is a back edge. -/
theorem FlowShape.isBackEdge_self {e : EdgePtr}
    (hroot : (k.edge e).source ∈ k.searchRoots order g entry)
    (hne : (k.edge e).source ≠ null)
    (hself : (k.edge e).target = (k.edge e).source) :
    IsBackEdge (k.incidence order) (k.searchRoots order g entry) e := by
  obtain ⟨r, p, hpath, _⟩ := exists_searchPath hs.incidence_proper
    (hs.consistent.searchUniverse order (k.searchRoots order g entry))
    ⟨(k.edge e).source, hroot, [], rfl⟩
  obtain ⟨_, _, _, _, hleast⟩ := id hpath
  refine ⟨_, r, p,
    (hs.consistent.mem_incidence_out order _ e).mpr ⟨rfl, hne⟩, hpath, ?_⟩
  have htarget : (k.incidence order).target e = (k.edge e).source := hself
  rw [htarget]
  exact hleast.1.1.end_mem

variable (hfix : FixedUp k order g (k.searchRoots order g entry) f)

include hfix

theorem FixedUp.target_eq_entry_iff (e : EdgePtr) :
    (f.edge e).target = entry ↔ (k.edge e).target = entry := by
  rcases Nat.lt_or_ge e k.nextEdge with hlt | hge
  · obtain ⟨_, hedge, _⟩ := hfix.old e hlt
    rw [hedge]
  · have hk : (k.edge e).target ≠ entry := by
      intro heq
      have hsource : (k.edge e).source ≠ null := by
        rw [Ne, hs.consistent.source_eq_null, heq]
        exact hs.ne_null.1
      exact Nat.not_lt.mpr hge (hs.consistent.lt_nextEdge hsource)
    refine iff_of_false (fun heq => ?_) hk
    have hsource : (f.edge e).source ≠ null := by
      rw [Ne, hfix.consistent.source_eq_null, heq]
      exact hs.ne_null.1
    obtain ⟨s, t, hproxy, hedge⟩ :=
      hfix.new e hge (hfix.consistent.lt_nextEdge hsource)
    rw [hedge] at heq
    exact (hs.proxy_ends hproxy).1 heq

theorem FixedUp.leave {e : EdgePtr} (he : (f.edge e).source = exit) :
    (f.edge e).target = exit := by
  have hlt := hfix.consistent.lt_nextEdge (he ▸ hs.ne_null.2)
  rcases Nat.lt_or_ge e k.nextEdge with hold | hge
  · obtain ⟨_, hedge, _⟩ := hfix.old e hold
    rw [hedge] at he ⊢
    exact hs.leave e he
  · obtain ⟨s, t, hproxy, hedge⟩ := hfix.new e hge hlt
    rw [hedge] at he
    exact absurd he (hs.proxy_ends hproxy).2

theorem FixedUp.enter {e : EdgePtr} (he : (f.edge e).target = entry) :
    (f.edge e).source = entry := by
  have htarget := (FixedUp.target_eq_entry_iff hs hfix e).mp he
  have hsource := hs.enter e htarget
  obtain ⟨_, hedge, _⟩ := hfix.old e
    (hs.consistent.lt_nextEdge (hsource ▸ hs.ne_null.1))
  rw [hedge]
  exact hsource

end fixedUp

section contracted

variable {g : GraphPtr} {h k : Heap} {vs : List VertexPtr}

/-- The edges into a vertex that only its self edges come to, and which is not
contracted, stay as they are. -/
theorem ContractsTo.target_eq_iff (hk : ContractsTo g h vs k)
    (hc : h.Consistent) {x : VertexPtr} (hx : x ≠ null) (hvs : x ∉ vs)
    (henter : ∀ e, (h.edge e).target = x → (h.edge e).source = x) :
    ∀ e, ((k.edge e).target = x ↔ (h.edge e).target = x) ∧
      ((k.edge e).target = x → k.edge e = h.edge e) := by
  induction hk with
  | refl => exact fun e => ⟨Iff.rfl, fun _ => rfl⟩
  | @contract vs k v a b hk hv ha hb hag hbg ih =>
      simp only [List.mem_append, List.mem_singleton, not_or] at hvs
      have ih := ih hvs.1
      obtain ⟨htarget, hsource, hv0⟩ := (hk.consistent hc).edges_eq ha hb
      have hbx : (k.edge b).target ≠ x := by
        intro heq
        have hsame := (ih b).2 heq
        have hbsource := henter b ((ih b).1.mp heq)
        rw [← hsame, (hsource b).mpr rfl] at hbsource
        exact hvs.2 hbsource.symm
      have hax : (k.edge a).target ≠ x := by
        rw [(htarget a).mpr rfl]
        exact fun heq => hvs.2 heq.symm
      intro e
      rw [contract_edge]
      by_cases heb : e = b
      · subst heb
        simp only [if_true]
        refine ⟨iff_of_false hx.symm ?_, fun heq => absurd heq hx.symm⟩
        rw [← (ih e).1]
        exact hbx
      · by_cases hea : e = a
        · subst hea
          simp only [if_neg heb, if_true]
          refine ⟨iff_of_false hbx ?_, fun heq => absurd heq hbx⟩
          rw [← (ih e).1]
          exact hax
        · simp only [if_neg heb, if_neg hea]
          exact ih e

/-- Likewise for the edges out of such a vertex. -/
theorem ContractsTo.leave (hk : ContractsTo g h vs k) (hc : h.Consistent)
    {x : VertexPtr} (hx : x ≠ null) (hvs : x ∉ vs)
    (hleave : ∀ e, (h.edge e).source = x → (h.edge e).target = x) :
    ∀ e, (k.edge e).source = x → (k.edge e).target = x := by
  induction hk with
  | refl => exact hleave
  | @contract vs k v a b hk hv ha hb hag hbg ih =>
      simp only [List.mem_append, List.mem_singleton, not_or] at hvs
      obtain ⟨htarget, _, hv0⟩ := (hk.consistent hc).edges_eq ha hb
      intro e he
      rw [contract_edge] at he ⊢
      by_cases heb : e = b
      · subst heb
        simp only [if_true] at he
        exact absurd he hx.symm
      · simp only [if_neg heb] at he ⊢
        have hold := ih hvs.1 e he
        rw [if_neg]
        · exact hold
        · rintro rfl
          rw [(htarget e).mpr rfl] at hold
          exact hvs.2 hold.symm

/-- Edges that do not leave a contracted vertex stay in the graph. -/
theorem ContractsTo.mem_edges (hk : ContractsTo g h vs k) (hc : h.Consistent)
    {e : EdgePtr} (he : e ∈ (h.graph g).edges)
    (hsource : (h.edge e).source ∉ vs) : e ∈ (k.graph g).edges := by
  induction hk with
  | refl => exact he
  | @contract vs k v a b hk hv ha hb hag hbg ih =>
      simp only [List.mem_append, List.mem_singleton, not_or] at hsource
      have hmem := ih hsource.1
      obtain ⟨_, hout, _⟩ := (hk.consistent hc).edges_eq ha hb
      rw [contract_graph, if_pos rfl, Finset.mem_erase]
      refine ⟨fun heb => hsource.2 ?_, hmem⟩
      obtain ⟨_, hedge⟩ := (hk.contracted hc).edge e hmem
      have hsame : (k.edge e).source = (h.edge e).source := by rw [hedge]
      rw [← hsame]
      exact (hout e).mpr heb

/-- Contracting keeps the out-edges of a vertex that is not contracted, up to
where they lead. -/
theorem ContractsTo.source_eq_iff (hk : ContractsTo g h vs k)
    (hc : h.Consistent) {M : Set VertexPtr} (hM : h.Encloses g M)
    {v : VertexPtr} (hv : v ∈ M) (hvs : v ∉ vs) (e : EdgePtr) :
    ((k.edge e).source = v ↔ (h.edge e).source = v) ∧
      ((h.edge e).source = v → (k.edge e).edgeType = (h.edge e).edgeType) := by
  have hcontracted := hk.contracted hc
  have hsame : e ∈ (k.graph g).edges →
      (k.edge e).source = (h.edge e).source ∧
        (k.edge e).edgeType = (h.edge e).edgeType := by
    intro he
    obtain ⟨_, hedge⟩ := hcontracted.edge e he
    rw [hedge]
    exact ⟨rfl, rfl⟩
  have hmem : (h.edge e).source = v → e ∈ (k.graph g).edges := by
    intro heq
    have he := (hM.mem_edges_source e).mpr (heq ▸ hv)
    exact hk.mem_edges hc he (heq ▸ hvs)
  refine ⟨⟨fun heq => ?_, fun heq => ?_⟩, fun heq => (hsame (hmem heq)).2⟩
  · have he := ((hk.encloses hc hM).mem_edges_source e).mpr (heq ▸ hv)
    rw [← (hsame he).1]
    exact heq
  · rw [(hsame (hmem heq)).1]
    exact heq

end contracted

/-- The fallthrough out-edges of `v` are the one edge `e`. -/
def FallsThrough (h : Heap) (v : VertexPtr) (e : EdgePtr) : Prop :=
  ∀ d, (h.edge d).source = v ∧ (h.edge d).edgeType.isFallthrough = true ↔ d = e

theorem fallsThrough_congr {h h' : Heap} (hedge : h'.edge = h.edge)
    (v : VertexPtr) (e : EdgePtr) : h'.FallsThrough v e ↔ h.FallsThrough v e := by
  simp only [FallsThrough, hedge]

end Heap

/-! ## The graph that is left -/

/-- The classes whose objects `ResolveLinks` constructs. -/
def Statement.isLinkedFlowControl : Statement → Bool
  | gotoStatement | ifStatement _ | switchStatement => true
  | _ => false

/-- The objects that only `ResolveLinks` and `Link` construct. -/
def Statement.isConstructedByLinking : Statement → Bool
  | functionCallResolved _ _ => true
  | st => st.isLinkedFlowControl

theorem Statement.isConstructedByLinking_of_isParsed {st : Statement}
    (hst : st.isParsed = true) : st.isConstructedByLinking = false := by
  cases st <;> first | rfl | exact Bool.noConfusion hst

theorem Statement.isConstructedByLinking_of_isLinkedFlowControl
    {st : Statement} (hst : st.isLinkedFlowControl = true) :
    st.isConstructedByLinking = true := by
  cases st <;> first | rfl | exact Bool.noConfusion hst

/-- What a successful `CreateControlFlowGraph` has made of the heap `h`, with
`N` the vertices that are or have been in the graph. -/
structure BuiltFunction (h : Heap) (this : FunctionPtr) (l : List VertexPtr)
    (N : Set VertexPtr) (h' : Heap) : Prop where
  consistent : h'.Consistent
  encloses : h'.Encloses (h.function this).theCfg N
  nextEdge_le : h.nextEdge ≤ h'.nextEdge
  edge_old : ∀ e, e < h.nextEdge → h'.edge e = h.edge e
  edge_new : ∀ e, h.nextEdge ≤ e → (h'.edge e).source ≠ null →
    e ∈ (h'.graph (h.function this).theCfg).edges
  graph_old : ∀ i, i ≠ (h.function this).theCfg → h'.graph i = h.graph i
  vertexIndex_old : ∀ v, v < h.nextVertex → v ∉ l →
    (h'.vertex v).vertexIndex = (h.vertex v).vertexIndex
  nextVertex_le : h.nextVertex + 2 ≤ h'.nextVertex
  function : ∃ entrySelf exitSelf,
    h'.function = Function.update h.function this
      { h.function this with
        entryVertexDesc := h.entryPtr
        exitVertexDesc := h.exitPtr
        entryVertexSelfEdge := entrySelf
        exitVertexSelfEdge := exitSelf } ∧
    h'.edge entrySelf = ⟨h.entryPtr, h.entryPtr, .impossible, true⟩ ∧
    ∀ e, (h'.edge e).target = h.entryPtr ↔ e = entrySelf
  leave : ∀ e, (h'.edge e).source = h.exitPtr →
    (h'.edge e).target = h.exitPtr ∧ (h'.edge e).isBackEdge = true
  statement_old : ∀ v, v < h.nextVertex →
    (h'.vertex v).statement = (h.vertex v).statement
  statement : ∀ v ∈ N,
    (v = h.entryPtr ∧ (h'.vertex v).statement = .entry) ∨
    (v = h.exitPtr ∧ (h'.vertex v).statement = .exit) ∨
    (v ∈ l ∧ (h'.vertex v).statement.isParsed = true) ∨
    (h.nextVertex + 2 ≤ v ∧
      (h'.vertex v).statement.isLinkedFlowControl = true)
  lt_nextVertex : ∀ v ∈ N, v < h'.nextVertex
  vertices : ∀ v ∈ (h'.graph (h.function this).theCfg).vertices, v ∈ N
  entry_mem : h.entryPtr ∈ (h'.graph (h.function this).theCfg).vertices
  exit_mem : h.exitPtr ∈ (h'.graph (h.function this).theCfg).vertices
  edgeType : ∀ e ∈ (h'.graph (h.function this).theCfg).edges,
    (h'.edge e).edgeType.isIntraprocedural = true
  fallthrough : ∀ v ∈ (h'.graph (h.function this).theCfg).vertices,
    ∀ identifier params,
      (h'.vertex v).statement = .functionCallUnresolved identifier params →
        ∃ e, h'.FallsThrough v e
  owner : ∀ v, v ∈ h.originals l → (h'.vertex v).owningFunction = this
  owner_notMem : ∀ v, v ∉ h.originals l →
    (h'.vertex v).owningFunction = (h.vertex v).owningFunction
  indexed : h'.Indexed (h.function this).theCfg N
  entryIndex : (h'.vertex h.entryPtr).vertexIndex =
    (h.graph (h.function this).theCfg).vertexIdState
  exitIndex : (h'.vertex h.exitPtr).vertexIndex =
    (h.graph (h.function this).theCfg).vertexIdState + 1

namespace FlowConnected

variable {h k : Heap} {this : FunctionPtr} {l : List VertexPtr}
  {ρ : VertexPtr → VertexPtr} (hf : h.Fresh this l)
  (hk : FlowConnected h this l ρ k)

/-- The vertices that are in the graph, and those of the list that linking has
replaced. -/
def placed (h k : Heap) (this : FunctionPtr) (l : List VertexPtr) :
    Set VertexPtr :=
  {v | v ∈ l ∨ v ∈ (k.graph (h.function this).theCfg).vertices}

include hf hk

theorem placed_subset {v : VertexPtr} (hv : v ∈ placed h k this l) :
    v ∈ h.indexedVertices l k := by
  have hmem : v ∈ h.owned l ∧ v < k.nextVertex := by
    rcases hv with hv | hv
    · refine ⟨.inl hv, ?_⟩
      exact Nat.lt_of_lt_of_le (Nat.lt_add_right 2 (hf.lt_nextVertex v hv))
        hk.nextVertex_le
    · refine ⟨hk.vertices_subset hf (Finset.mem_coe.mpr hv), ?_⟩
      rw [hk.vertices, Finset.mem_image] at hv
      obtain ⟨u, hu, rfl⟩ := hv
      by_cases hkept : u ∈ l → h.replacement l u = none
      · rw [hk.kept u hkept]
        exact Nat.lt_of_lt_of_le (hf.lt_of_mem_originals hu) hk.nextVertex_le
      · rw [Classical.not_imp] at hkept
        obtain ⟨new, hnew⟩ := Option.ne_none_iff_exists'.mp hkept.2
        exact (hk.linked u hkept.1 new hnew).2.1
  by_cases hnew : h.nextVertex + 2 ≤ v
  · exact .inr ⟨hnew, hmem.2⟩
  · refine .inl (Heap.mem_originals.mpr ?_)
    rcases hmem.1 with hl | hle
    · exact .inr (.inr hl)
    · rcases Nat.eq_or_lt_of_le hle with heq | hlt
      · exact .inl heq.symm
      · exact .inr (.inl (Nat.le_antisymm
          (Nat.le_of_lt_succ (Nat.not_le.mp hnew)) hlt))

theorem encloses_placed :
    k.Encloses (h.function this).theCfg (placed h k this l) := by
  refine hk.encloses.subset (fun v hv => ?_) fun e he => ?_
  · rcases hk.placed_subset hf hv with hmem | hmem
    · exact hf.owned_of_mem_originals hmem
    · exact .inr (Nat.le_trans (Nat.le_add_right _ 2) hmem.1)
  · have hmem : k.arc e ∈ k.arcs (h.function this).theCfg :=
      Multiset.mem_map_of_mem _ he
    rw [hk.arcs, Multiset.mem_coe, List.mem_append, List.mem_append,
      List.mem_map] at hmem
    change (k.arc e).source ∈ _ ∧ (k.arc e).target ∈ _
    rcases hmem with (⟨a, ha, heq⟩ | ha) | ha
    · rw [← heq]
      obtain ⟨hsource, htarget⟩ := linkedArcs_mem ha
      exact ⟨.inr (hk.mem_vertices_map hsource),
        .inr (hk.mem_vertices_map htarget)⟩
    · obtain ⟨hsource, htarget⟩ := impossibleArcs_mem ha
      exact ⟨.inl hsource, .inl htarget⟩
    · rcases List.mem_cons.mp ha with heq | ha
      · rw [heq]
        exact ⟨.inr (hk.entryPtr_mem hf), .inr (hk.entryPtr_mem hf)⟩
      · rw [List.mem_singleton.mp ha]
        exact ⟨.inr (hk.exitPtr_mem hf), .inr (hk.exitPtr_mem hf)⟩

theorem placed_statement
    (hl : ∀ v ∈ l, (h.vertex v).statement.isParsed = true) {v : VertexPtr}
    (hv : v ∈ placed h k this l) :
    (v = h.entryPtr ∧ (k.vertex v).statement = .entry) ∨
    (v = h.exitPtr ∧ (k.vertex v).statement = .exit) ∨
    (v ∈ l ∧ (k.vertex v).statement.isParsed = true) ∨
    (h.nextVertex + 2 ≤ v ∧
      (k.vertex v).statement.isLinkedFlowControl = true) := by
  have hlist : ∀ v ∈ l, (k.vertex v).statement.isParsed = true := by
    intro v hv
    rw [hk.statement_old v (Nat.lt_add_right 2 (hf.lt_nextVertex v hv)),
      Heap.statementOf_of_ne (hf.ne_entryPtr hv) (hf.ne_exitPtr hv)]
    exact hl v hv
  rcases hv with hv | hv
  · exact .inr (.inr (.inl ⟨hv, hlist v hv⟩))
  rw [hk.vertices, Finset.mem_image] at hv
  obtain ⟨u, hu, rfl⟩ := hv
  by_cases hkept : u ∈ l → h.replacement l u = none
  · rw [hk.kept u hkept]
    rcases Heap.mem_originals.mp hu with rfl | rfl | hu'
    · refine .inl ⟨rfl, ?_⟩
      rw [hk.statement_old _ (hf.lt_of_mem_originals hu),
        Heap.statementOf_entryPtr]
    · refine .inr (.inl ⟨rfl, ?_⟩)
      rw [hk.statement_old _ (hf.lt_of_mem_originals hu),
        Heap.statementOf_exitPtr]
    · exact .inr (.inr (.inl ⟨hu', hlist u hu'⟩))
  · rw [Classical.not_imp] at hkept
    obtain ⟨new, hnew⟩ := Option.ne_none_iff_exists'.mp hkept.2
    obtain ⟨hle, _, hstatement⟩ := hk.linked u hkept.1 new hnew
    refine .inr (.inr (.inr ⟨hle, ?_⟩))
    rw [hstatement]
    rcases (Heap.linkedStatement_cases _ hnew).2 with rfl | ⟨_, rfl⟩ | rfl <;>
      rfl

end FlowConnected

section run

variable {h k f c h' : Heap} {this : FunctionPtr} {l : List VertexPtr}
  {ρ : VertexPtr → VertexPtr} {fixupOrder removalOrder : IterationOrder}
  (hf : h.Fresh this l) (hk : FlowConnected h this l ρ k)
  (hr : CreateRun k fixupOrder removalOrder (h.function this).theCfg
    h.entryPtr f c h')

include hr

/-- The passes after the linking loop write to the edge sets only. -/
theorem CreateRun.vertex_eq (v : VertexPtr) : ∃ outEdges inEdges,
    h'.vertex v = { k.vertex v with outEdges, inEdges } := by
  obtain ⟨_, _, hfixed⟩ := hr.fixedUp.vertex v
  obtain ⟨_, _, hcontracted⟩ :=
    (hr.contractsTo.contracted hr.fixedUp.consistent).vertex v
  rw [hr.result, (Heap.foldl_removeVertex_frame c _).1, hcontracted, hfixed]
  exact ⟨_, _, rfl⟩

include hf hk

/-- A call has one fallthrough edge through all phases. -/
theorem CreateRun.fallsThrough
    (hl : ∀ v ∈ l, (h.vertex v).statement.isParsed = true) {v : VertexPtr}
    (hv : v ∈ (h'.graph (h.function this).theCfg).vertices)
    {identifier params : String}
    (hst : (h'.vertex v).statement = .functionCallUnresolved identifier params) :
    ∃ e, h'.FallsThrough v e := by
  have hshape := hk.flowShape hf
  obtain ⟨hvk, _⟩ := (hr.mem_vertices v).mp hv
  obtain ⟨_, _, hvertex⟩ := hr.vertex_eq v
  have hstk : (k.vertex v).statement =
      .functionCallUnresolved identifier params := by
    rw [← hst, hvertex]
  have hmem : v ∈ l := by
    rcases hk.placed_statement hf hl (.inr hvk) with
      ⟨_, h0⟩ | ⟨_, h0⟩ | ⟨hmem, _⟩ | ⟨_, h0⟩
    · rw [hstk] at h0
      exact absurd h0 (by simp)
    · rw [hstk] at h0
      exact absurd h0 (by simp)
    · exact hmem
    · rw [hstk] at h0
      exact absurd h0 (by simp [Statement.isLinkedFlowControl])
  have hsth : (h.vertex v).statement =
      .functionCallUnresolved identifier params := by
    rw [← hstk, hk.statement_old v
      (Nat.lt_add_right 2 (hf.lt_nextVertex v hmem)),
      Heap.statementOf_of_ne (hf.ne_entryPtr hmem) (hf.ne_exitPtr hmem)]
  obtain ⟨e, hout, htype⟩ := hk.outEdges_eq_singleton hf hmem
    (by
      rw [Heap.endsBasicBlock, Heap.statementOf_of_ne (hf.ne_entryPtr hmem)
        (hf.ne_exitPtr hmem), hsth]
      rfl)
    (by rw [hsth]; rfl)
  have hnull : v ≠ null := hf.ne_null v hmem
  have hsource : ∀ d, (k.edge d).source = v ↔ d = e := by
    intro d
    have hiff := hk.consistent.mem_outEdges v d
    rw [hout, Finset.mem_singleton, and_iff_left hnull] at hiff
    exact hiff.symm
  have hkept : v ∉ f.redundantVertices removalOrder
      (h.function this).theCfg := by
    intro hrem
    have hred := ((hr.mem_removed v).mp hrem).2
    rw [Heap.isRedundant, Bool.and_eq_true, hr.fixedUp.statement_eq, hstk]
      at hred
    exact Bool.noConfusion hred.1
  have hroots := hk.roots_owned hf fixupOrder
  have hencloses := hr.fixedUp.encloses hk.consistent hk.encloses hroots
  refine ⟨e, fun d => ?_⟩
  obtain ⟨hiff, htypes⟩ := hr.contractsTo.source_eq_iff hr.fixedUp.consistent
    hencloses (hk.vertices_subset hf (Finset.mem_coe.mpr hvk)) hkept d
  rw [hr.edge_eq, hiff]
  have hlt : e < k.nextEdge :=
    hk.consistent.lt_nextEdge (by rw [(hsource e).mpr rfl]; exact hnull)
  constructor
  · rintro ⟨hd, hfall⟩
    rw [htypes hd] at hfall
    rcases Nat.lt_or_ge d k.nextEdge with hold | hnew
    · obtain ⟨_, hedge, _⟩ := hr.fixedUp.old d hold
      rw [hedge] at hd
      exact (hsource d).mp hd
    · -- Proxy edges are not fallthroughs.
      obtain ⟨_, _, _, hedge⟩ := hr.fixedUp.new d hnew
        (hr.fixedUp.consistent.lt_nextEdge (hd ▸ hnull))
      rw [hedge] at hfall
      exact Bool.noConfusion hfall
  · rintro rfl
    obtain ⟨_, hedge, _⟩ := hr.fixedUp.old d hlt
    have hd : (f.edge d).source = v := by
      rw [hedge]
      exact (hsource d).mpr rfl
    refine ⟨hd, ?_⟩
    rw [htypes hd, hedge, htype]
    rfl

/-- ENTRY and EXIT at the end: nothing comes to ENTRY and nothing leaves EXIT
but their self edges, which are marked. -/
theorem CreateRun.ends {entrySelf : EdgePtr}
    (hself : k.edge entrySelf = ⟨h.entryPtr, h.entryPtr, .impossible, false⟩) :
    h'.edge entrySelf = ⟨h.entryPtr, h.entryPtr, .impossible, true⟩ ∧
      (∀ e, (h'.edge e).target = h.entryPtr ↔ e = entrySelf) ∧
      ∀ e, (h'.edge e).source = h.exitPtr →
        (h'.edge e).target = h.exitPtr ∧ (h'.edge e).isBackEdge = true := by
  have hs := hk.flowShape hf
  have hfc := hr.fixedUp.consistent
  have hencloses := hr.fixedUp.encloses hk.consistent hk.encloses
    (hk.roots_owned hf fixupOrder)
  have hentry := hr.notMem_removed_of_ne hs (.inl rfl)
  have hexit := hr.notMem_removed_of_ne hs (.inr rfl)
  have htarget := hk.target_eq_entryPtr_iff hf hself
  have hmark : ∀ e, (k.edge e).source ≠ null →
      (k.edge e).target = (k.edge e).source →
      (k.edge e).source ∈ k.searchRoots fixupOrder (h.function this).theCfg
        h.entryPtr →
      f.edge e = { k.edge e with isBackEdge := true } := by
    intro e hnull hloop hroot
    obtain ⟨isBackEdge, hedge, hiff⟩ :=
      hr.fixedUp.old e (hk.consistent.lt_nextEdge hnull)
    rw [hedge, hiff.mpr (.inr (hs.isBackEdge_self hroot hnull hloop))]
  have hiff := hr.contractsTo.target_eq_iff hfc hs.ne_null.1 hentry
    fun e he => Heap.FixedUp.enter hs hr.fixedUp he
  have htarget' : ∀ e, (h'.edge e).target = h.entryPtr ↔ e = entrySelf := by
    intro e
    rw [hr.edge_eq, (hiff e).1, Heap.FixedUp.target_eq_entry_iff hs hr.fixedUp]
    exact htarget e
  refine ⟨?_, htarget', fun e he => ?_⟩
  · have hsame := (hiff entrySelf).2 (by
      rw [← hr.edge_eq]
      exact (htarget' entrySelf).mpr rfl)
    rw [hr.edge_eq, hsame, hmark entrySelf (by rw [hself]; exact hs.ne_null.1)
      (by rw [hself]) (by rw [hself]; exact List.mem_cons_self), hself]
  · rw [hr.edge_eq] at he ⊢
    have hsource := (hr.contractsTo.source_eq_iff hfc hencloses
      (hs.vertices _ hs.exit_mem) hexit e).1.mp he
    have hloop := hr.contractsTo.leave hfc hs.ne_null.2 hexit
      (fun d hd => Heap.FixedUp.leave hs hr.fixedUp hd) e he
    refine ⟨hloop, ?_⟩
    have hmem := (((hr.contractsTo.encloses hfc hencloses).mem_edges_source
      e).mpr (he ▸ hs.vertices _ hs.exit_mem))
    obtain ⟨_, hedge⟩ := (hr.contractsTo.contracted hfc).edge e hmem
    have hflt := hfc.lt_nextEdge (hsource ▸ hs.ne_null.2)
    have hfloop := Heap.FixedUp.leave hs hr.fixedUp hsource
    -- A proxy edge does not leave EXIT.
    have hlt : e < k.nextEdge := by
      by_contra hge
      obtain ⟨s, t, hproxy, hnew⟩ :=
        hr.fixedUp.new e (Nat.le_of_not_lt hge) hflt
      rw [hnew] at hsource
      exact (hs.proxy_ends hproxy).2 hsource
    obtain ⟨_, hold, _⟩ := hr.fixedUp.old e hlt
    have hks : (k.edge e).source = h.exitPtr := by
      rw [hold] at hsource
      exact hsource
    have hkt : (k.edge e).target = h.exitPtr := by
      rw [hold] at hfloop
      exact hfloop
    have hroot : h.exitPtr ∈ k.searchRoots fixupOrder
        (h.function this).theCfg h.entryPtr :=
      List.mem_cons_of_mem _ ((fixupOrder.vertices.mem_enum _).mpr hs.exit_mem)
    rw [hedge, hmark e (hks ▸ hs.ne_null.2) (hkt.trans hks.symm)
      (hks ▸ hroot)]

end run

/-- A function that has been built. -/
theorem createControlFlowGraph_built {h h' : Heap} {this : FunctionPtr}
    {l : List VertexPtr} {fixupOrder removalOrder : IterationOrder}
    (hf : h.Fresh this l)
    (hl : ∀ v ∈ l, (h.vertex v).statement.isParsed = true)
    (hrun : h.createControlFlowGraph fixupOrder removalOrder this l = .ok h') :
    ∃ N, BuiltFunction h this l N h' := by
  obtain ⟨k, ρ, hconnected, hk⟩ := connectedFlow_spec hf
  obtain ⟨_, herror⟩ | ⟨_, f, c, _, hok, hr⟩ :=
    createControlFlowGraph_spec hf hconnected hk fixupOrder removalOrder
  · rw [hrun] at herror
    exact absurd herror (by simp)
  obtain rfl := Except.ok.inj (hrun.symm.trans hok)
  have hs := hk.flowShape hf
  have hfc := hr.fixedUp.consistent
  have hplaced := hk.encloses_placed hf
  have hroots : ∀ r ∈ k.searchRoots fixupOrder (h.function this).theCfg
      h.entryPtr, r ∈ FlowConnected.placed h k this l := fun r hr =>
    .inr (Heap.searchRoots_mem hs.entry_mem r hr)
  have hplacedf := hr.fixedUp.encloses hk.consistent hplaced hroots
  have hplacedc := hr.contractsTo.encloses hfc hplacedf
  obtain ⟨entrySelf, exitSelf, hfunction, hself, _⟩ := hk.function
  obtain ⟨hself', henter, hleave⟩ := hr.ends hf hk hself
  have hcontracted := hr.contractsTo.contracted hfc
  have hnext : h'.nextVertex = k.nextVertex := by
    rw [hr.result, (Heap.foldl_removeVertex_frame c _).2.2.2.1,
      hcontracted.nextVertex, hr.fixedUp.nextVertex]
  have hedges : ∀ g, (h'.graph g).edges = (c.graph g).edges := by
    intro g
    rw [hr.result, Heap.foldl_removeVertex]
  have hnextEdge : h'.nextEdge = c.nextEdge := by
    rw [hr.result, (Heap.foldl_removeVertex_frame c _).2.2.2.2]
  have hvertex : h'.vertex = c.vertex := by
    rw [hr.result, (Heap.foldl_removeVertex_frame c _).1]
  have hconfined : h.Confined (h.function this).theCfg (h.owned l) h' := by
    have hownedRoots := hk.roots_owned hf fixupOrder
    have hfixed := hr.fixedUp.confined hk.consistent hk.encloses hownedRoots
    have hremoved := hr.contractsTo.confined hfc
      (hr.fixedUp.encloses hk.consistent hk.encloses hownedRoots)
    refine ((hk.confined.trans hfixed).trans hremoved).congr hr.edge_eq
      (fun i hi => ?_) (fun v _ => ?_) hnextEdge
    · rw [hr.result, Heap.foldl_removeVertex, if_neg hi]
    · rw [hvertex]
  have hencloses : h'.Encloses (h.function this).theCfg (h.owned l) :=
    (hr.contractsTo.encloses hfc (hr.fixedUp.encloses hk.consistent hk.encloses
      (hk.roots_owned hf fixupOrder))).congr hr.edge_eq (hedges _)
  -- Before the run no edge has touched the statements of the list.
  have hnotOwned : ∀ e, (h.edge e).source ∉ h.owned l ∧
      (h.edge e).target ∉ h.owned l := by
    intro e
    have hnotMem : e ∉ (h.graph (h.function this).theCfg).edges := by
      rw [hf.edges_eq]
      exact Finset.notMem_empty e
    exact ⟨fun hmem => hnotMem ((hf.encloses.mem_edges_source e).mpr hmem),
      fun hmem => hnotMem ((hf.encloses.mem_edges_target e).mpr hmem)⟩
  have hvertexEq : ∀ v, ∃ outEdges inEdges,
      h'.vertex v = { k.vertex v with outEdges, inEdges } := hr.vertex_eq
  have hstatement : ∀ v, (h'.vertex v).statement = (k.vertex v).statement := by
    intro v
    obtain ⟨_, _, hv⟩ := hvertexEq v
    rw [hv]
  have howner : ∀ v, (h'.vertex v).owningFunction =
      (k.vertex v).owningFunction := by
    intro v
    obtain ⟨_, _, hv⟩ := hvertexEq v
    rw [hv]
  have hindex : ∀ v, (h'.vertex v).vertexIndex = (k.vertex v).vertexIndex := by
    intro v
    obtain ⟨_, _, hv⟩ := hvertexEq v
    rw [hv]
  have hremovable := fun v hv => hr.notMem_removed_of_ne (v := v) hs hv
  refine ⟨FlowConnected.placed h k this l, ?_⟩
  exact
    { consistent := (hr.contractsTo.consistent hfc).congr hr.edge_eq
        (fun v => by rw [hvertex]) (fun v => by rw [hvertex]) hedges
        (Nat.le_of_eq (by rw [hnext, hcontracted.nextVertex,
          hr.fixedUp.nextVertex])) hnextEdge
      encloses := hplacedc.congr hr.edge_eq (hedges _)
      nextEdge_le := hconfined.nextEdge_le
      edge_old := fun e he =>
        hconfined.old e he (hnotOwned e).1 (hnotOwned e).2
      edge_new := fun e he hsource => by
        by_contra hnot
        have hs := (hencloses.mem_edges_source e).not.mp hnot
        have ht := (hencloses.mem_edges_target e).not.mp hnot
        rcases hconfined.new e hs ht with hedge | hnull
        · rw [hedge] at hsource
          exact Nat.not_lt.mpr he (hf.consistent.lt_nextEdge hsource)
        · exact hsource hnull
      graph_old := hconfined.graph
      vertexIndex_old := fun v hv hnot => hconfined.vertexIndex v
        fun hmem => hmem.elim hnot fun hle => Nat.not_lt.mpr hle hv
      nextVertex_le := hnext ▸ hk.nextVertex_le
      function := by
        refine ⟨entrySelf, exitSelf, hr.function_eq.trans hfunction, hself', ?_⟩
        exact henter
      leave := hleave
      statement_old := fun v hv => by
        rw [hstatement, hk.statement_old v (Nat.lt_add_right 2 hv)]
        exact Heap.statementOf_of_ne (Nat.ne_of_lt hv)
          (Nat.ne_of_lt (Nat.lt_succ_of_lt hv))
      statement := fun v hv => by
        rw [hstatement]
        exact hk.placed_statement hf hl hv
      lt_nextVertex := fun v hv => by
        rw [hnext]
        rcases hk.placed_subset hf hv with hmem | ⟨_, hlt⟩
        · exact Nat.lt_of_lt_of_le (hf.lt_of_mem_originals hmem)
            hk.nextVertex_le
        · exact hlt
      vertices := fun v hv => .inr ((hr.mem_vertices v).mp hv).1
      entry_mem := by
        refine (hr.mem_vertices _).mpr ⟨hs.entry_mem, ?_⟩
        rw [← Bool.not_eq_true]
        exact fun hred => hremovable _ (.inl rfl)
          ((hr.mem_removed _).mpr ⟨hs.entry_mem, hred⟩)
      exit_mem := by
        refine (hr.mem_vertices _).mpr ⟨hs.exit_mem, ?_⟩
        rw [← Bool.not_eq_true]
        exact fun hred => hremovable _ (.inr rfl)
          ((hr.mem_removed _).mpr ⟨hs.exit_mem, hred⟩)
      edgeType := fun e he => by
        rw [hr.edges_eq] at he
        obtain ⟨_, hedge⟩ := hcontracted.edge e he
        rw [hr.edge_eq, hedge]
        rcases (hr.fixedUp.mem_edges _ e).mp (hcontracted.edges_subset he) with
          hold | ⟨_, hle, hlt⟩
        · obtain ⟨_, hedgef, _⟩ := hr.fixedUp.old e
            (hk.consistent.lt_nextEdge (hk.consistent.edges_attached _ e hold))
          rw [hedgef]
          exact hk.isIntraprocedural hold
        · obtain ⟨_, _, _, hedgef⟩ := hr.fixedUp.new e hle hlt
          rw [hedgef]
          rfl
      fallthrough := fun v hv identifier params hst =>
        hr.fallsThrough hf hk hl hv hst
      owner := fun v hv => (howner v).trans (hk.owner v hv)
      owner_notMem := fun v hv => (howner v).trans (hk.owner_notMem v hv)
      indexed := by
        refine (hk.indexed.congr (fun v _ => hindex v) (Nat.le_of_eq ?_)).subset
          fun v hv => hk.placed_subset hf hv
        rw [hr.result, Heap.foldl_removeVertex]
        exact (hr.fixedUp.vertexIdState _).symm.trans
          (hcontracted.vertexIdState _).symm
      entryIndex := (hindex _).trans hk.entryIndex
      exitIndex := (hindex _).trans hk.exitIndex }

namespace BuiltFunction

variable {h h' : Heap} {this : FunctionPtr} {l : List VertexPtr}
  {N : Set VertexPtr} (hb : BuiltFunction h this l N h')

include hb

/-- ENTRY and EXIT are the only vertices of their kind. -/
theorem statement_iff (hl : ∀ v ∈ l, v < h.nextVertex) :
    ∀ v ∈ N, ((h'.vertex v).statement = .entry ↔ v = h.entryPtr) ∧
      ((h'.vertex v).statement = .exit ↔ v = h.exitPtr) := by
  intro v hv
  rcases hb.statement v hv with ⟨rfl, hst⟩ | ⟨rfl, hst⟩ | ⟨hmem, hst⟩ |
    ⟨hle, hst⟩
  · exact ⟨iff_of_true hst rfl,
      iff_of_false (by rw [hst]; simp) h.entryPtr_ne_exitPtr⟩
  · exact ⟨iff_of_false (by rw [hst]; simp) h.entryPtr_ne_exitPtr.symm,
      iff_of_true hst rfl⟩
  · have hlt := hl v hmem
    constructor
    · refine iff_of_false (fun heq => ?_) (Nat.ne_of_lt hlt)
      rw [heq] at hst
      exact Bool.noConfusion hst
    · refine iff_of_false (fun heq => ?_) (Nat.ne_of_lt (Nat.lt_succ_of_lt hlt))
      rw [heq] at hst
      exact Bool.noConfusion hst
  · constructor
    · refine iff_of_false (fun heq => ?_) (Nat.ne_of_gt
        (Nat.lt_of_lt_of_le (Nat.lt_add_of_pos_right (by decide)) hle))
      rw [heq] at hst
      exact Bool.noConfusion hst
    · refine iff_of_false (fun heq => ?_) (Nat.ne_of_gt
        (Nat.lt_of_lt_of_le (Nat.lt_succ_self _) hle))
      rw [heq] at hst
      exact Bool.noConfusion hst

/-- No call is resolved yet. -/
theorem not_resolved : ∀ v ∈ N, ∀ f params,
    (h'.vertex v).statement ≠ .functionCallResolved f params := by
  intro v hv f params heq
  rcases hb.statement v hv with ⟨_, hst⟩ | ⟨_, hst⟩ | ⟨_, hst⟩ | ⟨_, hst⟩
  · rw [heq] at hst
    exact absurd hst (by simp)
  · rw [heq] at hst
    exact absurd hst (by simp)
  · rw [heq] at hst
    exact Bool.noConfusion hst
  · rw [heq] at hst
    exact Bool.noConfusion hst

/-- Who owns a vertex: whoever the memory names, if linking has made it. -/
theorem owner_eq (hl : ∀ v ∈ l, v < h.nextVertex) : ∀ v ∈ N,
    (h'.vertex v).owningFunction =
      if (h'.vertex v).statement.isConstructedByLinking then
        (h.vertex v).owningFunction
      else this := by
  intro v hv
  rcases hb.statement v hv with ⟨rfl, hst⟩ | ⟨rfl, hst⟩ | ⟨hmem, hst⟩ |
    ⟨hle, hst⟩
  · rw [hst, hb.owner _ (Heap.mem_originals.mpr (.inl rfl))]
    rfl
  · rw [hst, hb.owner _ (Heap.mem_originals.mpr (.inr (.inl rfl)))]
    rfl
  · rw [hb.owner v (Heap.mem_originals.mpr (.inr (.inr hmem))),
      Statement.isConstructedByLinking_of_isParsed hst]
    rfl
  · have hnot : v ∉ h.originals l := by
      intro hmem
      rcases Heap.mem_originals.mp hmem with rfl | rfl | hmem
      · exact Nat.not_lt.mpr hle (Nat.lt_add_of_pos_right (by decide))
      · exact Nat.not_lt.mpr hle (Nat.lt_succ_self _)
      · exact Nat.not_lt.mpr hle (Nat.lt_add_right 2 (hl v hmem))
    rw [hb.owner_notMem v hnot,
      Statement.isConstructedByLinking_of_isLinkedFlowControl hst]
    rfl

end BuiltFunction

end CoFlo.Ports
