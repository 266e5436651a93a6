import CoFlo.Ports.ReferenceFlow

/-!
# The graph `FixupBackEdges` is given

After the linking loop `CreateControlFlowGraph` adds an `Impossible` edge to
every basic block leader that no jump goes to, and the self edges of ENTRY and
EXIT.  The leaders and their predecessors were recorded before linking, so an
edge added here may end at a vertex that has been replaced since: such an edge
leads to, or comes from, a vertex that is not in the graph.
`connectedFlow_spec` describes the graph with all of these edges in it.
-/

namespace CoFlo.Ports

open CoFlo.Verified.FoldInvariant

/-- The edge `AddImpossibleEdges` may add for a leader. -/
def BasicBlockLeaderInfo.arc (p : BasicBlockLeaderInfo) : Arc :=
  ⟨p.immediatePredecessor, .impossible, p.leader⟩

/-! ## Leaders -/

theorem leaders_sublist (flow : VertexPtr → Bool) (chain : List VertexPtr) :
    ((leaderInfos flow chain).map (·.leader)).Sublist chain.tail := by
  induction chain with
  | nil => exact List.Sublist.refl _
  | cons a rest ih =>
      cases rest with
      | nil => exact List.Sublist.refl _
      | cons b rest =>
          rw [leaderInfos, List.map_append, List.tail_cons]
          split_ifs
          · exact ih.cons_cons b
          · exact ih.cons b

theorem mem_leaderInfos {flow : VertexPtr → Bool} {chain : List VertexPtr}
    {p : BasicBlockLeaderInfo} :
    p ∈ leaderInfos flow chain ↔
      ∃ i, chain[i]? = some p.immediatePredecessor ∧
        chain[i + 1]? = some p.leader ∧ flow p.immediatePredecessor = true := by
  induction chain with
  | nil => simp [leaderInfos]
  | cons a rest ih =>
      cases rest with
      | nil => simp [leaderInfos]
      | cons b rest =>
          rw [leaderInfos, List.mem_append, ih]
          constructor
          · rintro (hp | ⟨i, hpred, hleader, hflow⟩)
            · split_ifs at hp with hflow
              · rw [List.mem_singleton.mp hp]
                exact ⟨0, rfl, rfl, hflow⟩
              · exact absurd hp List.not_mem_nil
            · exact ⟨i + 1, hpred, hleader, hflow⟩
          · rintro ⟨i, hpred, hleader, hflow⟩
            cases i with
            | zero =>
                obtain rfl : a = p.immediatePredecessor := by simpa using hpred
                obtain rfl : b = p.leader := by simpa using hleader
                exact .inl (by simp [hflow])
            | succ i => exact .inr ⟨i, hpred, hleader, hflow⟩

namespace Heap

/-! ## Adding edges to a graph -/

/-- The heap `k'` is the heap `k` after edges have been added to the graph
`g`. -/
structure ArcsAdded (k : Heap) (g : GraphPtr) (added : List Arc) (k' : Heap) :
    Prop where
  consistent : k'.Consistent
  vertex : ∀ v, ∃ outEdges inEdges,
    k'.vertex v = { k.vertex v with outEdges, inEdges }
  inDegree : ∀ v, k'.inDegree v = k.inDegree v + added.countP (·.target = v)
  function : k'.function = k.function
  vertices : ∀ i, (k'.graph i).vertices = (k.graph i).vertices
  nextVertex : k'.nextVertex = k.nextVertex
  arcs : k'.arcs g = k.arcs g + (added : Multiset Arc)
  encloses : ∀ M, k.Encloses g M →
    (∀ a ∈ added, a.source ∈ M ∧ a.target ∈ M) → k'.Encloses g M
  confined : ∀ M : Set VertexPtr, (∀ a ∈ added, a.source ∈ M) →
    k.Confined g M k'
  vertexIdState : ∀ i, (k'.graph i).vertexIdState = (k.graph i).vertexIdState
  unmarked : (∀ e ∈ (k.graph g).edges, (k.edge e).isBackEdge = false) →
    ∀ e ∈ (k'.graph g).edges, (k'.edge e).isBackEdge = false

theorem ArcsAdded.initial {k : Heap} (hc : k.Consistent) (g : GraphPtr) :
    ArcsAdded k g [] k where
  consistent := hc
  vertex v := ⟨_, _, rfl⟩
  inDegree v := by simp
  function := rfl
  vertices _ := rfl
  nextVertex := rfl
  arcs := by simp
  encloses _ hM _ := hM
  confined _ _ := Confined.refl k g _
  vertexIdState _ := rfl
  unmarked h := h

theorem Consistent.inDegree_addNewEdge {k : Heap} (hc : k.Consistent)
    (g : GraphPtr) (s t : VertexPtr) (ty : EdgeType) (v : VertexPtr) :
    (k.addNewEdge g s t ty).inDegree v =
      k.inDegree v + if t = v then 1 else 0 := by
  rw [inDegree, addNewEdge_vertex, inDegree]
  dsimp only
  by_cases hv : v = t
  · rw [if_pos hv, if_pos hv.symm,
      Finset.card_insert_of_notMem (hc.nextEdge_notMem_inEdges v)]
  · rw [if_neg hv, if_neg (fun h => hv h.symm), Nat.add_zero]

/-- One more edge. -/
theorem ArcsAdded.addNewEdge {k k' : Heap} {g : GraphPtr} {added : List Arc}
    (hk : ArcsAdded k g added k') {s t : VertexPtr} (ty : EdgeType)
    (hs : s ≠ null) (ht : t ≠ null) (hslt : s < k.nextVertex)
    (htlt : t < k.nextVertex) :
    ArcsAdded k g (added ++ [⟨s, ty, t⟩]) (k'.addNewEdge g s t ty) where
  consistent := hk.consistent.addNewEdge g ty hs ht (hk.nextVertex ▸ hslt)
    (hk.nextVertex ▸ htlt)
  vertex v := by
    obtain ⟨outEdges, inEdges, hv⟩ := hk.vertex v
    rw [addNewEdge_vertex, hv]
    exact ⟨_, _, rfl⟩
  inDegree v := by
    rw [hk.consistent.inDegree_addNewEdge, hk.inDegree, List.countP_append,
      List.countP_singleton, Nat.add_assoc]
    simp
  function := by rw [addNewEdge_function, hk.function]
  vertices i := by rw [addNewEdge_vertices, hk.vertices]
  nextVertex := by rw [addNewEdge_nextVertex, hk.nextVertex]
  arcs := by
    rw [hk.consistent.arcs_addNewEdge, hk.arcs, ← Multiset.coe_add,
      ← Multiset.singleton_add, add_comm, add_assoc]
    rfl
  encloses M hM hadded := by
    have hold := hk.encloses M hM fun a ha =>
      hadded a (List.mem_append_left _ ha)
    obtain ⟨hsM, htM⟩ := hadded ⟨s, ty, t⟩ (by simp)
    exact hold.addNewEdge ty hsM htM
  confined M hadded := by
    have hold := hk.confined M fun a ha =>
      hadded a (List.mem_append_left _ ha)
    exact hold.addNewEdge t ty (hadded ⟨s, ty, t⟩ (by simp))
  vertexIdState i := by rw [addNewEdge_vertexIdState, hk.vertexIdState]
  unmarked hold e he := by
    rw [addNewEdge_edges_self, Finset.mem_insert] at he
    rw [addNewEdge_edge]
    split_ifs with hnext
    · rfl
    · exact hk.unmarked hold e (he.resolve_left hnext)

/-! ## `AddImpossibleEdges` -/

/-- The leaders are distinct, so what is added for one leader does not change
the in-degree of the next. -/
theorem Consistent.addImpossibleEdges_spec {k : Heap} (hc : k.Consistent)
    (g : GraphPtr) {infos : List BasicBlockLeaderInfo}
    (hnodup : (infos.map (·.leader)).Nodup)
    (hinfos : ∀ p ∈ infos, (p.immediatePredecessor ≠ null ∧ p.leader ≠ null) ∧
      p.immediatePredecessor < k.nextVertex ∧ p.leader < k.nextVertex) :
    ArcsAdded k g
      ((infos.filter fun p => k.inDegree p.leader = 0).map (·.arc))
      (k.addImpossibleEdges g infos) := by
  refine foldl_invariant (addImpossibleEdge g)
    (fun pre k' => ArcsAdded k g
      ((pre.filter fun p => k.inDegree p.leader = 0).map (·.arc)) k')
    infos k (ArcsAdded.initial hc g) fun pre p post k' hl hk => ?_
  obtain ⟨⟨hpred, hleader⟩, hpredLt, hleaderLt⟩ := hinfos p (by simp [hl])
  have hfresh : ∀ q ∈ pre, q.leader ≠ p.leader := by
    intro q hq heq
    rw [hl, List.map_append, List.map_cons, List.nodup_append] at hnodup
    exact hnodup.2.2 q.leader (List.mem_map_of_mem hq) p.leader
      List.mem_cons_self heq
  have hdegree : k'.inDegree p.leader = k.inDegree p.leader := by
    rw [hk.inDegree, List.countP_eq_zero.mpr, Nat.add_zero]
    intro a ha
    obtain ⟨q, hq, rfl⟩ := List.mem_map.mp ha
    have hne := hfresh q (List.mem_of_mem_filter hq)
    rw [decide_eq_true_iff]
    exact hne
  rw [List.filter_append, List.map_append]
  unfold addImpossibleEdge
  split_ifs with hlinked
  · rw [hdegree] at hlinked
    simpa [hlinked] using hk
  · rw [not_not, hdegree] at hlinked
    simpa [hlinked, BasicBlockLeaderInfo.arc] using
      hk.addNewEdge .impossible hpred hleader hpredLt hleaderLt

/-! ## The self edges -/

theorem modifyFunction_addNewEdge (h : Heap) (p : FunctionPtr)
    (f : Function → Function) (g : GraphPtr) (s t : VertexPtr) (ty : EdgeType) :
    (h.modifyFunction p f).addNewEdge g s t ty =
      (h.addNewEdge g s t ty).modifyFunction p f := rfl

theorem modifyFunction_modifyFunction (h : Heap) (p : FunctionPtr)
    (f f' : Function → Function) :
    (h.modifyFunction p f).modifyFunction p f' =
      h.modifyFunction p fun x => f' (f x) := by
  unfold modifyFunction
  simp only [Function.update_self, Function.update_idem]

/-- `addSelfEdges`, with the two writes to the function last. -/
theorem addSelfEdges_eq (h : Heap) (this : FunctionPtr) :
    h.addSelfEdges this =
      (((h.addNewEdge (h.function this).theCfg
          (h.function this).entryVertexDesc (h.function this).entryVertexDesc
          .impossible).addNewEdge (h.function this).theCfg
        (h.function this).exitVertexDesc (h.function this).exitVertexDesc
        .impossible).modifyFunction this fun x =>
          { x with
            entryVertexSelfEdge := h.nextEdge
            exitVertexSelfEdge := h.nextEdge + 1 }) := by
  unfold addSelfEdges
  simp only [modifyFunction_addNewEdge, modifyFunction_modifyFunction]
  rfl

/-! ## The graph with all its edges -/

section spec

variable (h : Heap) (l : List VertexPtr)

/-- The flow of control after linking: every flow control statement of the
list is linked. -/
def linkedArcs : List Arc :=
  h.flowArcs l (l.filter h.endsBasicBlock)

/-- A leader no edge goes to: no jump in the list leads there, or its vertex
has been replaced. -/
def isUnlinkedLeader (p : BasicBlockLeaderInfo) : Bool :=
  (h.replacement l p.leader).isSome ||
    (h.linkedArcs l).all fun a => a.target ≠ p.leader

/-- The edges `AddImpossibleEdges` adds, with the ends it gives them. -/
def impossibleArcs : List Arc :=
  ((leaderInfos h.endsBasicBlock (h.entryPtr :: l)).filter
    (h.isUnlinkedLeader l)).map (·.arc)

/-- The self edges of ENTRY and EXIT. -/
def selfArcs : List Arc :=
  [⟨h.entryPtr, .impossible, h.entryPtr⟩, ⟨h.exitPtr, .impossible, h.exitPtr⟩]

end spec

end Heap

/-- The heap `FixupBackEdges` is called on, with `ρ v` the vertex that is in
the graph for `v`. -/
structure FlowConnected (h : Heap) (this : FunctionPtr) (l : List VertexPtr)
    (ρ : VertexPtr → VertexPtr) (k : Heap) : Prop where
  consistent : k.Consistent
  encloses : k.Encloses (h.function this).theCfg (h.owned l)
  confined : h.Confined (h.function this).theCfg (h.owned l) k
  function : ∃ entrySelf exitSelf,
    k.function = Function.update h.function this
      { h.function this with
        entryVertexDesc := h.entryPtr
        exitVertexDesc := h.exitPtr
        entryVertexSelfEdge := entrySelf
        exitVertexSelfEdge := exitSelf } ∧
    k.edge entrySelf = ⟨h.entryPtr, h.entryPtr, .impossible, false⟩ ∧
    k.edge exitSelf = ⟨h.exitPtr, h.exitPtr, .impossible, false⟩
  nextVertex_le : h.nextVertex + 2 ≤ k.nextVertex
  statement_old : ∀ v, v < h.nextVertex + 2 →
    (k.vertex v).statement = h.statementOf v
  linked : ∀ v ∈ l, ∀ new, h.replacement l v = some new →
    h.nextVertex + 2 ≤ ρ v ∧ ρ v < k.nextVertex ∧
      (k.vertex (ρ v)).statement = new
  kept : ∀ v, (v ∈ l → h.replacement l v = none) → ρ v = v
  injOn : Set.InjOn ρ (h.originals l)
  vertices : (k.graph (h.function this).theCfg).vertices =
    (h.originals l).image ρ
  arcs : k.arcs (h.function this).theCfg =
    ((h.linkedArcs l).map (Arc.map ρ) ++ h.impossibleArcs l ++ h.selfArcs :
      List Arc)
  unmarked : ∀ e ∈ (k.graph (h.function this).theCfg).edges,
    (k.edge e).isBackEdge = false
  owner : ∀ v ∈ h.originals l, (k.vertex v).owningFunction = this
  owner_notMem : ∀ v, v ∉ h.originals l →
    (k.vertex v).owningFunction = (h.vertex v).owningFunction
  indexed : k.Indexed (h.function this).theCfg (h.indexedVertices l k)
  entryIndex : (k.vertex h.entryPtr).vertexIndex =
    (h.graph (h.function this).theCfg).vertexIdState
  exitIndex : (k.vertex h.exitPtr).vertexIndex =
    (h.graph (h.function this).theCfg).vertexIdState + 1

section spec

variable {h : Heap} {this : FunctionPtr} {l : List VertexPtr}
  {ρ : VertexPtr → VertexPtr}

theorem leader_mem {p : BasicBlockLeaderInfo}
    (hp : p ∈ leaderInfos h.endsBasicBlock (h.entryPtr :: l)) :
    p.leader ∈ l := by
  have hmem := (leaders_sublist h.endsBasicBlock (h.entryPtr :: l)).mem
    (List.mem_map_of_mem hp)
  exact hmem

theorem immediatePredecessor_mem {p : BasicBlockLeaderInfo}
    (hp : p ∈ leaderInfos h.endsBasicBlock (h.entryPtr :: l)) :
    p.immediatePredecessor ∈ l ∧
      h.endsBasicBlock p.immediatePredecessor = true := by
  obtain ⟨i, hpred, _, hflow⟩ := mem_leaderInfos.mp hp
  refine ⟨?_, hflow⟩
  rcases List.mem_cons.mp (List.mem_of_getElem? hpred) with heq | hmem
  · rw [heq, Heap.endsBasicBlock, Heap.statementOf_entryPtr] at hflow
    exact absurd hflow (by decide)
  · exact hmem

/-- A vertex object of the list is in the graph exactly when it has not been
replaced, and then it stands for itself. -/
theorem LinkInv.map_eq_iff (hf : h.Fresh this l) {k : Heap}
    (hi : LinkInv h this l (l.filter h.endsBasicBlock) ρ k) {x v : VertexPtr}
    (hv : v ∈ l) :
    ρ x = v ↔ h.replacement l v = none ∧ x = v := by
  constructor
  · intro heq
    by_cases hkept : x ∈ l.filter h.endsBasicBlock → h.replacement l x = none
    · have hxv : x = v := (hi.kept x hkept).symm.trans heq
      refine ⟨?_, hxv⟩
      rw [hxv] at hkept
      cases hnew : h.replacement l v with
      | none => rfl
      | some new =>
          have hends := Heap.endsBasicBlock_of_replacement hnew
          exact absurd (hkept (List.mem_filter.mpr ⟨hv, hends⟩)) (by simp [hnew])
    · rw [Classical.not_imp] at hkept
      obtain ⟨new, hnew⟩ := Option.ne_none_iff_exists'.mp hkept.2
      have hle := (hi.linked x hkept.1 new hnew).1
      rw [heq] at hle
      have hlt := hf.lt_nextVertex v hv
      exact absurd (Nat.lt_of_lt_of_le hlt (Nat.le_add_right _ 2))
        (Nat.not_lt.mpr hle)
  · rintro ⟨hnone, rfl⟩
    exact hi.kept x fun _ => hnone

/-- Which leaders have no in-edge after linking. -/
theorem LinkInv.inDegree_leader (hf : h.Fresh this l) {k : Heap}
    (hi : LinkInv h this l (l.filter h.endsBasicBlock) ρ k)
    {p : BasicBlockLeaderInfo}
    (hp : p ∈ leaderInfos h.endsBasicBlock (h.entryPtr :: l)) :
    decide (k.inDegree p.leader = 0) = h.isUnlinkedLeader l p := by
  have hmem := leader_mem hp
  have htargets : ∀ a ∈ h.linkedArcs l, ρ a.target = p.leader ↔
      h.replacement l p.leader = none ∧ a.target = p.leader := fun a _ =>
    hi.map_eq_iff hf hmem
  rw [hi.consistent.inDegree_eq hi.encloses (hf.ne_null _ hmem) (.inl hmem),
    hi.arcs, Multiset.coe_countP, List.countP_map]
  rw [Heap.isUnlinkedLeader, ← Heap.linkedArcs, Bool.eq_iff_iff,
    decide_eq_true_iff, List.countP_eq_zero, Bool.or_eq_true,
    List.all_eq_true]
  cases hnew : h.replacement l p.leader with
  | some new =>
      refine iff_of_true (fun a ha => ?_) (.inl rfl)
      have hne := (htargets a ha).not.mpr (by simp [hnew])
      rw [Function.comp_apply, decide_eq_true_iff]
      exact hne
  | none =>
      simp only [Option.isSome_none, Bool.false_eq_true, false_or]
      refine forall_congr' fun a => forall_congr' fun ha => ?_
      have hiff := htargets a ha
      simp only [hnew, true_and] at hiff
      rw [Function.comp_apply, decide_eq_true_iff, decide_eq_true_iff]
      exact hiff.not

/-- The graph that `FixupBackEdges` is given. -/
theorem connectedFlow_spec (hf : h.Fresh this l) :
    ∃ k ρ, h.connectedFlow this l = .ok k ∧ FlowConnected h this l ρ k := by
  obtain ⟨s, ρ, hlinked, hi, hinfo, _⟩ := linkedFlow_spec hf
  have hcfg : (s.heap.function this).theCfg = (h.function this).theCfg := by
    rw [hi.function, Function.update_self]
  have hinfos : ∀ p ∈ s.listOfLeaderInfo,
      (p.immediatePredecessor ≠ null ∧ p.leader ≠ null) ∧
        p.immediatePredecessor < s.heap.nextVertex ∧
          p.leader < s.heap.nextVertex := by
    intro p hp
    rw [hinfo] at hp
    have hpred := (immediatePredecessor_mem hp).1
    have hleader := leader_mem hp
    have hle : h.nextVertex ≤ s.heap.nextVertex :=
      Nat.le_trans (Nat.le_add_right _ 2) hi.nextVertex_le
    exact ⟨⟨hf.ne_null _ hpred, hf.ne_null _ hleader⟩,
      Nat.lt_of_lt_of_le (hf.lt_nextVertex _ hpred) hle,
      Nat.lt_of_lt_of_le (hf.lt_nextVertex _ hleader) hle⟩
  have hnodup : (s.listOfLeaderInfo.map (·.leader)).Nodup := by
    rw [hinfo]
    exact (leaders_sublist _ _).nodup hf.nodup
  have himpossible : (s.listOfLeaderInfo.filter fun p =>
      s.heap.inDegree p.leader = 0).map (·.arc) = h.impossibleArcs l := by
    rw [hinfo, Heap.impossibleArcs]
    congr 1
    exact List.filter_congr fun p hp => hi.inDegree_leader hf hp
  have hadded := hi.consistent.addImpossibleEdges_spec
    (h.function this).theCfg hnodup hinfos
  rw [himpossible] at hadded
  obtain ⟨k, hk⟩ : ∃ k, k = s.heap.addImpossibleEdges (h.function this).theCfg
      s.listOfLeaderInfo := ⟨_, rfl⟩
  rw [← hk] at hadded
  have hkfunction : k.function this =
      { h.function this with
        entryVertexDesc := h.entryPtr, exitVertexDesc := h.exitPtr } := by
    rw [hadded.function, hi.function, Function.update_self]
  have hentry : h.entryPtr < s.heap.nextVertex :=
    Nat.lt_of_lt_of_le (Nat.lt_add_of_pos_right (by decide)) hi.nextVertex_le
  have hexit : h.exitPtr < s.heap.nextVertex :=
    Nat.lt_of_lt_of_le (Nat.lt_succ_self _) hi.nextVertex_le
  have hentryNe : h.entryPtr ≠ null :=
    Nat.ne_of_gt hf.consistent.null_lt_nextVertex
  have hexitNe : h.exitPtr ≠ null := Nat.succ_ne_zero _
  have hself := (hadded.addNewEdge .impossible hentryNe hentryNe hentry
    hentry).addNewEdge .impossible hexitNe hexitNe hexit hexit
  obtain ⟨k', hk'⟩ : ∃ k', k' =
      (k.addNewEdge (h.function this).theCfg h.entryPtr h.entryPtr
        .impossible).addNewEdge (h.function this).theCfg h.exitPtr h.exitPtr
          .impossible := ⟨_, rfl⟩
  rw [← hk'] at hself
  have hrun : h.connectedFlow this l = .ok (k'.modifyFunction this fun x =>
      { x with
        entryVertexSelfEdge := k.nextEdge
        exitVertexSelfEdge := k.nextEdge + 1 }) := by
    unfold Heap.connectedFlow
    rw [hlinked]
    simp only [bind, Except.bind, pure, Except.pure, hcfg, ← hk,
      Heap.addSelfEdges_eq, hkfunction]
    rw [hk']
  have hedge : ∀ e, k'.edge e =
      if e = k.nextEdge + 1 then ⟨h.exitPtr, h.exitPtr, .impossible, false⟩
      else if e = k.nextEdge then
        ⟨h.entryPtr, h.entryPtr, .impossible, false⟩
      else k.edge e := by
    intro e
    rw [hk', Heap.addNewEdge_edge, Heap.addNewEdge_nextEdge,
      Heap.addNewEdge_edge]
  have howned : ∀ a ∈ h.impossibleArcs l ++
      [⟨h.entryPtr, .impossible, h.entryPtr⟩] ++
        [⟨h.exitPtr, .impossible, h.exitPtr⟩],
      a.source ∈ h.owned l ∧ a.target ∈ h.owned l := by
    intro a ha
    simp only [List.mem_append, List.mem_singleton] at ha
    rcases ha with (ha | rfl) | rfl
    · obtain ⟨p, hp, rfl⟩ := List.mem_map.mp ha
      have hp' := List.mem_of_mem_filter hp
      exact ⟨.inl (immediatePredecessor_mem hp').1, .inl (leader_mem hp')⟩
    · exact ⟨.inr (Nat.le_refl _), .inr (Nat.le_refl _)⟩
    · exact ⟨.inr (Nat.le_succ _), .inr (Nat.le_succ _)⟩
  have hstatement : ∀ v, (k'.vertex v).statement = (s.heap.vertex v).statement := by
    intro v
    obtain ⟨_, _, hv⟩ := hself.vertex v
    rw [hv]
  have howner : ∀ v, (k'.vertex v).owningFunction =
      (s.heap.vertex v).owningFunction := by
    intro v
    obtain ⟨_, _, hv⟩ := hself.vertex v
    rw [hv]
  have hindex : ∀ v, (k'.vertex v).vertexIndex =
      (s.heap.vertex v).vertexIndex := by
    intro v
    obtain ⟨_, _, hv⟩ := hself.vertex v
    rw [hv]
  have hindexed : k'.Indexed (h.function this).theCfg
      (h.indexedVertices l k') := by
    refine (hi.indexed.congr (fun v _ => hindex v)
      (Nat.le_of_eq (hself.vertexIdState _).symm)).subset ?_
    rintro v (hv | ⟨hle, hlt⟩)
    · exact .inl hv
    · exact .inr ⟨hle, Nat.lt_of_lt_of_eq hlt hself.nextVertex⟩
  have hends : ∀ v ∈ l, ∀ new, h.replacement l v = some new →
      v ∈ l.filter h.endsBasicBlock := fun v hv new hnew =>
    List.mem_filter.mpr ⟨hv, Heap.endsBasicBlock_of_replacement hnew⟩
  refine ⟨_, ρ, hrun, ?_⟩
  exact
    { consistent := hself.consistent.modifyFunction _ _
      encloses := (hself.encloses _ hi.encloses howned).congr rfl rfl
      confined := (hi.confined.trans (hself.confined _
        fun a ha => (howned a ha).1)).congr rfl (fun _ _ => rfl)
          (fun _ _ => rfl) rfl
      function := by
        refine ⟨k.nextEdge, k.nextEdge + 1, ?_, ?_, ?_⟩
        · change Function.update k'.function this _ = _
          rw [hself.function, hi.function, Function.update_self,
            Function.update_idem]
        · exact (hedge _).trans (by simp)
        · exact (hedge _).trans (by simp)
      nextVertex_le := hi.nextVertex_le.trans_eq hself.nextVertex.symm
      statement_old := fun v hv =>
        (hstatement v).trans (hi.statement_old v hv)
      linked := fun v hv new hnew => by
        obtain ⟨hle, hlt, hst⟩ := hi.linked v (hends v hv new hnew) new hnew
        exact ⟨hle, Nat.lt_of_lt_of_eq hlt hself.nextVertex.symm,
          (hstatement _).trans hst⟩
      kept := fun v hv =>
        hi.kept v fun hmem => hv (List.mem_of_mem_filter hmem)
      injOn := hi.injOn
      vertices := (hself.vertices _).trans hi.vertices
      arcs := by
        have harcs := hself.arcs
        rw [hi.arcs] at harcs
        change k'.arcs (h.function this).theCfg = _
        rw [harcs, Multiset.coe_add, Heap.linkedArcs, Heap.selfArcs]
        simp only [List.append_assoc, List.cons_append, List.nil_append]
      unmarked := hself.unmarked hi.unmarked
      owner := fun v hv => (howner v).trans (hi.owner v hv)
      owner_notMem := fun v hv => (howner v).trans (hi.owner_notMem v hv)
      indexed := hindexed.congr (fun _ _ => rfl) (Nat.le_refl _)
      entryIndex := (hindex _).trans hi.entryIndex
      exitIndex := (hindex _).trans hi.exitIndex }

namespace FlowConnected

variable {k : Heap} (hk : FlowConnected h this l ρ k)

include hk

theorem map_owned (hf : h.Fresh this l) {v : VertexPtr}
    (hv : v ∈ h.originals l) : ρ v ∈ h.owned l := by
  by_cases hkept : v ∈ l → h.replacement l v = none
  · rw [hk.kept v hkept]
    exact hf.owned_of_mem_originals hv
  · rw [Classical.not_imp] at hkept
    obtain ⟨new, hnew⟩ := Option.ne_none_iff_exists'.mp hkept.2
    exact .inr (Nat.le_trans (Nat.le_add_right _ 2)
      (hk.linked v hkept.1 new hnew).1)

theorem vertices_subset (hf : h.Fresh this l) :
    ((k.graph (h.function this).theCfg).vertices : Set VertexPtr) ⊆
      h.owned l := by
  intro v hv
  rw [Finset.mem_coe, hk.vertices, Finset.mem_image] at hv
  obtain ⟨u, hu, rfl⟩ := hv
  exact hk.map_owned hf hu

end FlowConnected

end spec

end CoFlo.Ports
