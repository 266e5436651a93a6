import CoFlo.Ports.Arcs
import CoFlo.Ports.RemoveRedundantNodes
import CoFlo.Verified.Bypass
import CoFlo.Verified.FoldInvariant

/-!
# Contracting redundant vertices

What a round of `RemoveRedundantNodes` does to the heap, as an operation of its
own: the single in-edge of a redundant vertex is pointed at the target of the
single out-edge, and the out-edge is taken out of the graph.
-/

namespace CoFlo.Ports

open CoFlo.Verified.Bypass CoFlo.Verified.FoldInvariant Relation

namespace Heap

/-- Points `a` at the target of `b`, and removes `b` from the graph `g`. -/
def contract (h : Heap) (g : GraphPtr) (a b : EdgePtr) : Heap :=
  let source := (h.edge b).source
  let target := (h.edge b).target
  let h := h.changeTarget a target
  let h := h.removeOutEdge source b
  let h := h.removeInEdge target b
  let h := h.clearSourceAndTarget b
  h.modifyGraph g fun x => { x with edges := x.edges.erase b }

section contract

variable (h : Heap) (g : GraphPtr) (a b : EdgePtr)

theorem contract_edge (e : EdgePtr) :
    (h.contract g a b).edge e =
      { h.edge e with
        source := if e = b then null else (h.edge e).source
        target := if e = b then null
          else if e = a then (h.edge b).target else (h.edge e).target } := by
  simp only [contract, clearSourceAndTarget, setSourceAndTarget,
    modifyGraph_edge, modifyEdge_edge, removeInEdge, removeOutEdge,
    modifyVertex_edge, changeTarget_edge]
  by_cases hb : e = b
  · subst hb
    simp
  · simp [hb]

theorem contract_vertex (ha : (h.edge a).target ≠ null) (v : VertexPtr) :
    (h.contract g a b).vertex v =
      { h.vertex v with
        outEdges :=
          if v = (h.edge b).source then (h.vertex v).outEdges.erase b
          else (h.vertex v).outEdges
        inEdges :=
          if v = (h.edge b).target then
            (insert a (h.vertex v).inEdges).erase b
          else if v = (h.edge a).target then (h.vertex v).inEdges.erase a
          else (h.vertex v).inEdges } := by
  simp only [contract, clearSourceAndTarget, setSourceAndTarget,
    modifyGraph_vertex, modifyEdge_vertex, removeInEdge, removeOutEdge,
    modifyVertex_vertex, changeTarget_vertex h a ha]
  by_cases hsource : v = (h.edge b).source
  · by_cases htarget : v = (h.edge b).target
    · simp [← hsource, ← htarget]
    · simp [htarget, ← hsource]
  · by_cases htarget : v = (h.edge b).target
    · simp [hsource, ← htarget]
    · simp [hsource, htarget]

theorem contract_graph (k : GraphPtr) :
    (h.contract g a b).graph k =
      { h.graph k with
        edges :=
          if k = g then (h.graph k).edges.erase b else (h.graph k).edges } := by
  simp only [contract, modifyGraph_graph]
  change (if k = g then { (h.changeTarget a (h.edge b).target).graph g with
    edges := ((h.changeTarget a (h.edge b).target).graph g).edges.erase b }
    else (h.changeTarget a (h.edge b).target).graph k) = _
  rw [changeTarget_graph]
  split_ifs with hk
  · rw [hk]
  · rfl

@[simp] theorem contract_statement (v : VertexPtr) :
    ((h.contract g a b).vertex v).statement = (h.vertex v).statement := by
  have hchange : ((h.changeTarget a (h.edge b).target).vertex v).statement =
      (h.vertex v).statement := by
    unfold changeTarget
    split_ifs
    · simp only [modifyEdge_vertex, addInEdge, removeInEdge, modifyVertex_vertex]
      grind
    · simp only [modifyEdge_vertex, addInEdge, modifyVertex_vertex]
      grind
  simp only [contract, clearSourceAndTarget, setSourceAndTarget,
    modifyGraph_vertex, modifyEdge_vertex, removeInEdge, removeOutEdge,
    modifyVertex_vertex]
  grind

theorem contract_frame :
    (h.contract g a b).function = h.function ∧
      (h.contract g a b).nextVertex = h.nextVertex ∧
      (h.contract g a b).nextEdge = h.nextEdge := by
  have hchange : ∀ t, (h.changeTarget a t).function = h.function ∧
      (h.changeTarget a t).nextVertex = h.nextVertex ∧
      (h.changeTarget a t).nextEdge = h.nextEdge := by
    intro t
    unfold changeTarget
    split_ifs <;> exact ⟨rfl, rfl, rfl⟩
  exact hchange (h.edge b).target

end contract

namespace Consistent

variable {h : Heap} (hc : h.Consistent)

include hc

/-- The two edges of a redundant vertex. -/
theorem exists_edges {v : VertexPtr} (hv : h.isRedundant v = true) :
    ∃ a b, (h.vertex v).inEdges = {a} ∧ (h.vertex v).outEdges = {b} ∧
      (h.edge a).target = v ∧ (h.edge b).source = v ∧ v ≠ null ∧
        (h.edge a).source ≠ null ∧ (h.edge b).target ≠ null := by
  simp only [isRedundant, Bool.and_eq_true, decide_eq_true_iff] at hv
  obtain ⟨a, ha⟩ := Finset.card_eq_one.mp hv.2.1
  obtain ⟨b, hb⟩ := Finset.card_eq_one.mp hv.2.2
  have hamem : a ∈ (h.vertex v).inEdges := by simp [ha]
  have hbmem : b ∈ (h.vertex v).outEdges := by simp [hb]
  exact ⟨a, b, ha, hb, hc.target_eq_of_mem hamem, hc.source_eq_of_mem hbmem,
    ((hc.mem_inEdges v a).mp hamem).2, hc.source_ne_null_of_mem hamem,
    hc.target_ne_null_of_mem hbmem⟩

theorem contract (g : GraphPtr) {a b : EdgePtr}
    (ha : (h.edge a).target ≠ null) (hb : (h.edge b).target ≠ null)
    (hab : (h.edge a).target = (h.edge b).source)
    (hbg : b ∈ (h.graph g).edges) :
    (h.contract g a b).Consistent where
  mem_outEdges v e := by
    rw [contract_vertex h g a b ha, contract_edge]
    have hv := hc.mem_outEdges v e
    have hvb := hc.mem_outEdges (h.edge b).source b
    grind
  mem_inEdges v e := by
    rw [contract_vertex h g a b ha, contract_edge]
    have hv := hc.mem_inEdges v e
    have hva := hc.mem_inEdges (h.edge a).target a
    have hvb := hc.mem_inEdges (h.edge b).target b
    grind
  source_eq_null e := by
    rw [contract_edge]
    have hiff := hc.source_eq_null e
    have hiffa := hc.source_eq_null a
    grind
  source_lt e := by
    rw [contract_edge, (contract_frame h g a b).2.1]
    have hlt := hc.source_lt e
    have hpos := hc.null_lt_nextVertex
    dsimp only
    split_ifs
    · exact hpos
    · exact hlt
  target_lt e := by
    rw [contract_edge, (contract_frame h g a b).2.1]
    dsimp only
    split_ifs
    · exact hc.null_lt_nextVertex
    · exact hc.target_lt b
    · exact hc.target_lt e
  allocated e := by
    rw [contract_edge, (contract_frame h g a b).2.2]
    have hall := hc.allocated e
    grind
  edges_attached k e he := by
    rw [contract_edge]
    rw [contract_graph] at he
    have hatt := hc.edges_attached k e
    have hdisjoint := hc.edges_disjoint g k b hbg
    grind
  edges_disjoint i k e hi hk := by
    rw [contract_graph] at hi hk
    have hdisjoint := hc.edges_disjoint i k e
    grind
  nextEdge_ne_null := by
    rw [(contract_frame h g a b).2.2]
    exact hc.nextEdge_ne_null

/-- A round of the loop contracts a redundant vertex and schedules it for
removal. -/
theorem removeRedundantNode_eq (order : IterationOrder) {g : GraphPtr}
    {v : VertexPtr} {a b : EdgePtr} (hv : h.isRedundant v = true)
    (ha : (h.vertex v).inEdges = {a}) (hb : (h.vertex v).outEdges = {b})
    (removed : List VertexPtr) :
    removeRedundantNode order g (h, removed) v =
      .ok (h.contract g a b, removed ++ [v]) := by
  have hamem : a ∈ (h.vertex v).inEdges := by simp [ha]
  have hbmem : b ∈ (h.vertex v).outEdges := by simp [hb]
  obtain ⟨hav, hv0⟩ := (hc.mem_inEdges v a).mp hamem
  obtain ⟨hbv, _⟩ := (hc.mem_outEdges v b).mp hbmem
  have hb0 := hc.target_ne_null_of_mem hbmem
  have ha0 : (h.edge a).target ≠ null := hav ▸ hv0
  have hbs : (h.edge b).source ≠ null := hbv ▸ hv0
  have hremove : (h.changeTarget a (h.edge b).target).removeEdge g b =
      .ok (h.contract g a b) := by
    have htarget : ((h.changeTarget a (h.edge b).target).edge b).target =
        (h.edge b).target := by
      rw [changeTarget_edge]
      exact ite_self _
    have hsource : ((h.changeTarget a (h.edge b).target).edge b).source =
        (h.edge b).source := by
      rw [changeTarget_edge]
    unfold removeEdge Heap.contract
    simp only [htarget, hsource, if_neg hbs, if_neg hb0]
  have hin : (h.contract g a b).inDegree v = 0 := by
    rw [inDegree, contract_vertex h g a b ha0, Finset.card_eq_zero]
    dsimp only
    rw [ha, hav]
    split_ifs with hloop
    · -- A self loop is its own in-edge and out-edge.
      have hba : b ∈ (h.vertex v).inEdges :=
        (hc.mem_inEdges v b).mpr ⟨hloop.symm, hv0⟩
      rw [ha, Finset.mem_singleton] at hba
      simp [hba]
    · simp
    · rename_i hne
      exact absurd rfl hne
  have hout : (h.contract g a b).outDegree v = 0 := by
    rw [outDegree, contract_vertex h g a b ha0, Finset.card_eq_zero]
    dsimp only
    rw [hb, hbv, if_pos rfl]
    simp
  unfold removeRedundantNode
  simp only [hv, if_true, ha, hb, SetOrder.enum_singleton]
  rw [hremove]
  simp only [bind, Except.bind, hin, hout, ne_eq, not_true, or_self, if_false]
  rfl

end Consistent

/-- `k` is `h` after the vertices of a list have been contracted in turn. -/
inductive ContractsTo (g : GraphPtr) (h : Heap) : List VertexPtr → Heap → Prop
  where
  | refl : ContractsTo g h [] h
  | contract {vs : List VertexPtr} {k : Heap} {v : VertexPtr} {a b : EdgePtr}
      (hk : ContractsTo g h vs k) (hv : k.isRedundant v = true)
      (ha : (k.vertex v).inEdges = {a}) (hb : (k.vertex v).outEdges = {b})
      (hag : a ∈ (k.graph g).edges) (hbg : b ∈ (k.graph g).edges) :
      ContractsTo g h (vs ++ [v]) (k.contract g a b)

section contractsTo

variable {g : GraphPtr} {h k : Heap} {vs : List VertexPtr}

/-- The edges of a redundant vertex, for the contraction of it. -/
theorem Consistent.edges_eq (hc : k.Consistent) {v : VertexPtr} {a b : EdgePtr}
    (ha : (k.vertex v).inEdges = {a}) (hb : (k.vertex v).outEdges = {b}) :
    (∀ e, (k.edge e).target = v ↔ e = a) ∧ (∀ e, (k.edge e).source = v ↔ e = b) ∧
      v ≠ null := by
  have hv : v ≠ null := ((hc.mem_inEdges v a).mp (by simp [ha])).2
  refine ⟨fun e => ?_, fun e => ?_, hv⟩
  · have hmem := hc.mem_inEdges v e
    rw [ha, Finset.mem_singleton, and_iff_left hv] at hmem
    exact hmem.symm
  · have hmem := hc.mem_outEdges v e
    rw [hb, Finset.mem_singleton, and_iff_left hv] at hmem
    exact hmem.symm

theorem ContractsTo.consistent (hk : ContractsTo g h vs k)
    (hc : h.Consistent) : k.Consistent := by
  induction hk with
  | refl => exact hc
  | @contract vs k v a b _ hv ha hb _ hbg ih =>
      obtain ⟨htarget, hsource, hv0⟩ := ih.edges_eq ha hb
      have hav := (htarget a).mpr rfl
      have hbv := (hsource b).mpr rfl
      refine ih.contract g (hav ▸ hv0) ?_ (hav.trans hbv.symm) hbg
      exact ih.target_ne_null_of_mem (v := v) (by simp [hb])

/-- The sets of a vertex that is not contracted, in numbers. -/
theorem Consistent.degree_contract (hc : k.Consistent) {v : VertexPtr}
    {a b : EdgePtr} (ha : (k.vertex v).inEdges = {a})
    (hb : (k.vertex v).outEdges = {b}) {w : VertexPtr} (hw : w ≠ v) :
    (k.contract g a b).inDegree w = k.inDegree w ∧
      (k.contract g a b).outDegree w = k.outDegree w := by
  obtain ⟨htarget, hsource, hv0⟩ := hc.edges_eq ha hb
  have hav := (htarget a).mpr rfl
  have hbv := (hsource b).mpr rfl
  have hb0 : (k.edge b).target ≠ null :=
    hc.target_ne_null_of_mem (v := v) (by simp [hb])
  rw [inDegree, outDegree, contract_vertex k g a b (hav ▸ hv0), hav, hbv]
  dsimp only
  rw [if_neg hw, if_neg hw]
  refine ⟨?_, rfl⟩
  split_ifs with ht
  · -- The target of `b` loses `b` and gains `a`.
    have hbmem : b ∈ (k.vertex w).inEdges :=
      (hc.mem_inEdges w b).mpr ⟨ht.symm, ht ▸ hb0⟩
    have hanot : a ∉ (k.vertex w).inEdges := fun hmem =>
      hw ((hc.target_eq_of_mem hmem).symm.trans hav)
    have hab : a ≠ b := fun hab => hanot (hab ▸ hbmem)
    rw [Finset.card_erase_of_mem (Finset.mem_insert_of_mem hbmem),
      Finset.card_insert_of_notMem hanot, Nat.add_sub_cancel]
    rfl
  · rfl

theorem Consistent.isRedundant_contract (hc : k.Consistent) {v : VertexPtr}
    {a b : EdgePtr} (ha : (k.vertex v).inEdges = {a})
    (hb : (k.vertex v).outEdges = {b}) {w : VertexPtr} (hw : w ≠ v) :
    (k.contract g a b).isRedundant w = k.isRedundant w := by
  obtain ⟨hin, hout⟩ := hc.degree_contract (g := g) ha hb hw
  simp only [isRedundant, contract_statement, hin, hout]

/-- A contracted vertex has no edges any more. -/
theorem Consistent.edges_contract_self (hc : k.Consistent) {v : VertexPtr}
    {a b : EdgePtr} (ha : (k.vertex v).inEdges = {a})
    (hb : (k.vertex v).outEdges = {b}) :
    ∀ e ∈ ((k.contract g a b).graph g).edges,
      ((k.contract g a b).edge e).source ≠ v ∧
        ((k.contract g a b).edge e).target ≠ v := by
  obtain ⟨htarget, hsource, hv0⟩ := hc.edges_eq ha hb
  have hb0 : (k.edge b).target ≠ null :=
    hc.target_ne_null_of_mem (v := v) (by simp [hb])
  intro e he
  rw [contract_graph, if_pos rfl, Finset.mem_erase] at he
  rw [contract_edge]
  dsimp only
  rw [if_neg he.1, if_neg he.1]
  refine ⟨fun heq => he.1 ((hsource e).mp heq), ?_⟩
  split_ifs with hea
  · intro hloop
    exact he.1 (hea.trans ((htarget b).mp hloop).symm)
  · exact fun heq => hea ((htarget e).mp heq)

/-- What contractions leave alone. -/
structure Contracted (h : Heap) (g : GraphPtr) (k : Heap) : Prop where
  vertex : ∀ v, ∃ outEdges inEdges,
    k.vertex v = { h.vertex v with outEdges, inEdges }
  function : k.function = h.function
  nextVertex : k.nextVertex = h.nextVertex
  nextEdge : k.nextEdge = h.nextEdge
  vertices : ∀ i, (k.graph i).vertices = (h.graph i).vertices
  vertexIdState : ∀ i, (k.graph i).vertexIdState = (h.graph i).vertexIdState
  edges_of_ne : ∀ i, i ≠ g → (k.graph i).edges = (h.graph i).edges
  edges_subset : (k.graph g).edges ⊆ (h.graph g).edges
  edge : ∀ e ∈ (k.graph g).edges, ∃ target, k.edge e = { h.edge e with target }
  edge_of_notMem : ∀ e, e ∉ (h.graph g).edges → k.edge e = h.edge e

theorem ContractsTo.contracted (hk : ContractsTo g h vs k)
    (hc : h.Consistent) : Contracted h g k := by
  induction hk with
  | refl => exact ⟨fun _ => ⟨_, _, rfl⟩, rfl, rfl, rfl, fun _ => rfl,
      fun _ => rfl, fun _ _ => rfl, fun _ he => he, fun _ _ => ⟨_, rfl⟩, fun _ _ => rfl⟩
  | @contract vs k v a b hk hv ha hb hag hbg ih =>
      obtain ⟨htarget, _, hv0⟩ := (hk.consistent hc).edges_eq ha hb
      have hav := (htarget a).mpr rfl
      obtain ⟨hfunction, hnextVertex, hnextEdge⟩ := contract_frame k g a b
      exact
        { vertex := fun w => by
            obtain ⟨_, _, hw⟩ := ih.vertex w
            rw [contract_vertex k g a b (hav ▸ hv0), hw]
            exact ⟨_, _, rfl⟩
          function := hfunction.trans ih.function
          nextVertex := hnextVertex.trans ih.nextVertex
          nextEdge := hnextEdge.trans ih.nextEdge
          vertices := fun i => by
            rw [contract_graph]
            exact ih.vertices i
          vertexIdState := fun i => by
            rw [contract_graph]
            exact ih.vertexIdState i
          edges_of_ne := fun i hi => by
            rw [contract_graph, if_neg hi]
            exact ih.edges_of_ne i hi
          edges_subset := by
            rw [contract_graph, if_pos rfl]
            exact (Finset.erase_subset _ _).trans ih.edges_subset
          edge := fun e he => by
            rw [contract_graph, if_pos rfl, Finset.mem_erase] at he
            obtain ⟨t, ht⟩ := ih.edge e he.2
            rw [contract_edge, if_neg he.1, ht]
            exact ⟨_, rfl⟩
          edge_of_notMem := fun e he => by
            have hne : ∀ d ∈ (k.graph g).edges, e ≠ d := fun d hd heq =>
              he (heq ▸ ih.edges_subset hd)
            rw [contract_edge, if_neg (hne b hbg), if_neg (hne b hbg),
              if_neg (hne a hag)]
            exact ih.edge_of_notMem e he }

/-- The contracted vertices have no edges at the end. -/
theorem ContractsTo.edges_removed (hk : ContractsTo g h vs k)
    (hc : h.Consistent) : ∀ v ∈ vs, ∀ e ∈ (k.graph g).edges,
      (k.edge e).source ≠ v ∧ (k.edge e).target ≠ v := by
  induction hk with
  | refl => exact fun v hv => absurd hv List.not_mem_nil
  | @contract vs k v a b hk hv ha hb hag hbg ih =>
      intro w hw e he
      rcases List.mem_append.mp hw with hw | hw
      · rw [contract_graph, if_pos rfl, Finset.mem_erase] at he
        rw [contract_edge]
        dsimp only
        rw [if_neg he.1, if_neg he.1]
        refine ⟨(ih w hw e he.2).1, ?_⟩
        split_ifs
        · exact (ih w hw b hbg).2
        · exact (ih w hw e he.2).2
      · rw [List.mem_singleton.mp hw]
        exact (hk.consistent hc).edges_contract_self ha hb e he

/-! ## Reachability -/

/-- A step along an edge of the graph that satisfies `p`. -/
def StepIn (k : Heap) (g : GraphPtr) (p : EdgePtr → Prop) (u w : VertexPtr) :
    Prop :=
  ∃ e ∈ (k.graph g).edges, p e ∧ (k.edge e).source = u ∧ (k.edge e).target = w

/-- At a redundant vertex both edges satisfy `p`, or none of them. -/
def PassesThrough (k : Heap) (p : EdgePtr → Prop) : Prop :=
  ∀ v a b, k.isRedundant v = true → (k.vertex v).inEdges = {a} →
    (k.vertex v).outEdges = {b} → (p a ↔ p b)

theorem Consistent.stepIn_contract (hc : k.Consistent) {v : VertexPtr}
    {a b : EdgePtr} (ha : (k.vertex v).inEdges = {a})
    (hb : (k.vertex v).outEdges = {b}) (hag : a ∈ (k.graph g).edges)
    (hbg : b ∈ (k.graph g).edges) {p : EdgePtr → Prop} (hab : p a ↔ p b) :
    Bypasses (StepIn k g p) (StepIn (k.contract g a b) g p) v := by
  obtain ⟨htarget, hsource, _⟩ := hc.edges_eq ha hb
  have hav := (htarget a).mpr rfl
  have hbv := (hsource b).mpr rfl
  have hedge : ∀ e, e ≠ b → (k.contract g a b).edge e =
      { k.edge e with
        target := if e = a then (k.edge b).target else (k.edge e).target } := by
    intro e he
    rw [contract_edge, if_neg he, if_neg he]
  refine ⟨?_, ?_, ?_⟩
  · rintro u w ⟨e, he, hp, rfl, rfl⟩
    obtain ⟨hu, hw⟩ := hc.edges_contract_self ha hb e he
    refine ⟨hu, hw, ?_⟩
    rw [contract_graph, if_pos rfl, Finset.mem_erase] at he
    rw [hedge e he.1]
    dsimp only
    split_ifs with hea
    · subst hea
      exact .inr ⟨⟨e, he.2, hp, rfl, hav⟩, ⟨b, hbg, hab.mp hp, hbv, rfl⟩⟩
    · exact .inl ⟨e, he.2, hp, rfl, rfl⟩
  · rintro u w ⟨e, he, hp, rfl, rfl⟩ hu hw
    have heb : e ≠ b := fun heq => hu ((hsource e).mpr heq)
    have hea : e ≠ a := fun heq => hw ((htarget e).mpr heq)
    refine ⟨e, ?_, hp, ?_, ?_⟩
    · rw [contract_graph, if_pos rfl, Finset.mem_erase]
      exact ⟨heb, he⟩
    · rw [hedge e heb]
    · rw [hedge e heb]
      exact if_neg hea
  · rintro u w ⟨e, _, hp, rfl, hev⟩ ⟨d, _, _, hdv, rfl⟩ hu _
    obtain rfl := (htarget e).mp hev
    obtain rfl := (hsource d).mp hdv
    have hed : e ≠ d := fun heq => hu ((hsource e).mpr heq)
    refine ⟨e, ?_, hp, ?_, ?_⟩
    · rw [contract_graph, if_pos rfl, Finset.mem_erase]
      exact ⟨hed, hag⟩
    · rw [hedge e hed]
    · rw [hedge e hed]
      exact if_pos rfl

/-- Contracting one redundant vertex does not disturb the others. -/
theorem PassesThrough.contract {p : EdgePtr → Prop} (hp : PassesThrough k p)
    (hc : k.Consistent) {v : VertexPtr} {a b : EdgePtr}
    (hv : k.isRedundant v = true) (ha : (k.vertex v).inEdges = {a})
    (hb : (k.vertex v).outEdges = {b}) :
    PassesThrough (k.contract g a b) p := by
  obtain ⟨htarget, hsource, hv0⟩ := hc.edges_eq ha hb
  have hav := (htarget a).mpr rfl
  have hbv := (hsource b).mpr rfl
  intro w c d hw hcw hdw
  by_cases hwv : w = v
  · -- The contracted vertex itself has lost its edges.
    rw [contract_vertex k g a b (hav ▸ hv0), hwv] at hdw
    dsimp only at hdw
    rw [if_pos hbv.symm, hb] at hdw
    simp at hdw
  · rw [hc.isRedundant_contract ha hb hwv] at hw
    rw [contract_vertex k g a b (hav ▸ hv0)] at hcw hdw
    dsimp only at hcw hdw
    rw [hbv, if_neg hwv] at hdw
    rw [hav, if_neg hwv] at hcw
    split_ifs at hcw with ht
    · obtain ⟨c', hc'⟩ := Finset.card_eq_one.mp (show k.inDegree w = 1 by
        simp only [isRedundant, Bool.and_eq_true, decide_eq_true_iff] at hw
        exact hw.2.1)
      have hbmem : b ∈ (k.vertex w).inEdges :=
        (hc.mem_inEdges w b).mpr ⟨ht.symm, ht ▸
          hc.target_ne_null_of_mem (v := v) (by simp [hb])⟩
      obtain rfl : b = c' := by rwa [hc', Finset.mem_singleton] at hbmem
      have hab : a ≠ b := by
        rintro rfl
        exact hwv (ht.trans hav)
      have hca : c = a := by
        have hmem : a ∈ (insert a (k.vertex w).inEdges).erase b := by
          simp [hab]
        rw [hcw, Finset.mem_singleton] at hmem
        exact hmem.symm
      rw [hca, hp v a b hv ha hb]
      exact hp w b d hw hc' hdw
    · exact hp w c d hw hcw hdw

/-- Between vertices that stay, contractions keep reachability. -/
theorem ContractsTo.reflTransGen_iff (hk : ContractsTo g h vs k)
    (hc : h.Consistent) {p : EdgePtr → Prop} (hp : PassesThrough h p)
    {u w : VertexPtr} (hu : u ∉ vs) (hw : w ∉ vs) :
    ReflTransGen (StepIn k g p) u w ↔ ReflTransGen (StepIn h g p) u w := by
  suffices h' : PassesThrough k p ∧ (ReflTransGen (StepIn k g p) u w ↔
      ReflTransGen (StepIn h g p) u w) from h'.2
  induction hk with
  | refl => exact ⟨hp, Iff.rfl⟩
  | @contract vs k v a b hk hv ha hb hag hbg ih =>
      simp only [List.mem_append, List.mem_singleton, not_or] at hu hw
      obtain ⟨hpass, hiff⟩ := ih hu.1 hw.1
      have hc' := hk.consistent hc
      refine ⟨hpass.contract hc' hv ha hb, ?_⟩
      rw [(hc'.stepIn_contract ha hb hag hbg
        (hpass v a b hv ha hb)).reflTransGen_iff hu.2 hw.2]
      exact hiff

theorem ContractsTo.encloses (hk : ContractsTo g h vs k) (hc : h.Consistent)
    {M : Set VertexPtr} (hM : h.Encloses g M) : k.Encloses g M := by
  have hnull := hc.null_notMem hM
  induction hk with
  | refl => exact hM
  | @contract vs k v a b hk hv ha hb hag hbg ih =>
      refine ⟨fun e => ?_, fun e => ?_⟩
      · rw [contract_graph, if_pos rfl, Finset.mem_erase, contract_edge,
          ih.mem_edges_source e]
        dsimp only
        split_ifs with he
        · simp [he, hnull]
        · simp [he]
      · rw [contract_graph, if_pos rfl, Finset.mem_erase, contract_edge,
          ih.mem_edges_target e]
        dsimp only
        split_ifs with he hea
        · simp [he, hnull]
        · rw [hea, ← ih.mem_edges_target, ← ih.mem_edges_target]
          exact iff_of_true ⟨hea ▸ he, hag⟩ hbg
        · simp [he]

/-- An edge that is taken out of the graph ends nowhere. -/
theorem ContractsTo.detached (hk : ContractsTo g h vs k) :
    ∀ e ∈ (h.graph g).edges, e ∉ (k.graph g).edges →
      (k.edge e).source = null := by
  induction hk with
  | refl => exact fun e he hnot => absurd he hnot
  | @contract vs k v a b hk hv ha hb hag hbg ih =>
      intro e he hnot
      rw [contract_graph, if_pos rfl, Finset.mem_erase] at hnot
      rw [contract_edge]
      by_cases heb : e = b
      · simp [heb]
      · rw [if_neg heb]
        exact ih e he fun hmem => hnot ⟨heb, hmem⟩

theorem ContractsTo.confined (hk : ContractsTo g h vs k) (hc : h.Consistent)
    {M : Set VertexPtr} (hM : h.Encloses g M) : h.Confined g M k := by
  have hcontracted := hk.contracted hc
  have hencloses := hk.encloses hc hM
  refine ⟨Nat.le_of_eq hcontracted.nextEdge.symm,
    fun i hi => Graph.ext (hcontracted.vertices i)
      (hcontracted.edges_of_ne i hi) (hcontracted.vertexIdState i),
    fun v _ => ?_, fun e _ hsource _ => ?_, fun e hsource _ => ?_⟩
  · obtain ⟨_, _, hv⟩ := hcontracted.vertex v
    rw [hv]
  · exact hcontracted.edge_of_notMem e fun he =>
      hsource ((hM.mem_edges_source e).mp he)
  · by_cases he : e ∈ (h.graph g).edges
    · exact .inr (hk.detached e he fun hmem =>
        hsource ((hencloses.mem_edges_source e).mp hmem))
    · exact .inl (hcontracted.edge_of_notMem e he)

/-- The redundant vertices of a graph, in the order of a walk over it. -/
def redundantVertices (h : Heap) (order : IterationOrder) (g : GraphPtr) :
    List VertexPtr :=
  (order.vertices.enum (h.graph g).vertices).filter h.isRedundant

theorem mem_redundantVertices {h : Heap} {order : IterationOrder}
    {g : GraphPtr} {v : VertexPtr} : v ∈ h.redundantVertices order g ↔
      v ∈ (h.graph g).vertices ∧ h.isRedundant v = true := by
  rw [redundantVertices, List.mem_filter, SetOrder.mem_enum]

/-- A redundant vertex of the graph has both its edges in the graph. -/
theorem Encloses.exists_edges {M : Set VertexPtr} (hM : k.Encloses g M)
    (hc : k.Consistent) {v : VertexPtr} (hvM : v ∈ M)
    (hv : k.isRedundant v = true) :
    ∃ a b, (k.vertex v).inEdges = {a} ∧ (k.vertex v).outEdges = {b} ∧
      a ∈ (k.graph g).edges ∧ b ∈ (k.graph g).edges := by
  obtain ⟨a, b, ha, hb, hav, hbv, _, _, _⟩ := hc.exists_edges hv
  exact ⟨a, b, ha, hb, (hM.mem_edges_target a).mpr (hav ▸ hvM),
    (hM.mem_edges_source b).mpr (hbv ▸ hvM)⟩

/-- Up to any point of the walk, the loop has contracted and scheduled the
vertices so far that were redundant at its start. -/
theorem Consistent.foldlM_removeRedundantNode (hc : h.Consistent)
    {M : Set VertexPtr} (hM : h.Encloses g M)
    (hV : ∀ v ∈ (h.graph g).vertices, v ∈ M) (order : IterationOrder)
    {pre post : List VertexPtr}
    (hwalk : order.vertices.enum (h.graph g).vertices = pre ++ post) :
    ∃ k, pre.foldlM (removeRedundantNode order g) (h, []) =
        .ok (k, pre.filter h.isRedundant) ∧
      ContractsTo g h (pre.filter h.isRedundant) k ∧
        ∀ w, w ∉ pre → k.isRedundant w = h.isRedundant w := by
  have hnodup := order.vertices.nodup_enum (h.graph g).vertices
  have hmem : ∀ v ∈ pre, v ∈ (h.graph g).vertices := fun v hv =>
    (order.vertices.mem_enum _).mp (by simp [hwalk, hv])
  rw [hwalk, List.nodup_append] at hnodup
  obtain ⟨⟨k, removed⟩, hloop, hk, hremoved, hsame⟩ := foldlM_invariant
    (removeRedundantNode order g)
    (fun pre s => ContractsTo g h (pre.filter h.isRedundant) s.1 ∧
      s.2 = pre.filter h.isRedundant ∧
        ∀ w, w ∉ pre → s.1.isRedundant w = h.isRedundant w)
    pre (h, []) ⟨.refl, rfl, fun _ _ => rfl⟩
    (by
      rintro pre' v post' ⟨k, removed⟩ hl ⟨hk, hremoved, hsame⟩
      have hvmem : v ∈ (h.graph g).vertices := hmem v (by simp [hl])
      have hvpre : v ∉ pre' := by
        have hpre := hnodup.1
        rw [hl, List.nodup_append] at hpre
        exact fun hv => hpre.2.2 v hv v List.mem_cons_self rfl
      have hck := hk.consistent hc
      dsimp only at hk hremoved hsame
      have hfilter : (pre' ++ [v]).filter h.isRedundant =
          pre'.filter h.isRedundant ++ if k.isRedundant v then [v] else [] := by
        rw [List.filter_append, List.filter_singleton, hsame v hvpre,
          cond_eq_ite]
      cases hv : k.isRedundant v with
      | true =>
          obtain ⟨a, b, ha, hb, hag, hbg⟩ :=
            (hk.encloses hc hM).exists_edges hck (hV v hvmem) hv
          rw [hv, if_pos rfl] at hfilter
          refine ⟨_, hck.removeRedundantNode_eq order hv ha hb removed, ?_, ?_, ?_⟩
          · rw [hfilter]
            exact hk.contract hv ha hb hag hbg
          · rw [hfilter, hremoved]
          · intro w hw
            simp only [List.mem_append, List.mem_singleton, not_or] at hw
            rw [hck.isRedundant_contract ha hb hw.2, hsame w hw.1]
      | false =>
          rw [hv, if_neg Bool.false_ne_true, List.append_nil] at hfilter
          refine ⟨(k, removed), ?_, ?_, ?_, ?_⟩
          · unfold removeRedundantNode
            simp [hv]
          · rw [hfilter]
            exact hk
          · rw [hfilter]
            exact hremoved
          · intro w hw
            simp only [List.mem_append, not_or] at hw
            exact hsame w hw.1)
  dsimp only at hremoved
  subst hremoved
  exact ⟨k, hloop, hk, hsame⟩

/-- The loop contracts the vertices that were redundant at its start. -/
theorem Consistent.removeRedundantNodes_spec (hc : h.Consistent)
    {M : Set VertexPtr} (hM : h.Encloses g M)
    (hV : ∀ v ∈ (h.graph g).vertices, v ∈ M) (order : IterationOrder) :
    ∃ k, ContractsTo g h (h.redundantVertices order g) k ∧
      h.removeRedundantNodes order g = .ok
        ((h.redundantVertices order g).foldl (fun h v => h.removeVertex g v)
          k) := by
  obtain ⟨k, hloop, hk, _⟩ :=
    hc.foldlM_removeRedundantNode hM hV order (List.append_nil _).symm
  refine ⟨k, hk, ?_⟩
  unfold removeRedundantNodes
  rw [hloop]
  rfl

/-- What the removal of the scheduled vertices does. -/
theorem foldl_removeVertex (k : Heap) (vs : List VertexPtr) (i : GraphPtr) :
    (vs.foldl (fun h v => h.removeVertex g v) k).graph i =
      { k.graph i with
        vertices :=
          if i = g then (k.graph i).vertices.filter (· ∉ vs)
          else (k.graph i).vertices } := by
  induction vs generalizing k with
  | nil => simp
  | cons v vs ih =>
      rw [List.foldl_cons, ih, removeVertex, modifyGraph_graph]
      split_ifs with hi
      · subst hi
        rw [Graph.mk.injEq]
        refine ⟨?_, rfl, rfl⟩
        ext w
        simp only [Finset.mem_filter, Finset.mem_erase, List.mem_cons, not_or]
        tauto
      · rfl

theorem foldl_removeVertex_frame (k : Heap) (vs : List VertexPtr) :
    (vs.foldl (fun h v => h.removeVertex g v) k).vertex = k.vertex ∧
      (vs.foldl (fun h v => h.removeVertex g v) k).edge = k.edge ∧
      (vs.foldl (fun h v => h.removeVertex g v) k).function = k.function ∧
      (vs.foldl (fun h v => h.removeVertex g v) k).nextVertex = k.nextVertex ∧
      (vs.foldl (fun h v => h.removeVertex g v) k).nextEdge = k.nextEdge := by
  induction vs generalizing k with
  | nil => exact ⟨rfl, rfl, rfl, rfl, rfl⟩
  | cons v vs ih => exact ih (k.removeVertex g v)

end contractsTo

end Heap

end CoFlo.Ports
