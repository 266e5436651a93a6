import CoFlo.Ports.BackEdgeFixup
import CoFlo.Verified.FoldInvariant

/-!
# The marking loop of `FixupBackEdges`

What the loop over `back_edges` leaves behind, for any list of fix-up
infos a visitor may have collected.  The loop looks at `out_degree` while it
adds edges, so which infos add a proxy edge is a matter of their order; what
is said here is not.  `MarkInv` holds after every prefix of the list.
-/

namespace CoFlo.Ports

open CoFlo.Verified

namespace Heap

/-- The info `i` asks for a proxy edge, and its source has no other out-edge
than the back edge. -/
def WantsProxy (h : Heap) (i : BackEdgeFixupInfo) : Prop :=
  i.impossibleTargetVertex ≠ null ∧
    h.outDegree (h.edge i.backEdge).source = 1

/-- What a visitor collects on the heap `h`. -/
structure FixupInfos (h : Heap) (l : List BackEdgeFixupInfo) : Prop where
  source_ne_null : ∀ i ∈ l, (h.edge i.backEdge).source ≠ null
  target_lt : ∀ i ∈ l, i.impossibleTargetVertex < h.nextVertex

/-- What the loop has done to the heap `h` when it is through with `l`. -/
structure MarkInv (h : Heap) (g : GraphPtr) (l : List BackEdgeFixupInfo)
    (h' : Heap) : Prop where
  consistent : h'.Consistent
  vertex : ∀ v, ∃ outEdges inEdges,
    h'.vertex v = { h.vertex v with outEdges, inEdges }
  function : h'.function = h.function
  vertices : ∀ k, (h'.graph k).vertices = (h.graph k).vertices
  nextVertex : h'.nextVertex = h.nextVertex
  vertexIdState : ∀ k, (h'.graph k).vertexIdState = (h.graph k).vertexIdState
  nextEdge_le : h.nextEdge ≤ h'.nextEdge
  mem_edges : ∀ k e, e ∈ (h'.graph k).edges ↔
    e ∈ (h.graph k).edges ∨ k = g ∧ h.nextEdge ≤ e ∧ e < h'.nextEdge
  old : ∀ e, e < h.nextEdge → ∃ isBackEdge,
    h'.edge e = { h.edge e with isBackEdge } ∧
      (isBackEdge = true ↔
        (h.edge e).isBackEdge = true ∨ ∃ i ∈ l, i.backEdge = e)
  new : ∀ e, h.nextEdge ≤ e → e < h'.nextEdge → ∃ i ∈ l, h.WantsProxy i ∧
    h'.edge e = ⟨(h.edge i.backEdge).source, i.impossibleTargetVertex,
      .impossible, false⟩
  proxied : ∀ i ∈ l, h.WantsProxy i → ∃ e, h.nextEdge ≤ e ∧
    e < h'.nextEdge ∧ (h'.edge e).source = (h.edge i.backEdge).source
  new_unique : ∀ d e, h.nextEdge ≤ d → d < h'.nextEdge → h.nextEdge ≤ e →
    e < h'.nextEdge → (h'.edge d).source = (h'.edge e).source → d = e

theorem MarkInv.initial {h : Heap} (hc : h.Consistent) (g : GraphPtr) :
    MarkInv h g [] h where
  consistent := hc
  vertex v := ⟨_, _, rfl⟩
  function := rfl
  vertices _ := rfl
  nextVertex := rfl
  vertexIdState _ := rfl
  nextEdge_le := Nat.le_refl _
  mem_edges k e := by
    refine ⟨.inl, fun he => he.resolve_right ?_⟩
    rintro ⟨_, hle, hlt⟩
    exact Nat.lt_irrefl _ (Nat.lt_of_le_of_lt hle hlt)
  old e _ := ⟨_, rfl, by simp⟩
  new e hle hlt := absurd (Nat.lt_of_le_of_lt hle hlt) (Nat.lt_irrefl _)
  proxied i hi := absurd hi List.not_mem_nil
  new_unique d e hle hlt := absurd (Nat.lt_of_le_of_lt hle hlt)
    (Nat.lt_irrefl _)

section step

variable {h h' : Heap} {g : GraphPtr} {l : List BackEdgeFixupInfo}

theorem MarkInv.old_source (hm : MarkInv h g l h') {e : EdgePtr}
    (he : e < h.nextEdge) : (h'.edge e).source = (h.edge e).source := by
  obtain ⟨_, hedge, _⟩ := hm.old e he
  rw [hedge]

/-- Only the edges handed out by `new` so far have a source. -/
theorem Consistent.lt_nextEdge {h : Heap} (hc : h.Consistent) {e : EdgePtr}
    (he : (h.edge e).source ≠ null) : e < h.nextEdge :=
  (hc.allocated e he).2

/-- The out-edges of a vertex: the old ones, and the proxy edges from there. -/
theorem MarkInv.mem_outEdges (hc : h.Consistent) (hm : MarkInv h g l h')
    (v : VertexPtr) (e : EdgePtr) :
    e ∈ (h'.vertex v).outEdges ↔ e ∈ (h.vertex v).outEdges ∨
      v ≠ null ∧ h.nextEdge ≤ e ∧ e < h'.nextEdge ∧ (h'.edge e).source = v := by
  rw [hm.consistent.mem_outEdges, hc.mem_outEdges]
  rcases Nat.lt_or_ge e h.nextEdge with hlt | hge
  · rw [hm.old_source hlt]
    exact ⟨.inl, fun he => he.resolve_right fun hnew =>
      Nat.not_lt.mpr hnew.2.1 hlt⟩
  · constructor
    · rintro ⟨hsource, hv⟩
      exact .inr ⟨hv, hge, hm.consistent.lt_nextEdge (hsource ▸ hv), hsource⟩
    · rintro (⟨hsource, hv⟩ | ⟨hv, _, _, hsource⟩)
      · exact absurd (hc.lt_nextEdge (hsource ▸ hv)) (Nat.not_lt.mpr hge)
      · exact ⟨hsource, hv⟩

/-- Whether the loop adds a proxy edge at a vertex that has one old
out-edge: it does unless there is one. -/
theorem MarkInv.outDegree_eq_one_iff (hc : h.Consistent)
    (hm : MarkInv h g l h') {e : EdgePtr} (he : (h.edge e).source ≠ null) :
    h'.outDegree (h.edge e).source = 1 ↔
      h.outDegree (h.edge e).source = 1 ∧
        ∀ d, h.nextEdge ≤ d → d < h'.nextEdge →
          (h'.edge d).source ≠ (h.edge e).source := by
  have hmem : e ∈ (h.vertex (h.edge e).source).outEdges :=
    (hc.mem_outEdges _ e).mpr ⟨rfl, he⟩
  have hlt := hc.lt_nextEdge he
  constructor
  · intro hone
    obtain ⟨a, ha⟩ := Finset.card_eq_one.mp hone
    have hall : ∀ d, d ∈ (h'.vertex (h.edge e).source).outEdges → d = e := by
      have hae : e = a := by
        rw [← Finset.mem_singleton, ← ha]
        exact (hm.mem_outEdges hc _ e).mpr (.inl hmem)
      intro d hd
      rw [ha, Finset.mem_singleton] at hd
      rw [hd, hae]
    refine ⟨Finset.card_eq_one.mpr ⟨e, ?_⟩, fun d hle hdlt hsource => ?_⟩
    · refine Finset.eq_singleton_iff_unique_mem.mpr ⟨hmem, fun d hd => ?_⟩
      exact hall d ((hm.mem_outEdges hc _ d).mpr (.inl hd))
    · have hde := hall d
        ((hm.mem_outEdges hc _ d).mpr (.inr ⟨he, hle, hdlt, hsource⟩))
      exact absurd (Nat.lt_of_le_of_lt hle (hde ▸ hlt)) (Nat.lt_irrefl _)
  · rintro ⟨hone, hnone⟩
    have hset : (h'.vertex (h.edge e).source).outEdges =
        (h.vertex (h.edge e).source).outEdges := by
      ext d
      rw [hm.mem_outEdges hc]
      exact ⟨fun hd => hd.resolve_right fun hnew =>
        hnone d hnew.2.1 hnew.2.2.1 hnew.2.2.2, .inl⟩
    rw [outDegree, hset]
    exact hone

/-- A round that only marks: the info wants no proxy edge, or there is one
already. -/
theorem MarkInv.mark (hm : MarkInv h g l h') {i : BackEdgeFixupInfo}
    (hi : (h.edge i.backEdge).source ≠ null)
    (hskip : h.WantsProxy i → ∃ e, h.nextEdge ≤ e ∧ e < h'.nextEdge ∧
      (h'.edge e).source = (h.edge i.backEdge).source)
    (hc : h.Consistent) :
    MarkInv h g (l ++ [i]) (h'.markAsBackEdge i.backEdge true) where
  consistent := hm.consistent.markAsBackEdge _ _
  vertex := hm.vertex
  function := hm.function
  vertices := hm.vertices
  nextVertex := hm.nextVertex
  vertexIdState := hm.vertexIdState
  nextEdge_le := hm.nextEdge_le
  mem_edges := hm.mem_edges
  old e he := by
    obtain ⟨isBackEdge, hedge, hiff⟩ := hm.old e he
    rw [markAsBackEdge_edge, hedge]
    refine ⟨_, rfl, ?_⟩
    simp only [List.mem_append, List.mem_singleton, or_and_right, exists_or,
      exists_eq_left]
    by_cases heq : e = i.backEdge
    · simp [heq]
    · have hne : i.backEdge ≠ e := fun h => heq h.symm
      simp only [heq, hne, if_false, or_false]
      exact hiff
  new e hle hlt := by
    obtain ⟨j, hj, hwants, hedge⟩ := hm.new e hle hlt
    refine ⟨j, List.mem_append_left _ hj, hwants, ?_⟩
    have hne : e ≠ i.backEdge := fun heq =>
      Nat.not_lt.mpr hle (heq ▸ hc.lt_nextEdge hi)
    rw [markAsBackEdge_edge, hedge, if_neg hne]
  proxied j hj hwants := by
    have hold : ∃ e, h.nextEdge ≤ e ∧ e < h'.nextEdge ∧
        (h'.edge e).source = (h.edge j.backEdge).source := by
      rcases List.mem_append.mp hj with hj | hj
      · exact hm.proxied j hj hwants
      · rw [List.mem_singleton.mp hj] at hwants ⊢
        exact hskip hwants
    obtain ⟨e, hle, hlt, hsource⟩ := hold
    refine ⟨e, hle, hlt, ?_⟩
    rw [markAsBackEdge_edge]
    exact hsource
  new_unique d e hd hd' he he' hsource := by
    rw [markAsBackEdge_edge, markAsBackEdge_edge] at hsource
    exact hm.new_unique d e hd hd' he he' hsource

/-- A round that marks and adds a proxy edge. -/
theorem MarkInv.markAndAdd (hm : MarkInv h g l h') {i : BackEdgeFixupInfo}
    (hi : (h.edge i.backEdge).source ≠ null)
    (htarget : i.impossibleTargetVertex < h.nextVertex)
    (hwants : h.WantsProxy i)
    (hnone : ∀ e, h.nextEdge ≤ e → e < h'.nextEdge →
      (h'.edge e).source ≠ (h.edge i.backEdge).source)
    (hc : h.Consistent) :
    MarkInv h g (l ++ [i])
      ((h'.markAsBackEdge i.backEdge true).addNewEdge g
        (h.edge i.backEdge).source i.impossibleTargetVertex .impossible) := by
  obtain ⟨t, ht⟩ : ∃ t, t = (h'.markAsBackEdge i.backEdge true).addNewEdge g
      (h.edge i.backEdge).source i.impossibleTargetVertex .impossible := ⟨_, rfl⟩
  have hnext : t.nextEdge = h'.nextEdge + 1 := by rw [ht]; rfl
  have hedge : ∀ e, t.edge e =
      if e = h'.nextEdge then
        ⟨(h.edge i.backEdge).source, i.impossibleTargetVertex, .impossible,
          false⟩
      else
        { h'.edge e with
          isBackEdge :=
            if e = i.backEdge then true else (h'.edge e).isBackEdge } := by
    intro e
    rw [ht, addNewEdge_edge, markAsBackEdge_edge]
    rfl
  have hsource : ∀ e, e < h'.nextEdge → (t.edge e).source = (h'.edge e).source := by
    intro e he
    rw [hedge, if_neg (Nat.ne_of_lt he)]
  have hcases : ∀ e, e < t.nextEdge → e < h'.nextEdge ∨ e = h'.nextEdge := by
    intro e he
    rw [hnext] at he
    exact Nat.lt_succ_iff_lt_or_eq.mp he
  rw [← ht]
  exact
    { consistent := by
        rw [ht]
        refine (hm.consistent.markAsBackEdge _ _).addNewEdge g .impossible hi
          hwants.1 ?_ ?_
        · exact hm.nextVertex ▸ hc.source_lt _
        · exact hm.nextVertex ▸ htarget
      vertex := fun v => by
        obtain ⟨outEdges, inEdges, hv⟩ := hm.vertex v
        rw [ht, addNewEdge_vertex]
        exact ⟨_, _, by rw [show (h'.markAsBackEdge i.backEdge true).vertex v =
          h'.vertex v from rfl, hv]⟩
      function := by
        rw [ht, addNewEdge_function]
        exact hm.function
      vertices := fun k => by
        rw [ht, addNewEdge_vertices]
        exact hm.vertices k
      nextVertex := by
        rw [ht, addNewEdge_nextVertex]
        exact hm.nextVertex
      vertexIdState := fun k => by
        rw [ht, addNewEdge_vertexIdState]
        exact hm.vertexIdState k
      nextEdge_le := by
        rw [hnext]
        exact Nat.le_succ_of_le hm.nextEdge_le
      mem_edges := fun k e => by
        have hold := hm.mem_edges k e
        have hle := hm.nextEdge_le
        rw [ht, addNewEdge_graph, addNewEdge_nextEdge]
        change e ∈ (if k = g then insert h'.nextEdge (h'.graph k).edges
          else (h'.graph k).edges) ↔ _ ∨ _ ∧ _ ∧ e < h'.nextEdge + 1
        grind
      old := fun e he => by
        obtain ⟨isBackEdge, hold, hiff⟩ := hm.old e he
        have hne : e ≠ h'.nextEdge :=
          Nat.ne_of_lt (Nat.lt_of_lt_of_le he hm.nextEdge_le)
        rw [hedge, if_neg hne, hold]
        refine ⟨_, rfl, ?_⟩
        simp only [List.mem_append, List.mem_singleton, or_and_right,
          exists_or, exists_eq_left]
        by_cases heq : e = i.backEdge
        · simp [heq]
        · have hne' : i.backEdge ≠ e := fun h => heq h.symm
          simp only [heq, hne', if_false, or_false]
          exact hiff
      new := fun e hle hlt => by
        rcases hcases e hlt with hlt | rfl
        · obtain ⟨j, hj, hwants', hold⟩ := hm.new e hle hlt
          refine ⟨j, List.mem_append_left _ hj, hwants', ?_⟩
          have hne : e ≠ i.backEdge := fun heq =>
            Nat.not_lt.mpr hle (heq ▸ hc.lt_nextEdge hi)
          rw [hedge, if_neg (Nat.ne_of_lt hlt), if_neg hne, hold]
        · refine ⟨i, by simp, hwants, ?_⟩
          rw [hedge, if_pos rfl]
      proxied := fun j hj hwants' => by
        rcases List.mem_append.mp hj with hj | hj
        · obtain ⟨e, hle, hlt, hold⟩ := hm.proxied j hj hwants'
          refine ⟨e, hle, by rw [hnext]; exact Nat.lt_succ_of_lt hlt, ?_⟩
          rw [hsource e hlt, hold]
        · refine ⟨h'.nextEdge, hm.nextEdge_le,
            hnext ▸ Nat.lt_succ_self h'.nextEdge, ?_⟩
          rw [hedge, if_pos rfl, List.mem_singleton.mp hj]
      new_unique := fun d e hd hd' he he' heq => by
        have hlast : (t.edge h'.nextEdge).source =
            (h.edge i.backEdge).source := by
          rw [hedge, if_pos rfl]
        rcases hcases d hd' with hd' | rfl
        · rcases hcases e he' with he' | rfl
          · rw [hsource d hd', hsource e he'] at heq
            exact hm.new_unique d e hd hd' he he' heq
          · rw [hsource d hd', hlast] at heq
            exact absurd heq (hnone d hd hd')
        · rcases hcases e he' with he' | rfl
          · rw [hlast, hsource e he'] at heq
            exact absurd heq.symm (hnone e he he')
          · rfl }

/-- One round of the loop. -/
theorem MarkInv.fixupBackEdge (hc : h.Consistent) (hm : MarkInv h g l h')
    {i : BackEdgeFixupInfo} (hi : (h.edge i.backEdge).source ≠ null)
    (htarget : i.impossibleTargetVertex < h.nextVertex) :
    MarkInv h g (l ++ [i]) (Heap.fixupBackEdge g h' i) := by
  have hsource : ((h'.markAsBackEdge i.backEdge true).edge i.backEdge).source =
      (h.edge i.backEdge).source := by
    rw [markAsBackEdge_edge, hm.old_source (hc.lt_nextEdge hi)]
  have hone := hm.outDegree_eq_one_iff hc hi
  unfold Heap.fixupBackEdge
  dsimp only
  split_ifs with hnull hdegree
  · exact hm.mark hi (fun hwants => absurd hnull hwants.1) hc
  · rw [hsource] at hdegree ⊢
    obtain ⟨hdegree, hnone⟩ := hone.mp hdegree
    exact hm.markAndAdd hi htarget ⟨hnull, hdegree⟩ hnone hc
  · rw [hsource] at hdegree
    refine hm.mark hi (fun hwants => ?_) hc
    -- The out-degree is not one any more, so the edge is there already.
    by_contra hnone
    push Not at hnone
    exact hdegree (hone.mpr ⟨hwants.2, hnone⟩)

end step

/-- The whole loop. -/
theorem MarkInv.foldl {h : Heap} (hc : h.Consistent) (g : GraphPtr)
    {l : List BackEdgeFixupInfo} (hl : FixupInfos h l) :
    MarkInv h g l (l.foldl (Heap.fixupBackEdge g) h) := by
  refine FoldInvariant.foldl_invariant _ (MarkInv h g) l h
    (MarkInv.initial hc g) fun pre i post h' hsplit hm => ?_
  have hi : i ∈ l := by simp [hsplit]
  exact hm.fixupBackEdge hc (hl.source_ne_null i hi) (hl.target_lt i hi)

end Heap

end CoFlo.Ports
