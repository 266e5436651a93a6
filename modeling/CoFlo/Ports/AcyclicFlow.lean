import CoFlo.Ports.ConnectedFlow
import CoFlo.Ports.WayOut
import CoFlo.Verified.Detours

/-!
# When topological sorting works

`FixupBackEdges` adds its proxy edges "so topological sorting works
correctly", that is, so that every vertex keeps an out-edge that is not a back
edge.  It does not look at what the new edges do together.  The edges left
unmarked by the search are acyclic; whether they stay so depends on where the
proxy edges lead, from one to the next (`fixupBackEdges_acyclic_iff`).
-/

namespace CoFlo.Ports

open CoFlo.Verified CoFlo.Verified.DepthFirstSearch CoFlo.Verified.Detours

namespace Heap

variable (h : Heap) (order : IterationOrder) (g : GraphPtr)

/-- An edge of the graph that is not marked as a back edge. -/
def UnmarkedStep (u v : VertexPtr) : Prop :=
  ∃ e ∈ (h.graph g).edges,
    (h.edge e).source = u ∧ (h.edge e).target = v ∧
      (h.edge e).isBackEdge = false

instance (u v : VertexPtr) : Decidable (h.UnmarkedStep g u v) :=
  inferInstanceAs (Decidable (∃ e ∈ (h.graph g).edges, _))

/-- An edge of the graph that is not marked, and is not found to be a back
edge by a search from `roots`. -/
def ForwardStep (roots : List VertexPtr) (u v : VertexPtr) : Prop :=
  ∃ e ∈ (h.graph g).edges,
    (h.edge e).source = u ∧ (h.edge e).target = v ∧
      (h.edge e).isBackEdge = false ∧
        ¬ IsBackEdge (h.incidence order) roots e

variable {h order g}

theorem searchRoots_mem {entry : VertexPtr} (hentry : entry ∈ (h.graph g).vertices) :
    ∀ r ∈ h.searchRoots order g entry, r ∈ (h.graph g).vertices := by
  intro r hr
  rcases List.mem_cons.mp hr with rfl | hr
  · exact hentry
  · exact (order.vertices.mem_enum _).mp hr

/-- An edge that `FixupBackEdges` leaves unmarked is a forward edge. -/
theorem FixedUp.forwardStep (hc : h.Consistent) {roots : List VertexPtr} {h' : Heap}
    (hfix : FixedUp h order g roots h') {e : EdgePtr} (he : e ∈ (h.graph g).edges)
    (hmark : (h'.edge e).isBackEdge = false) :
    h.ForwardStep order g roots (h.edge e).source (h.edge e).target := by
  obtain ⟨isBackEdge, hedge, hiff⟩ :=
    hfix.old e (hc.lt_nextEdge (hc.edges_attached g e he))
  rw [hedge] at hmark
  have hnot := hiff.not.mp (by rw [show isBackEdge = false from hmark]; decide)
  rw [not_or, Bool.not_eq_true] at hnot
  exact ⟨e, he, rfl, rfl, hnot.1, hnot.2⟩

/-- Unmarked edges after `FixupBackEdges`: forward edges, and proxy edges. -/
theorem FixedUp.unmarkedStep_iff (hc : h.Consistent) {roots : List VertexPtr}
    {h' : Heap} (hfix : FixedUp h order g roots h') (u v : VertexPtr) :
    h'.UnmarkedStep g u v ↔
      Either (h.ForwardStep order g roots) (h.Proxy order roots) u v := by
  have hlt : ∀ e ∈ (h.graph g).edges, e < h.nextEdge := fun e he =>
    hc.lt_nextEdge (hc.edges_attached g e he)
  constructor
  · rintro ⟨e, he, hsource, htarget, hmark⟩
    rcases (hfix.mem_edges g e).mp he with hold | ⟨_, hle, hlt'⟩
    · obtain ⟨isBackEdge, hedge, -⟩ := hfix.old e (hlt e hold)
      have hforward := hfix.forwardStep hc hold hmark
      rw [hedge] at hsource htarget
      dsimp only at hsource htarget
      rw [hsource, htarget] at hforward
      exact .inl hforward
    · obtain ⟨s, t, hproxy, hedge⟩ := hfix.new e hle hlt'
      rw [hedge] at hsource htarget
      exact .inr (hsource ▸ htarget ▸ hproxy)
  · rintro (⟨e, he, hsource, htarget, hmark, hback⟩ | hproxy)
    · obtain ⟨isBackEdge, hedge, hiff⟩ := hfix.old e (hlt e he)
      refine ⟨e, (hfix.mem_edges g e).mpr (.inl he), ?_, ?_, ?_⟩
      · rw [hedge]
        exact hsource
      · rw [hedge]
        exact htarget
      · rw [hedge, ← Bool.not_eq_true, hiff, not_or, Bool.not_eq_true]
        exact ⟨hmark, hback⟩
    · obtain ⟨e, hle, hlt', hedge⟩ := hfix.proxied u v hproxy
      refine ⟨e, (hfix.mem_edges g e).mpr (.inr ⟨rfl, hle, hlt'⟩), ?_⟩
      rw [hedge]
      exact ⟨rfl, rfl, rfl⟩

/-- The search alone leaves no cycle. -/
theorem Consistent.acyclic_forwardStep (hc : h.Consistent)
    (hM : h.Encloses g (h.graph g).vertices) (entry : VertexPtr) :
    Acyclic (h.ForwardStep order g (h.searchRoots order g entry)) := by
  obtain ⟨rank, hrank⟩ := exists_rank (hc.incidence_proper order)
    (hc.searchUniverse order (h.searchRoots order g entry))
  refine Acyclic.of_rank rank fun u v hstep => ?_
  obtain ⟨e, he, rfl, rfl, _, hback⟩ := hstep
  have hsource : (h.edge e).source ∈ (h.graph g).vertices :=
    (hM.mem_edges_source e).mp he
  have hroot : (h.edge e).source ∈ h.searchRoots order g entry := by
    simp [searchRoots, hsource]
  refine hrank _ ⟨_, hroot, [], rfl⟩ e ?_ hback
  rw [hc.mem_incidence_out]
  exact ⟨rfl, hc.edges_attached g e he⟩

end Heap

/-- After `FixupBackEdges` the unmarked edges are acyclic exactly when the
search finds a way out of every loop, and going forward from one proxy edge to
the next never comes round. -/
theorem fixupBackEdges_acyclic_iff {h : Heap} (hc : h.Consistent)
    {g : GraphPtr} (hM : h.Encloses g (h.graph g).vertices)
    (entry : VertexPtr) (order : IterationOrder) :
    (h.fixupBackEdges order g entry).Holds (fun h' =>
        Acyclic (h'.UnmarkedStep g)) ↔
      ¬ h.NoWayOut order (h.searchRoots order g entry) ∧
        Acyclic (Detour
          (h.ForwardStep order g (h.searchRoots order g entry))
          (h.Proxy order (h.searchRoots order g entry))) := by
  rcases hc.fixupBackEdges_spec order g entry with
    ⟨hno, hrun⟩ | ⟨hno, h', hrun, hfix⟩
  · rw [hrun]
    exact iff_of_false Result.not_holds_error fun hcond => hcond.1 hno
  · have hstep : h'.UnmarkedStep g = Either
        (h.ForwardStep order g (h.searchRoots order g entry))
        (h.Proxy order (h.searchRoots order g entry)) := by
      funext u v
      exact propext (hfix.unmarkedStep_iff hc u v)
    rw [← acyclic_either_iff (hc.acyclic_forwardStep hM entry), ← hstep,
      and_iff_right hno, hrun, Result.holds_ok]

/-- An endless loop around an `if`: each of its branches jumps back. -/
def branchesBack : List Statement :=
  [.label "L", .ifUnlinked "c" "A" "B", .label "A", .gotoUnlinked "L",
    .label "B", .gotoUnlinked "L"]

/-- The graph of `branchesBack`, and what `FixupBackEdges` adds to it: each of
the two back edges takes the other branch for its way out. -/
theorem branchesBack_flow :
    ∃ h : Heap, (Heap.singleFunction branchesBack).2.connectedFlow 1
        (Heap.singleFunction branchesBack).1 = .ok h ∧
      h.Consistent ∧ h.Encloses 1 (h.graph 1).vertices ∧
        7 ∈ (h.graph 1).vertices ∧
          (h.fixupBackEdges .ascending 1 7).Holds fun h' =>
            h'.UnmarkedStep 1 3 10 ∧ h'.UnmarkedStep 1 10 5 ∧
              h'.UnmarkedStep 1 5 11 ∧ h'.UnmarkedStep 1 11 3 := by
  obtain ⟨h, ρ, hrun, hk⟩ :=
    connectedFlow_spec (Heap.singleFunction_fresh branchesBack)
  have hcheck : ((Heap.singleFunction branchesBack).2.connectedFlow 1
      (Heap.singleFunction branchesBack).1).Holds fun h =>
      (∀ e ∈ (h.graph 1).edges, (h.edge e).source ∈ (h.graph 1).vertices ∧
        (h.edge e).target ∈ (h.graph 1).vertices) ∧
      7 ∈ (h.graph 1).vertices ∧
      (h.fixupBackEdges .ascending 1 7).Holds fun h' =>
        h'.UnmarkedStep 1 3 10 ∧ h'.UnmarkedStep 1 10 5 ∧
          h'.UnmarkedStep 1 5 11 ∧ h'.UnmarkedStep 1 11 3 := by
    decide +kernel
  obtain ⟨_, hok, hends, hentry, hsteps⟩ := hcheck
  obtain rfl := Except.ok.inj (hrun.symm.trans hok)
  exact ⟨h, hrun, hk.consistent, hk.encloses.subset
    (hk.vertices_subset (Heap.singleFunction_fresh _)) hends, hentry, hsteps⟩

theorem fixupBackEdges_branchesBack :
    ∃ (h : Heap) (g : GraphPtr) (entry : VertexPtr) (order : IterationOrder),
      h.Consistent ∧ h.Encloses g (h.graph g).vertices ∧
        entry ∈ (h.graph g).vertices ∧
          ¬ (h.fixupBackEdges order g entry).Holds (fun h' =>
            Acyclic (h'.UnmarkedStep g)) := by
  obtain ⟨h, _, hc, hM, hentry, h', hfixup, h₁, h₂, h₃, h₄⟩ := branchesBack_flow
  refine ⟨h, 1, 7, .ascending, hc, hM, hentry, ?_⟩
  rintro ⟨_, hok, hacyclic⟩
  obtain rfl := Except.ok.inj (hfixup.symm.trans hok)
  exact hacyclic 3 (.tail (.tail (.tail (.single h₁) h₂) h₃) h₄)

/-- `while (c) ;`, with the test in front. -/
def whileLoop : List Statement :=
  [.label "L", .ifUnlinked "c" "A" "B", .label "A", .noOp, .gotoUnlinked "L", .label "B"]

/-- The graph of `whileLoop`, with ENTRY at 7 and EXIT at 8, and what `FixupBackEdges`
does: the goto at 10 jumps back and gets the other branch, 6, for its way out. -/
theorem whileLoop_flow :
    ∃ h h' : Heap, (Heap.singleFunction whileLoop).2.connectedFlow 1
        (Heap.singleFunction whileLoop).1 = .ok h ∧
      h.fixupBackEdges .ascending 1 7 = .ok h' ∧
      h.Consistent ∧ h.Encloses 1 (h.graph 1).vertices ∧
      ¬ h.NoWayOut .ascending (h.searchRoots .ascending 1 7) ∧
      h.FixedUp .ascending 1 (h.searchRoots .ascending 1 7) h' ∧
      (7 ∈ (h.graph 1).vertices ∧ 6 ∈ (h.graph 1).vertices ∧
        (∀ v ∈ (h.graph 1).vertices, v = 8 ∨ v = 10 ∨ ∃ e ∈ (h.graph 1).edges,
          (h.edge e).source = v ∧ (h'.edge e).isBackEdge = false) ∧
        ∀ e ∈ (h.graph 1).edges, (h.edge e).source = 6 ∨ (h.edge e).source = 8 →
          (h.edge e).target = 8) ∧
      h.nextEdge = 11 ∧ h'.nextEdge = 12 ∧
        h'.edge 11 = ⟨10, 6, .impossible, false⟩ := by
  obtain ⟨h, ρ, hrun, hk⟩ :=
    connectedFlow_spec (Heap.singleFunction_fresh whileLoop)
  have hcheck : ((Heap.singleFunction whileLoop).2.connectedFlow 1
      (Heap.singleFunction whileLoop).1).Holds fun h =>
      (∀ e ∈ (h.graph 1).edges, (h.edge e).source ∈ (h.graph 1).vertices ∧
        (h.edge e).target ∈ (h.graph 1).vertices) ∧
      (h.fixupBackEdges .ascending 1 7).Holds fun h' =>
        (7 ∈ (h.graph 1).vertices ∧ 6 ∈ (h.graph 1).vertices ∧
          (∀ v ∈ (h.graph 1).vertices, v = 8 ∨ v = 10 ∨ ∃ e ∈ (h.graph 1).edges,
            (h.edge e).source = v ∧ (h'.edge e).isBackEdge = false) ∧
          ∀ e ∈ (h.graph 1).edges, (h.edge e).source = 6 ∨ (h.edge e).source = 8 →
            (h.edge e).target = 8) ∧
        h.nextEdge = 11 ∧ h'.nextEdge = 12 ∧
          h'.edge 11 = ⟨10, 6, .impossible, false⟩ := by
    decide +kernel
  obtain ⟨_, hok, hends, h', hfixup, hgraph, hproxy⟩ := hcheck
  obtain rfl := Except.ok.inj (hrun.symm.trans hok)
  rcases hk.consistent.fixupBackEdges_spec .ascending 1 7 with
    ⟨-, herror⟩ | ⟨hno, f, hf, hfix⟩
  · rw [hfixup] at herror
    exact absurd herror (by simp)
  · obtain rfl := Except.ok.inj (hfixup.symm.trans hf)
    exact ⟨h, h', hrun, hf, hk.consistent, hk.encloses.subset
      (hk.vertices_subset (Heap.singleFunction_fresh _)) hends, hno, hfix, hgraph, hproxy⟩

/-- The goto is the only one with a proxy edge, and the branch that leaves the loop does
not lead back to it. -/
theorem fixupBackEdges_acyclic_iff_whileLoop :
    ∃ h : Heap, (Heap.singleFunction whileLoop).2.connectedFlow 1
        (Heap.singleFunction whileLoop).1 = .ok h ∧
      ¬ h.NoWayOut .ascending (h.searchRoots .ascending 1 7) ∧
      Acyclic (Detour (h.ForwardStep .ascending 1 (h.searchRoots .ascending 1 7))
        (h.Proxy .ascending (h.searchRoots .ascending 1 7))) ∧
      (h.fixupBackEdges .ascending 1 7).Holds fun h' => Acyclic (h'.UnmarkedStep 1) := by
  obtain ⟨h, h', hrun, -, hc, hM, hno, hfix, ⟨-, -, -, hleave⟩, hnext, hnext', hedge⟩ :=
    whileLoop_flow
  have hproxy : ∀ s t, h.Proxy .ascending (h.searchRoots .ascending 1 7) s t →
      s = 10 ∧ t = 6 := by
    intro s t hst
    obtain ⟨e, hle, hlt, he⟩ := hfix.proxied s t hst
    rw [hnext] at hle
    rw [hnext'] at hlt
    obtain rfl : e = 11 := Nat.le_antisymm (Nat.le_of_lt_succ hlt) hle
    rw [hedge, Edge.mk.injEq] at he
    exact ⟨he.1.symm, he.2.1.symm⟩
  have hreach : ∀ v, Relation.ReflTransGen
      (h.ForwardStep .ascending 1 (h.searchRoots .ascending 1 7)) 6 v → v = 6 ∨ v = 8 := by
    intro v hv
    induction hv with
    | refl => exact .inl rfl
    | tail _ hstep ih =>
        obtain ⟨e, he, rfl, rfl, -⟩ := hstep
        exact .inr (hleave e he ih)
  have hacyclic : Acyclic (Detour
      (h.ForwardStep .ascending 1 (h.searchRoots .ascending 1 7))
        (h.Proxy .ascending (h.searchRoots .ascending 1 7))) := by
    refine Acyclic.of_rank (fun _ => 0) fun s t hdetour => ?_
    obtain ⟨x, hsx, hxt, y, hty⟩ := hdetour
    have ht := hreach t ((hproxy s x hsx).2 ▸ hxt)
    rw [(hproxy t y hty).1] at ht
    exact absurd ht (by decide)
  exact ⟨h, hrun, hno, hacyclic,
    (fixupBackEdges_acyclic_iff hc hM 7 .ascending).mpr ⟨hno, hacyclic⟩⟩

end CoFlo.Ports
