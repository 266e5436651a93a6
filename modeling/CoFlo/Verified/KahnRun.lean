import CoFlo.Verified.KahnVisit

/-!
# How far a visit has come

Two facts about a state of Kahn's algorithm in which no vertex is being visited:
what a vertex is reached from has been discovered before it is ready
(`Inv.discovered_of_transGen`), and as long as something that is reached has not
been discovered, something is ready (`Inv.ready_ne_nil`).
-/

namespace CoFlo.Verified.KahnVisit

open CoFlo.Verified.DepthFirstSearch Relation

variable {V E : Type*} [DecidableEq E] {G : Incidence V E} {S : Set E}
  {inEdges : V → Finset E} {r : V} {s : State V E}

/-- Edges that are passed over only get examined. -/
theorem Inv.skips [DecidableEq V] (hG : G.Proper) (hin : InEdges G S inEdges)
    (hroot : inEdges r = ∅) {l ei : List E} (h : Inv G inEdges r s)
    (hpending : s.pending = some (l ++ ei)) (hl : ∀ e ∈ l, e ∈ S) :
    Inv G inEdges r { s with pending := some ei, examined := s.examined ++ l } := by
  induction l generalizing s with
  | nil =>
      rw [List.nil_append] at hpending
      rw [List.append_nil, ← hpending]
      exact h
  | cons e l ih =>
      have hskip := h.step hG hin hroot (.skip hpending (hl e List.mem_cons_self))
      have hrest := ih hskip rfl fun d hd => hl d (List.mem_cons_of_mem e hd)
      dsimp only at hrest
      rw [List.append_assoc] at hrest
      exact hrest

theorem Inv.left_eq_empty (h : Inv G inEdges r s) (hroot : inEdges r = ∅) {v : V}
    (hv : v ∈ s.discovered ++ s.ready.map G.target) :
    left inEdges s.examined v = ∅ := by
  rcases (h.mem v).mp hv with rfl | ⟨-, hleft⟩
  · unfold left
    rw [hroot, Finset.filter_empty]
  · exact hleft

/-- What leads to a vertex that is ready has been discovered. -/
theorem Inv.discovered_of_edgeStep (hG : G.Proper) (hin : InEdges G S inEdges)
    (h : Inv G inEdges r s) (hroot : inEdges r = ∅) (hpending : s.pending = none)
    {v w : V} (hw : w ∈ s.discovered ++ s.ready.map G.target)
    (hvw : EdgeStep G S v w) : v ∈ s.discovered := by
  obtain ⟨e, he, heS, htarget⟩ := hvw
  have hedges := h.edges
  rw [hpending, Option.getD_none, List.append_nil] at hedges
  have hexamined : e ∈ s.examined := by
    by_contra hnot
    have hmem : e ∈ left inEdges s.examined w :=
      Finset.mem_filter.mpr ⟨(hin.mem_iff w e).mpr ⟨heS, htarget, v, he⟩, hnot⟩
    rw [h.left_eq_empty hroot hw] at hmem
    exact Finset.notMem_empty e hmem
  rw [hedges] at hexamined
  obtain ⟨u, hu, heu⟩ := List.mem_flatMap.mp hexamined
  rw [hG.source_unique v u e he heu]
  exact hu

theorem Inv.discovered_of_transGen (hG : G.Proper) (hin : InEdges G S inEdges)
    (h : Inv G inEdges r s) (hroot : inEdges r = ∅) (hpending : s.pending = none)
    {v w : V} (hw : w ∈ s.discovered ++ s.ready.map G.target)
    (hvw : TransGen (EdgeStep G S) v w) : v ∈ s.discovered := by
  induction hvw using TransGen.head_induction_on with
  | single hstep => exact h.discovered_of_edgeStep hG hin hroot hpending hw hstep
  | head hstep _ ih =>
      exact h.discovered_of_edgeStep hG hin hroot hpending
        (List.mem_append_left _ ih) hstep

/-- As long as something that is reached is missing, something is ready. -/
theorem Inv.ready_ne_nil (hin : InEdges G S inEdges) (h : Inv G inEdges r s)
    (hpending : s.pending = none) {M : Finset V} (hrM : r ∈ M)
    (htarget : ∀ u ∈ M, ∀ e ∈ G.out u, G.target e ∈ M)
    (hacyclic : ∀ v, ¬ TransGen (EdgeStep G S) v v)
    (hbehind : ∀ u v, EdgeStep G S u v → ReflTransGen (EdgeStep G S) r u) {v : V}
    (hv : ReflTransGen (EdgeStep G S) r v) (hnot : v ∉ s.discovered) :
    s.ready ≠ [] :=
  fun hready => hnot
    (h.mem_discovered hin hpending hready hrM htarget hacyclic hbehind hv)

end CoFlo.Verified.KahnVisit
