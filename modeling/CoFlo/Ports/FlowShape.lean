import CoFlo.Ports.ConnectedFlow
import CoFlo.Ports.Connectedness

/-!
# The shape of the graph `FixupBackEdges` is given

`CreateControlFlowGraph` gives more than one out-edge to decision statements
only: whatever else has a fallthrough edge, or the jump of a goto, or the edge
of `AddImpossibleEdges`, and never two of these.  Nothing but its self edge
leads to ENTRY, and nothing but its self edge leads from EXIT.
-/

namespace CoFlo.Ports

namespace Heap

/-- A graph in which only decision statements branch. -/
structure FlowShape (k : Heap) (g : GraphPtr) (M : Set VertexPtr)
    (entry exit : VertexPtr) : Prop where
  consistent : k.Consistent
  encloses : k.Encloses g M
  vertices : ∀ v ∈ (k.graph g).vertices, v ∈ M
  entry_mem : entry ∈ (k.graph g).vertices
  exit_mem : exit ∈ (k.graph g).vertices
  entry_statement : (k.vertex entry).statement = .entry
  exit_statement : (k.vertex exit).statement = .exit
  enter : ∀ e, (k.edge e).target = entry → (k.edge e).source = entry
  leave : ∀ e, (k.edge e).source = exit → (k.edge e).target = exit
  outDegree_le : ∀ v ∈ M, v ≠ entry → v ≠ exit →
    (k.vertex v).statement.isDecisionStatement = false → k.outDegree v ≤ 1
  unmarked : ∀ e ∈ (k.graph g).edges, (k.edge e).isBackEdge = false

/-- What is replaced by a goto gets one out-edge. -/
theorem length_linkArcs_le {m : LabelMap} {st : Statement}
    (hst : ∀ new, linkedStatement m st = some new →
      new.isDecisionStatement = false) :
    (linkArcs m st).length ≤ 1 := by
  have hcase : ∀ name, (caseArcs m [name]).length ≤ 1 := by
    intro name
    rw [caseArcs, List.length_map]
    exact List.length_filterMap_le _ _
  cases st with
  | gotoUnlinked linkTargetName => exact hcase _
  | returnUnlinked returnVarName => exact hcase _
  | ifUnlinked condition ifTrue ifFalse =>
      cases htrue : m ifTrue <;> cases hfalse : m ifFalse <;>
        simp_all [linkArcs, linkedStatement, Statement.isDecisionStatement]
  | switchUnlinked caseList =>
      cases hlinked : linkedStatement m (.switchUnlinked caseList) with
      | none =>
          rw [linkArcs_eq_nil m hlinked]
          exact Nat.zero_le 1
      | some new =>
          have hnew := hst new hlinked
          simp only [linkedStatement] at hlinked
          split_ifs at hlinked
          rw [← Option.some.inj hlinked] at hnew
          exact absurd hnew (by decide)
  | _ => exact Nat.zero_le 1

end Heap

theorem immediatePredecessors_sublist (flow : VertexPtr → Bool)
    (chain : List VertexPtr) :
    ((leaderInfos flow chain).map (·.immediatePredecessor)).Sublist chain := by
  induction chain with
  | nil => exact List.Sublist.refl _
  | cons a rest ih =>
      cases rest with
      | nil => exact List.nil_sublist _
      | cons b rest =>
          rw [leaderInfos, List.map_append]
          split_ifs
          · exact ih.cons_cons a
          · exact ih.cons a

theorem source_mem_dropLast {flow : VertexPtr → Bool} {chain : List VertexPtr}
    {a : Arc} (ha : a ∈ fallthroughArcs flow chain) :
    a.source ∈ chain.dropLast := by
  induction chain with
  | nil => exact absurd ha List.not_mem_nil
  | cons v rest ih =>
      cases rest with
      | nil => exact absurd ha List.not_mem_nil
      | cons w rest =>
          simp only [fallthroughArcs, List.mem_append] at ha
          rw [List.dropLast_cons_cons]
          rcases ha with ha | ha
          · split_ifs at ha
            · exact absurd ha List.not_mem_nil
            · rw [List.mem_singleton.mp ha]
              exact List.mem_cons_self
          · exact List.mem_cons_of_mem _ (ih ha)

section list

variable {h : Heap} {this : FunctionPtr} {l : List VertexPtr}
  (hf : h.Fresh this l)

include hf

/-- Nothing jumps to ENTRY, and EXIT is the end. -/
theorem linkedArcs_ends {a : Arc} (ha : a ∈ h.linkedArcs l) :
    a.source ≠ h.exitPtr ∧ a.target ≠ h.entryPtr := by
  rcases List.mem_append.mp ha with ha | ha
  · have hsource := source_mem_dropLast ha
    have htarget := (mem_fallthroughArcs ha).2
    rw [List.dropLast_concat] at hsource
    constructor
    · intro heq
      rw [heq] at hsource
      rcases List.mem_cons.mp hsource with hentry | hmem
      · exact h.entryPtr_ne_exitPtr hentry.symm
      · exact hf.ne_exitPtr hmem rfl
    · intro heq
      rw [heq, List.cons_append, List.tail_cons, List.mem_append,
        List.mem_singleton] at htarget
      rcases htarget with hmem | hexit
      · exact hf.ne_entryPtr hmem rfl
      · exact h.entryPtr_ne_exitPtr hexit
  · obtain ⟨v, hv, hmem⟩ := List.mem_flatMap.mp ha
    simp only [Heap.jumpArcs, arcsFrom, List.mem_map] at hmem
    obtain ⟨arc, harc, rfl⟩ := hmem
    obtain ⟨name, hname⟩ := Heap.mem_linkArcs harc
    refine ⟨hf.ne_exitPtr (List.mem_of_mem_filter hv), ?_⟩
    dsimp only
    rcases Heap.labelMapOf_eq hname with ⟨hmem, _⟩ | ⟨hexit, _⟩
    · exact hf.ne_entryPtr hmem
    · rw [hexit]
      exact h.entryPtr_ne_exitPtr.symm

/-- Only decision statements have two ways to go on. -/
theorem countP_linkedArcs_le {v : VertexPtr} (hv : v ∈ h.originals l)
    (hdecision : (h.linkedStatementOf l v).isDecisionStatement = false) :
    (h.linkedArcs l).countP (·.source = v) ≤ 1 := by
  have hchain : v = h.exitPtr ∨ ∃ i w,
      (h.entryPtr :: l ++ [h.exitPtr])[i]? = some v ∧
        (h.entryPtr :: l ++ [h.exitPtr])[i + 1]? = some w := by
    have hnext : ∀ i, i < (h.entryPtr :: l).length →
        ∃ w, (h.entryPtr :: l ++ [h.exitPtr])[i + 1]? = some w := by
      intro i hi
      rw [← Option.isSome_iff_exists, isSome_getElem?]
      simpa using hi
    rcases Heap.mem_originals.mp hv with rfl | rfl | hv
    · obtain ⟨w, hw⟩ := hnext 0 (Nat.zero_lt_succ _)
      exact .inr ⟨0, w, rfl, hw⟩
    · exact .inl rfl
    · obtain ⟨i, hi⟩ := List.getElem?_of_mem (List.mem_cons_of_mem h.entryPtr hv)
      have hlt := (List.getElem?_eq_some_iff.mp hi).1
      obtain ⟨w, hw⟩ := hnext i hlt
      exact .inr ⟨i, w, by rw [List.getElem?_append_left hlt, hi], hw⟩
  rcases hchain with rfl | ⟨i, w, hi, hw⟩
  · have hzero : (h.linkedArcs l).countP (·.source = h.exitPtr) = 0 := by
      rw [List.countP_eq_zero]
      intro a ha
      rw [decide_eq_true_iff]
      exact (linkedArcs_ends hf ha).1
    rw [hzero]
    exact Nat.zero_le 1
  · rw [List.countP_eq_length_filter, Heap.linkedArcs,
      flowArcs_filter_of_getElem? hf hi hw]
    split_ifs with hends hmem
    · rw [Heap.jumpArcs, arcsFrom, List.length_map]
      refine Heap.length_linkArcs_le fun new hnew => ?_
      have hreplacement : h.replacement l v = some new := hnew
      rwa [Heap.linkedStatementOf, hreplacement] at hdecision
    · exact Nat.zero_le 1
    · exact Nat.le_refl 1

/-- A statement that ends its basic block goes on where it jumps to. -/
theorem linkedArcs_filter_of_endsBasicBlock {v : VertexPtr} (hv : v ∈ l)
    (hends : h.endsBasicBlock v = true) :
    (h.linkedArcs l).filter (·.source = v) = h.jumpArcs l v := by
  obtain ⟨i, hi⟩ := List.getElem?_of_mem (List.mem_cons_of_mem h.entryPtr hv)
  have hlt := (List.getElem?_eq_some_iff.mp hi).1
  obtain ⟨w, hw⟩ : ∃ w, (h.entryPtr :: l ++ [h.exitPtr])[i + 1]? = some w := by
    rw [← Option.isSome_iff_exists, isSome_getElem?]
    simpa using hlt
  have hi' : (h.entryPtr :: l ++ [h.exitPtr])[i]? = some v := by
    rw [List.getElem?_append_left hlt, hi]
  rw [Heap.linkedArcs, flowArcs_filter_of_getElem? hf hi' hw, if_pos hends,
    if_pos hv]

/-- A statement that ends its basic block and is not replaced has nowhere to
go on. -/
theorem countP_linkedArcs_eq_zero {v : VertexPtr} (hv : v ∈ l)
    (hends : h.endsBasicBlock v = true) (hnone : h.replacement l v = none) :
    (h.linkedArcs l).countP (·.source = v) = 0 := by
  rw [List.countP_eq_length_filter,
    linkedArcs_filter_of_endsBasicBlock hf hv hends, Heap.jumpArcs,
    Heap.linkArcs_eq_nil _ hnone]
  rfl

/-- `AddImpossibleEdges` adds one edge at most after each statement. -/
theorem countP_impossibleArcs_le (v : VertexPtr) :
    (h.impossibleArcs l).countP (·.source = v) ≤ 1 := by
  have hnodup : (h.entryPtr :: l).Nodup :=
    List.nodup_cons.mpr ⟨fun hmem => hf.ne_entryPtr hmem rfl, hf.nodup⟩
  have hcount := List.nodup_iff_count_le_one.mp
    ((immediatePredecessors_sublist h.endsBasicBlock _).nodup hnodup) v
  refine Nat.le_trans ?_ hcount
  rw [Heap.impossibleArcs, List.countP_map, List.count, List.countP_map]
  refine Nat.le_trans (List.filter_sublist.countP_le) (Nat.le_of_eq ?_)
  refine List.countP_congr fun p _ => ?_
  simp [BasicBlockLeaderInfo.arc]

end list

namespace FlowConnected

variable {h k : Heap} {this : FunctionPtr} {l : List VertexPtr}
  {ρ : VertexPtr → VertexPtr} (hf : h.Fresh this l)
  (hk : FlowConnected h this l ρ k)

include hf hk

theorem outDegree_le {v : VertexPtr} (hv : v ∈ h.owned l)
    (hentry : v ≠ h.entryPtr) (hexit : v ≠ h.exitPtr)
    (hdecision : (k.vertex v).statement.isDecisionStatement = false) :
    k.outDegree v ≤ 1 := by
  have hself : h.selfArcs.countP (·.source = v) = 0 := by
    simp [Heap.selfArcs, hentry.symm, hexit.symm]
  rw [← Heap.card_outArcs, hk.consistent.outArcs_eq hk.encloses
    (hf.ne_null_of_owned hv) hv, Multiset.card_map,
    ← Multiset.countP_eq_card_filter, hk.arcs, Multiset.coe_countP,
    List.countP_append, List.countP_append, List.countP_map, hself,
    Nat.add_zero]
  have himpossible := countP_impossibleArcs_le hf v
  by_cases hx : ∃ x ∈ h.originals l, ρ x = v
  · obtain ⟨x, hx, rfl⟩ := hx
    have hlinked : (h.linkedArcs l).countP
        ((fun a => decide (a.source = ρ x)) ∘ Arc.map ρ) =
          (h.linkedArcs l).countP (·.source = x) := by
      refine List.countP_congr fun a ha => ?_
      rw [Function.comp_apply, decide_eq_true_iff, decide_eq_true_iff]
      exact hk.injOn.eq_iff (linkedArcs_mem ha).1 hx
    rw [hlinked]
    by_cases hnone : (h.impossibleArcs l).countP (·.source = ρ x) = 0
    · rw [hnone, Nat.add_zero]
      rw [hk.statement_map hf hx] at hdecision
      exact countP_linkedArcs_le hf hx hdecision
    · -- A recorded predecessor that is in the graph has not been replaced.
      obtain ⟨a, ha, hsource⟩ : ∃ a ∈ h.impossibleArcs l, a.source = ρ x := by
        rw [List.countP_eq_zero] at hnone
        push Not at hnone
        simpa using hnone
      obtain ⟨p, hp, rfl⟩ := List.mem_map.mp ha
      obtain ⟨hmem, hends⟩ :=
        immediatePredecessor_mem (List.mem_of_mem_filter hp)
      have hpx : p.immediatePredecessor = ρ x := hsource
      have hreplacement := (hk.mem_vertices_iff hf hmem).mp
        (hpx ▸ hk.mem_vertices_map hx)
      obtain rfl : p.immediatePredecessor = x := by
        refine hk.injOn (Heap.mem_originals.mpr (.inr (.inr hmem))) hx ?_
        rw [hk.kept _ fun _ => hreplacement, hpx]
      rw [countP_linkedArcs_eq_zero hf hmem hends hreplacement, Nat.zero_add]
      exact himpossible
  · have hlinked : (h.linkedArcs l).countP
        ((fun a => decide (a.source = v)) ∘ Arc.map ρ) = 0 := by
      rw [List.countP_eq_zero]
      intro a ha
      rw [Function.comp_apply, decide_eq_true_iff]
      exact fun heq => hx ⟨_, (linkedArcs_mem ha).1, heq⟩
    rw [hlinked, Nat.zero_add]
    exact himpossible

/-- The ends of an edge are those of an arc of the list, or it is a self
edge. -/
theorem arc_ends {e : EdgePtr}
    (he : e ∈ (k.graph (h.function this).theCfg).edges) :
    ((k.edge e).source ≠ h.exitPtr ∧ (k.edge e).target ≠ h.entryPtr) ∨
      (k.edge e).source = (k.edge e).target := by
  have hmem : k.arc e ∈ k.arcs (h.function this).theCfg :=
    Multiset.mem_map_of_mem _ he
  have hentry := hk.map_entryPtr hf
  have hexit := hk.map_exitPtr hf
  rw [hk.arcs, Multiset.mem_coe, List.mem_append, List.mem_append,
    List.mem_map] at hmem
  rcases hmem with (⟨a, ha, heq⟩ | ha) | ha
  · rw [Heap.arc, Arc.map, Arc.mk.injEq] at heq
    obtain ⟨hsource, htarget⟩ := linkedArcs_ends hf ha
    obtain ⟨hsourceMem, htargetMem⟩ := linkedArcs_mem ha
    left
    rw [← heq.1, ← heq.2.2]
    constructor
    · intro hcon
      exact hsource (hk.injOn hsourceMem
        (Heap.mem_originals.mpr (.inr (.inl rfl))) (hcon.trans hexit.symm))
    · intro hcon
      exact htarget (hk.injOn htargetMem
        (Heap.mem_originals.mpr (.inl rfl)) (hcon.trans hentry.symm))
  · obtain ⟨hsource, htarget⟩ := impossibleArcs_mem ha
    exact .inl ⟨hf.ne_exitPtr hsource, hf.ne_entryPtr htarget⟩
  · right
    rcases List.mem_cons.mp ha with heq | ha
    · rw [Heap.arc, Arc.mk.injEq] at heq
      rw [heq.1, heq.2.2]
    · have heq := List.mem_singleton.mp ha
      rw [Heap.arc, Arc.mk.injEq] at heq
      rw [heq.1, heq.2.2]

theorem flowShape :
    k.FlowShape (h.function this).theCfg (h.owned l) h.entryPtr h.exitPtr where
  consistent := hk.consistent
  encloses := hk.encloses
  vertices v hv := hk.vertices_subset hf (Finset.mem_coe.mpr hv)
  entry_mem := hk.entryPtr_mem hf
  exit_mem := hk.exitPtr_mem hf
  entry_statement := by
    rw [hk.statement_old _ (hf.lt_of_mem_originals
      (Heap.mem_originals.mpr (.inl rfl))), Heap.statementOf_entryPtr]
  exit_statement := by
    rw [hk.statement_old _ (hf.lt_of_mem_originals
      (Heap.mem_originals.mpr (.inr (.inl rfl)))), Heap.statementOf_exitPtr]
  enter e he := by
    have hmem := (hk.encloses.mem_edges_target e).mpr
      (he ▸ .inr (Nat.le_refl _))
    rcases hk.arc_ends hf hmem with ⟨_, htarget⟩ | heq
    · exact absurd he htarget
    · exact heq.trans he
  leave e he := by
    have hmem := (hk.encloses.mem_edges_source e).mpr
      (he ▸ .inr (Nat.le_succ _))
    rcases hk.arc_ends hf hmem with ⟨hsource, _⟩ | heq
    · exact absurd he hsource
    · exact heq.symm.trans he
  outDegree_le v hv hentry hexit hdecision :=
    hk.outDegree_le hf hv hentry hexit hdecision
  unmarked := hk.unmarked

end FlowConnected

end CoFlo.Ports
