import CoFlo.Ports.MarkBackEdges

/-!
# What `FixupBackEdges` does, in terms of search paths

The predecessor map of the visitor follows the tree path of the search, so the
vertex `FindForwardTargetForBackEdge` finds is a matter of the search path of
the source of the back edge: go back along it to the target, and stop at the
first decision statement (`Heap.wayOut`).  This turns `FixupBackEdges` into a
statement about the graph it is given, without a run in it: an edge is marked
exactly when it is a back edge of the search, and a proxy edge is added for
exactly the pairs in `Heap.Proxy`.
-/

namespace CoFlo.Ports

open CoFlo.Verified CoFlo.Verified.DepthFirstSearch

namespace Heap

/-! ## The heap as a graph to search -/

section incidence

variable {h : Heap} (hc : h.Consistent) (order : IterationOrder)

include hc

theorem Consistent.mem_incidence_out (v : VertexPtr) (e : EdgePtr) :
    e ∈ (h.incidence order).out v ↔ (h.edge e).source = v ∧ v ≠ null := by
  rw [incidence, SetOrder.mem_enum, hc.mem_outEdges]

theorem Consistent.incidence_proper : (h.incidence order).Proper where
  nodup _ := order.outEdges.nodup_enum _
  source_unique u v e hu hv := by
    rw [hc.mem_incidence_out] at hu hv
    rw [← hu.1, hv.1]

theorem Consistent.searchUniverse (roots : List VertexPtr) :
    Universe (h.incidence order) (h.searchUniverse roots) roots where
  roots_mem _ hr :=
    Finset.mem_union_left _ (List.mem_toFinset.mpr hr)
  target_mem _ _ e _ :=
    Finset.mem_union_right _ (Finset.mem_range.mpr (hc.target_lt e))

/-- The search comes to its end. -/
theorem Consistent.depthFirstSearch_finished (roots : List VertexPtr) :
    (h.depthFirstSearch order roots).stack = [] ∧
      (h.depthFirstSearch order roots).roots = [] :=
  eq_nil_of_step_eq_none
    (step_run_eq_none (hc.searchUniverse order roots) (Nat.le_refl _))

omit hc in
theorem reaches_depthFirstSearch (h : Heap) (roots : List VertexPtr) :
    StepMachine.Reaches (step (h.incidence order)) (init roots)
      (h.depthFirstSearch order roots) :=
  StepMachine.reaches_run _ _

/-- A walk that takes a step stays below `nextVertex`. -/
theorem Consistent.walkVertices_lt {r u : VertexPtr} {p : List EdgePtr}
    (hwalk : IsWalk (h.incidence order) r p u) (hp : p ≠ []) :
    ∀ v ∈ walkVertices (h.incidence order) r p, v < h.nextVertex := by
  intro v hv
  obtain ⟨e, p, rfl⟩ := List.exists_cons_of_ne_nil hp
  rcases List.mem_cons.mp hv with rfl | hv
  · rw [← ((hc.mem_incidence_out order _ e).mp hwalk.1).1]
    exact hc.source_lt e
  · obtain ⟨d, _, rfl⟩ := List.mem_map.mp hv
    exact hc.target_lt d

end incidence

/-! ## The way out of a loop -/

section wayOut

variable (h : Heap) (order : IterationOrder)

/-- Backwards along a tree path, from its last edge on, to the first decision
statement; `v` is where to give up. -/
def wayOut (v : VertexPtr) : List EdgePtr → Except Fault VertexPtr
  | [] => .ok null
  | e :: up =>
      if (h.vertex (h.edge e).source).statement.isDecisionStatement then
        (h.findDifferentOutEdge order e).map fun other => (h.edge other).target
      else if (h.edge e).source = v then
        .ok null
      else
        wayOut v up

/-- What the visitor finds for the back edge `e`. -/
def ForwardTarget (roots : List VertexPtr) (e : EdgePtr)
    (result : Except Fault VertexPtr) : Prop :=
  ∃ r p, SearchPath (h.incidence order) roots r p (h.edge e).source ∧
    result =
      if (h.edge e).source = (h.edge e).target then .ok null
      else h.wayOut order (h.edge e).target p.reverse

/-- `s` gets a proxy edge to `t`: its only out-edge is a back edge of the
search, and `t` is the way out of that loop. -/
def Proxy (roots : List VertexPtr) (s t : VertexPtr) : Prop :=
  t ≠ null ∧ ∃ e, (h.vertex s).outEdges = {e} ∧
    IsBackEdge (h.incidence order) roots e ∧
      h.ForwardTarget order roots e (.ok t)

/-- Some decision statement on the way out of a loop has one out-edge only. -/
def NoWayOut (roots : List VertexPtr) : Prop :=
  ∃ e, IsBackEdge (h.incidence order) roots e ∧
    h.ForwardTarget order roots e (.error .endDereference)

variable {h order}

theorem ForwardTarget.unique {roots : List VertexPtr} {e : EdgePtr}
    {x y : Except Fault VertexPtr} (hx : h.ForwardTarget order roots e x)
    (hy : h.ForwardTarget order roots e y) : x = y := by
  obtain ⟨r, p, hp, rfl⟩ := hx
  obtain ⟨r', p', hp', rfl⟩ := hy
  obtain ⟨rfl, rfl⟩ := hp.unique hp'
  rfl

theorem findDifferentOutEdge_eq_ok {e d : EdgePtr}
    (hd : h.findDifferentOutEdge order e = .ok d) :
    d ∈ (h.vertex (h.edge e).source).outEdges ∧ d ≠ e := by
  unfold findDifferentOutEdge at hd
  split at hd
  · rename_i other hfind
    obtain rfl : other = d := by simpa using hd
    exact ⟨by simpa using List.mem_of_find?_eq_some hfind,
      by simpa using List.find?_some hfind⟩
  · exact absurd hd (by simp)

theorem findDifferentOutEdge_eq_error {e : EdgePtr} {fault : Fault}
    (hf : h.findDifferentOutEdge order e = .error fault) :
    fault = .endDereference := by
  unfold findDifferentOutEdge at hf
  split at hf
  · exact absurd hf (by simp)
  · simpa using hf.symm

/-- The way out is `null` or the target of an edge of the path's graph. -/
theorem Consistent.wayOut_lt (hc : h.Consistent) {v t : VertexPtr}
    {up : List EdgePtr} (ht : h.wayOut order v up = .ok t) :
    t < h.nextVertex := by
  induction up with
  | nil =>
      obtain rfl : null = t := by simpa [wayOut] using ht
      exact hc.null_lt_nextVertex
  | cons e up ih =>
      simp only [wayOut] at ht
      split_ifs at ht
      · cases hd : h.findDifferentOutEdge order e with
        | error fault => simp [hd, Except.map] at ht
        | ok d =>
            obtain rfl : (h.edge d).target = t := by
              simpa [hd, Except.map] using ht
            exact hc.target_lt d
      · obtain rfl : null = t := by simpa using ht
        exact hc.null_lt_nextVertex
      · exact ih ht

/-- A way out is the target of another edge of a decision statement on the
path. -/
theorem wayOut_eq_ok {v t : VertexPtr} {up : List EdgePtr}
    (ht : h.wayOut order v up = .ok t) (ht0 : t ≠ null) :
    ∃ e ∈ up, (h.vertex (h.edge e).source).statement.isDecisionStatement = true ∧
      ∃ d ∈ (h.vertex (h.edge e).source).outEdges, (h.edge d).target = t := by
  induction up with
  | nil =>
      simp only [wayOut, Except.ok.injEq] at ht
      exact absurd ht.symm ht0
  | cons e up ih =>
      simp only [wayOut] at ht
      split_ifs at ht with hdecision hv
      · refine ⟨e, List.mem_cons_self, hdecision, ?_⟩
        cases hd : h.findDifferentOutEdge order e with
        | error fault => simp [hd, Except.map] at ht
        | ok d =>
            refine ⟨d, (findDifferentOutEdge_eq_ok hd).1, ?_⟩
            simpa [hd, Except.map] using ht
      · simp only [Except.ok.injEq] at ht
        exact absurd ht.symm ht0
      · obtain ⟨d, hd, hrest⟩ := ih ht
        exact ⟨d, List.mem_cons_of_mem _ hd, hrest⟩

theorem wayOut_eq_error {v : VertexPtr} {up : List EdgePtr} {fault : Fault}
    (hf : h.wayOut order v up = .error fault) : fault = .endDereference := by
  induction up with
  | nil => exact absurd hf (by simp [wayOut])
  | cons e up ih =>
      simp only [wayOut] at hf
      split_ifs at hf
      · cases hd : h.findDifferentOutEdge order e with
        | error fault' =>
            rw [findDifferentOutEdge_eq_error hd] at hd
            simpa [hd, Except.map] using hf.symm
        | ok d => simp [hd, Except.map] at hf
      · exact ih hf

theorem ForwardTarget.error_eq {roots : List VertexPtr} {e : EdgePtr}
    {fault : Fault} (h' : h.ForwardTarget order roots e (.error fault)) :
    fault = .endDereference := by
  obtain ⟨r, p, _, hres⟩ := h'
  split_ifs at hres
  exact wayOut_eq_error hres.symm

theorem ForwardTarget.lt_nextVertex (hc : h.Consistent)
    {roots : List VertexPtr} {e : EdgePtr} {t : VertexPtr}
    (ht : h.ForwardTarget order roots e (.ok t)) : t < h.nextVertex := by
  obtain ⟨r, p, _, hres⟩ := ht
  split_ifs at hres
  · obtain rfl : t = null := by simpa using hres
    exact hc.null_lt_nextVertex
  · exact hc.wayOut_lt hres.symm

/-- The loop of `FindForwardTargetForBackEdge` walks back along the tree
path, as long as the predecessor map knows it. -/
theorem Consistent.findForwardTarget_eq (hc : h.Consistent)
    {predecessorMap : VertexPtr → EdgePtr} {r v : VertexPtr} {fuel : Nat}
    {u : VertexPtr} {p : List EdgePtr}
    (hwalk : IsWalk (h.incidence order) r p u)
    (hpred : ∀ d ∈ p, predecessorMap (h.edge d).target = d)
    (hv : v ∈ walkVertices (h.incidence order) r p) (hne : v ≠ u)
    (hfuel : p.length ≤ fuel) :
    h.findForwardTarget order predecessorMap v fuel u =
      h.wayOut order v p.reverse := by
  induction fuel generalizing u p with
  | zero =>
      obtain rfl := List.length_eq_zero_iff.mp (Nat.le_zero.mp hfuel)
      have hru : r = u := hwalk
      exact absurd (hru ▸ List.mem_singleton.mp hv) hne
  | succ fuel ih =>
      rcases List.eq_nil_or_concat' p with rfl | ⟨up, d, rfl⟩
      · have hru : r = u := hwalk
        exact absurd (hru ▸ List.mem_singleton.mp hv) hne
      · obtain ⟨w, hup, hd, hdu⟩ := isWalk_append_iff.mp hwalk
        obtain rfl : (h.edge d).target = u := hdu
        obtain ⟨hsource, hw⟩ := (hc.mem_incidence_out order w d).mp hd
        have hd0 : d ≠ null := (hc.allocated d (hsource ▸ hw)).1
        rw [findForwardTarget, hpred d (by simp)]
        simp only [hd0, if_false, hsource, List.reverse_append,
          List.reverse_cons, List.reverse_nil, List.nil_append,
          List.singleton_append, wayOut]
        by_cases hdecision :
            (h.vertex w).statement.isDecisionStatement = true
        · simp only [hdecision, if_true]
          cases h.findDifferentOutEdge order d <;> rfl
        · by_cases hwv : w = v
          · rw [if_neg hdecision, if_neg hdecision, if_neg (not_not.mpr hwv),
              if_pos hwv]
          · rw [walkVertices_append, List.mem_append] at hv
            have hv' : v ∈ walkVertices (h.incidence order) r up := by
              refine hv.resolve_right fun hmem => hne ?_
              simpa [incidence] using hmem
            simp only [hdecision, hwv, if_false, ne_eq, not_false_iff, if_true,
              Bool.false_eq_true]
            refine ih hup (fun d' hd' => hpred d' (by simp [hd'])) hv'
              (fun heq => hwv heq.symm) ?_
            simpa using hfuel

end wayOut

/-! ## The visitor along the search -/

section visitor

variable {h : Heap} {order : IterationOrder} {roots : List VertexPtr}

/-- What the visitor has collected along a trace of the search. -/
structure Collected (h : Heap) (order : IterationOrder)
    (roots : List VertexPtr) (trace : List (Event VertexPtr EdgePtr))
    (visitor : BackEdgeFixupVisitor) : Prop where
  predecessorMap : ∀ e, .treeEdge e ∈ trace →
    visitor.predecessorMap (h.edge e).target = e
  mem : ∀ i ∈ visitor.backEdges, .backEdge i.backEdge ∈ trace ∧
    h.ForwardTarget order roots i.backEdge (.ok i.impossibleTargetVertex)
  all : ∀ e, .backEdge e ∈ trace → ∃ i ∈ visitor.backEdges, i.backEdge = e

/-- The visitor has come along, or it has gone wrong on the way. -/
def Visited (h : Heap) (order : IterationOrder) (roots : List VertexPtr)
    (trace : List (Event VertexPtr EdgePtr)) : Prop :=
  (∃ visitor, trace.foldlM (BackEdgeFixupVisitor.visit h order) .initial =
      .ok visitor ∧ Collected h order roots trace visitor) ∨
    (∃ e, .backEdge e ∈ trace ∧
      h.ForwardTarget order roots e (.error .endDereference)) ∧
      trace.foldlM (BackEdgeFixupVisitor.visit h order) .initial =
        .error .endDereference

/-- One more event, which the visitor takes in its stride. -/
theorem Visited.append {s t : State VertexPtr EdgePtr}
    (hs : Visited h order roots s.trace) {ev : Event VertexPtr EdgePtr}
    (htrace : t.trace = s.trace ++ [ev])
    (hev : ∀ visitor, Collected h order roots s.trace visitor →
      (∃ visitor', visitor.visit h order ev = .ok visitor' ∧
        Collected h order roots t.trace visitor') ∨
      (∃ e, ev = .backEdge e ∧
        h.ForwardTarget order roots e (.error .endDereference)) ∧
        visitor.visit h order ev = .error .endDereference) :
    Visited h order roots t.trace := by
  have hmem : ∀ d, d ∈ s.trace → d ∈ t.trace := fun d hd => by
    rw [htrace]
    exact List.mem_append_left _ hd
  rcases hs with ⟨visitor, hfold, hcollected⟩ | ⟨⟨e, he, hfault⟩, hfold⟩
  · rcases hev visitor hcollected with
      ⟨visitor', hvisit, hcollected'⟩ | ⟨⟨e, rfl, hfault⟩, hvisit⟩
    · refine .inl ⟨visitor', ?_, hcollected'⟩
      rw [htrace, FoldInvariant.foldlM_append_singleton _ hfold, hvisit]
    · refine .inr ⟨⟨e, by rw [htrace]; simp, hfault⟩, ?_⟩
      rw [htrace, FoldInvariant.foldlM_append_singleton _ hfold, hvisit]
  · refine .inr ⟨⟨e, hmem _ he, hfault⟩, ?_⟩
    rw [htrace, FoldInvariant.foldlM_append_of_error _ hfold]

/-- A tree edge leads to an undiscovered vertex, so the map keeps what it
knows. -/
theorem Collected.treeEdge {s t : State VertexPtr EdgePtr}
    {visitor : BackEdgeFixupVisitor} (hs : Collected h order roots s.trace visitor)
    {e : EdgePtr} (htrace : t.trace = s.trace ++ [.treeEdge e])
    (hfresh : ∀ d, .treeEdge d ∈ s.trace →
      (h.edge d).target ≠ (h.edge e).target) :
    Collected h order roots t.trace (visitor.treeEdge h e) where
  predecessorMap d hd := by
    rw [htrace, List.mem_append, List.mem_singleton] at hd
    rcases hd with hd | hd
    · dsimp only [BackEdgeFixupVisitor.treeEdge]
      rw [Function.update_of_ne (hfresh d hd)]
      exact hs.predecessorMap d hd
    · obtain rfl : d = e := by simpa using hd
      exact Function.update_self ..
  mem i hi := by
    obtain ⟨hmem, htarget⟩ := hs.mem i hi
    exact ⟨htrace ▸ List.mem_append_left _ hmem, htarget⟩
  all d hd := hs.all d (by simpa [htrace] using hd)

/-- An event that is none of the visitor's business. -/
theorem Collected.other {s t : State VertexPtr EdgePtr}
    {visitor : BackEdgeFixupVisitor} (hs : Collected h order roots s.trace visitor)
    {ev : Event VertexPtr EdgePtr} (htrace : t.trace = s.trace ++ [ev])
    (htree : ∀ e, ev ≠ .treeEdge e) (hback : ∀ e, ev ≠ .backEdge e) :
    Collected h order roots t.trace visitor where
  predecessorMap d hd := hs.predecessorMap d (by
    rw [htrace, List.mem_append, List.mem_singleton] at hd
    exact hd.resolve_right fun heq => htree d heq.symm)
  mem i hi := by
    obtain ⟨hmem, htarget⟩ := hs.mem i hi
    exact ⟨htrace ▸ List.mem_append_left _ hmem, htarget⟩
  all d hd := hs.all d (by
    rw [htrace, List.mem_append, List.mem_singleton] at hd
    exact hd.resolve_right fun heq => hback d heq.symm)

theorem Collected.backEdge {s t : State VertexPtr EdgePtr}
    {visitor : BackEdgeFixupVisitor} (hs : Collected h order roots s.trace visitor)
    {e : EdgePtr} {x : VertexPtr} (htrace : t.trace = s.trace ++ [.backEdge e])
    (hx : h.ForwardTarget order roots e (.ok x)) :
    Collected h order roots t.trace
      { visitor with backEdges := visitor.backEdges ++ [⟨e, x⟩] } where
  predecessorMap d hd := hs.predecessorMap d (by simpa [htrace] using hd)
  mem i hi := by
    rw [htrace, List.mem_append]
    rcases List.mem_append.mp hi with hi | hi
    · exact ⟨.inl (hs.mem i hi).1, (hs.mem i hi).2⟩
    · rw [List.mem_singleton.mp hi]
      exact ⟨.inr List.mem_cons_self, hx⟩
  all d hd := by
    rw [htrace, List.mem_append, List.mem_singleton] at hd
    rcases hd with hd | hd
    · obtain ⟨i, hi, hid⟩ := hs.all d hd
      exact ⟨i, List.mem_append_left _ hi, hid⟩
    · obtain rfl : d = e := by simpa using hd
      exact ⟨⟨d, x⟩, by simp, rfl⟩

/-- At a back edge the predecessor map knows the whole tree path. -/
theorem Collected.findForwardTarget (hc : h.Consistent)
    {s : State VertexPtr EdgePtr} (hinv : Inv (h.incidence order) roots s)
    {visitor : BackEdgeFixupVisitor} (hs : Collected h order roots s.trace visitor)
    {u : VertexPtr} {e : EdgePtr} {rem : List EdgePtr}
    {rest : List (VertexPtr × List EdgePtr)}
    (hstack : s.stack = (u, e :: rem) :: rest)
    (hcolor : s.color (h.edge e).target = .gray) :
    h.ForwardTarget order roots e (visitor.impossibleTarget h order e) := by
  obtain ⟨done, hout, _⟩ := hinv.top u (e :: rem) rest hstack
  have heout : e ∈ (h.incidence order).out u := by simp [hout]
  obtain ⟨hsource, hu⟩ := (hc.mem_incidence_out order u e).mp heout
  obtain ⟨r, p, hpath, hvertices, htree⟩ :=
    hinv.searchPath_top (hc.incidence_proper order) hstack
  have hmem : (h.edge e).target ∈ walkVertices (h.incidence order) r p := by
    rw [hvertices, List.mem_reverse, ← hinv.gray_iff]
    exact hcolor
  refine ⟨r, p, hsource.symm ▸ hpath, ?_⟩
  rw [BackEdgeFixupVisitor.impossibleTarget]
  split_ifs with hself
  · rfl
  · have hne : (h.edge e).target ≠ u := fun heq => hself (hsource.trans heq.symm)
    obtain ⟨_, _, _, _, ⟨hwalk, hnodup⟩, _⟩ := id hpath
    rw [hsource]
    refine hc.findForwardTarget_eq hwalk
      (fun d hd => hs.predecessorMap d (htree d hd)) hmem hne ?_
    have hp : p ≠ [] := by
      rintro rfl
      have hru : r = u := hwalk
      exact hne (hru ▸ List.mem_singleton.mp hmem)
    -- A simple walk is not longer than there are vertices.
    have hlen : (walkVertices (h.incidence order) r p).length ≤ h.nextVertex := by
      rw [← List.toFinset_card_of_nodup hnodup, ← Finset.card_range h.nextVertex]
      refine Finset.card_le_card fun v hv => Finset.mem_range.mpr ?_
      exact hc.walkVertices_lt order hwalk hp v (List.mem_toFinset.mp hv)
    simp only [walkVertices, List.length_cons, List.length_map] at hlen
    omega

theorem Collected.visit_backEdge (hc : h.Consistent)
    {s t : State VertexPtr EdgePtr} (hinv : Inv (h.incidence order) roots s)
    {visitor : BackEdgeFixupVisitor} (hs : Collected h order roots s.trace visitor)
    {u : VertexPtr} {e : EdgePtr} {rem : List EdgePtr}
    {rest : List (VertexPtr × List EdgePtr)}
    (hstack : s.stack = (u, e :: rem) :: rest)
    (hcolor : s.color (h.edge e).target = .gray)
    (htrace : t.trace = s.trace ++ [.backEdge e]) :
    (∃ visitor', visitor.visit h order (.backEdge e) = .ok visitor' ∧
      Collected h order roots t.trace visitor') ∨
    (∃ d, (Event.backEdge e : Event VertexPtr EdgePtr) = .backEdge d ∧
      h.ForwardTarget order roots d (.error .endDereference)) ∧
      visitor.visit h order (.backEdge e) = .error .endDereference := by
  have htarget := hs.findForwardTarget hc hinv hstack hcolor
  simp only [BackEdgeFixupVisitor.visit, BackEdgeFixupVisitor.backEdge]
  cases hres : visitor.impossibleTarget h order e with
  | ok x => exact .inl ⟨_, rfl, hs.backEdge htrace (hres ▸ htarget)⟩
  | error fault =>
      rw [hres] at htarget
      obtain rfl := htarget.error_eq
      exact .inr ⟨⟨e, rfl, htarget⟩, rfl⟩

/-- The visitor keeps up with the search. -/
theorem Visited.of_reaches (hc : h.Consistent) {s : State VertexPtr EdgePtr}
    (hs : StepMachine.Reaches (step (h.incidence order)) (init roots) s) :
    Visited h order roots s.trace ∧
      ∀ e, .treeEdge e ∈ s.trace → s.color (h.edge e).target ≠ .white := by
  have hinitial : Collected h order roots [] .initial :=
    ⟨fun e he => absurd he List.not_mem_nil, fun i hi =>
      absurd hi List.not_mem_nil, fun e he => absurd he List.not_mem_nil⟩
  refine hs.invariant_of_reaches (P := fun s => Visited h order roots s.trace ∧
    ∀ e, .treeEdge e ∈ s.trace → s.color (h.edge e).target ≠ .white)
    (fun s t hreach hs hstep => ?_)
    ⟨.inl ⟨_, rfl, hinitial⟩, fun e he => absurd he List.not_mem_nil⟩
  have hinv := Inv.of_reaches (hc.incidence_proper order) hreach
  have hgrows := (Step.of_step hstep).grows
  obtain ⟨hvisited, hdiscovered⟩ := hs
  cases Step.of_step hstep with
  | @treeEdge u e rem rest hstack hcolor =>
      refine ⟨Visited.append (s := s) hvisited rfl fun visitor hcollected => .inl ⟨_, rfl,
        hcollected.treeEdge rfl fun d hd heq => ?_⟩, fun d hd => ?_⟩
      · exact hdiscovered d hd (heq ▸ hcolor)
      · rcases List.mem_append.mp hd with hd | hd
        · exact hgrows.discovered _ (hdiscovered d hd)
        · obtain rfl : d = e := by simpa using hd
          simp [incidence]
  | @backEdge u e rem rest hstack hcolor =>
      refine ⟨Visited.append (s := s) hvisited rfl fun visitor hcollected =>
        hcollected.visit_backEdge hc hinv hstack hcolor rfl,
        fun d hd => hdiscovered d ?_⟩
      simpa using hd
  | @forwardOrCrossEdge u e rem rest hstack hcolor =>
      refine ⟨Visited.append (s := s) hvisited rfl fun visitor hcollected => .inl ⟨_, rfl,
        hcollected.other rfl (by simp) (by simp)⟩, fun d hd => hdiscovered d ?_⟩
      simpa using hd
  | @finishVertex u rest hstack =>
      refine ⟨Visited.append (s := s) hvisited rfl fun visitor hcollected => .inl ⟨_, rfl,
        hcollected.other rfl (by simp) (by simp)⟩, fun d hd => ?_⟩
      exact hgrows.discovered _ (hdiscovered d (by simpa using hd))
  | @startRoot r rs hstack hroots hcolor =>
      exact ⟨hvisited, fun d hd => hgrows.discovered _ (hdiscovered d hd)⟩
  | @skipRoot r rs hstack hroots hcolor => exact ⟨hvisited, hdiscovered⟩

end visitor

/-! ## `FixupBackEdges` as a whole -/

/-- What `FixupBackEdges` has done to the heap `h`, when it has not gone
wrong. -/
structure FixedUp (h : Heap) (order : IterationOrder) (g : GraphPtr)
    (roots : List VertexPtr) (h' : Heap) : Prop where
  consistent : h'.Consistent
  vertex : ∀ v, ∃ outEdges inEdges,
    h'.vertex v = { h.vertex v with outEdges, inEdges }
  function : h'.function = h.function
  vertices : ∀ k, (h'.graph k).vertices = (h.graph k).vertices
  nextVertex : h'.nextVertex = h.nextVertex
  vertexIdState : ∀ k, (h'.graph k).vertexIdState = (h.graph k).vertexIdState
  nextEdge_le : h.nextEdge ≤ h'.nextEdge
  mem_edges : ∀ k e, e ∈ (h'.graph k).edges ↔
    e ∈ (h.graph k).edges ∨ k = g ∧ h.nextEdge ≤ e ∧ e < h'.nextEdge
  old : ∀ e, e < h.nextEdge → ∃ isBackEdge,
    h'.edge e = { h.edge e with isBackEdge } ∧
      (isBackEdge = true ↔ (h.edge e).isBackEdge = true ∨
        IsBackEdge (h.incidence order) roots e)
  new : ∀ e, h.nextEdge ≤ e → e < h'.nextEdge → ∃ s t,
    h.Proxy order roots s t ∧ h'.edge e = ⟨s, t, .impossible, false⟩
  proxied : ∀ s t, h.Proxy order roots s t → ∃ e, h.nextEdge ≤ e ∧
    e < h'.nextEdge ∧ h'.edge e = ⟨s, t, .impossible, false⟩

section fixupBackEdges

variable {h : Heap} (hc : h.Consistent) (order : IterationOrder) (g : GraphPtr)

include hc

/-- Every edge the visitor collects leaves a vertex. -/
theorem Consistent.source_ne_null_of_isBackEdge {roots : List VertexPtr}
    {e : EdgePtr} (he : IsBackEdge (h.incidence order) roots e) :
    (h.edge e).source ≠ null := by
  obtain ⟨u, _, _, hout, _, _⟩ := he
  obtain ⟨hsource, hu⟩ := (hc.mem_incidence_out order u e).mp hout
  rwa [hsource]

theorem FixedUp.of_collected {roots : List VertexPtr}
    {s : State VertexPtr EdgePtr} (hinv : Inv (h.incidence order) roots s)
    (hstack : s.stack = []) (hroots : s.roots = [])
    {visitor : BackEdgeFixupVisitor}
    (hcollected : Collected h order roots s.trace visitor) :
    FixedUp h order g roots
      (visitor.backEdges.foldl (fixupBackEdge g) h) := by
  have hback := hinv.backEdge_iff (hc.incidence_proper order) hstack hroots
  have hsource : ∀ i ∈ visitor.backEdges, (h.edge i.backEdge).source ≠ null :=
    fun i hi => hc.source_ne_null_of_isBackEdge order
      ((hback _).mp (hcollected.mem i hi).1)
  have hm := MarkInv.foldl hc g (l := visitor.backEdges) ⟨hsource, fun i hi =>
    (hcollected.mem i hi).2.lt_nextVertex hc⟩
  have hout : ∀ i ∈ visitor.backEdges, i.backEdge ∈
      (h.vertex (h.edge i.backEdge).source).outEdges := fun i hi =>
    (hc.mem_outEdges _ _).mpr ⟨rfl, hsource i hi⟩
  -- A wanted proxy edge is one of the pairs in `Proxy`.
  have hwants : ∀ i ∈ visitor.backEdges, h.WantsProxy i →
      h.Proxy order roots (h.edge i.backEdge).source i.impossibleTargetVertex := by
    rintro i hi ⟨hnull, hdegree⟩
    obtain ⟨hmem, htarget⟩ := hcollected.mem i hi
    obtain ⟨a, ha⟩ := Finset.card_eq_one.mp hdegree
    have hia : i.backEdge = a := by
      rw [← Finset.mem_singleton, ← ha]
      exact hout i hi
    exact ⟨hnull, i.backEdge, by rw [ha, hia], (hback _).mp hmem, htarget⟩
  refine
    { hm with
      old := fun e he => ?_
      new := fun e hle hlt => ?_
      proxied := fun u t hproxy => ?_ }
  · obtain ⟨isBackEdge, hedge, hiff⟩ := hm.old e he
    refine ⟨isBackEdge, hedge, hiff.trans (or_congr_right ?_)⟩
    rw [← hback]
    constructor
    · rintro ⟨i, hi, rfl⟩
      exact (hcollected.mem i hi).1
    · exact hcollected.all e
  · obtain ⟨i, hi, hwant, hedge⟩ := hm.new e hle hlt
    exact ⟨_, _, hwants i hi hwant, hedge⟩
  · obtain ⟨hnull, e, hsingle, hisBack, htarget⟩ := hproxy
    obtain ⟨i, hi, rfl⟩ := hcollected.all e ((hback e).mpr hisBack)
    have hu : (h.edge i.backEdge).source = u :=
      hc.source_eq_of_mem (by rw [hsingle]; exact Finset.mem_singleton_self _)
    obtain rfl : i.impossibleTargetVertex = t := by
      have heq := (hcollected.mem i hi).2.unique htarget
      simpa using heq
    have hdegree : h.outDegree u = 1 := by rw [outDegree, hsingle]; rfl
    obtain ⟨d, hle, hlt, hdsource⟩ :=
      hm.proxied i hi ⟨hnull, by rw [hu]; exact hdegree⟩
    obtain ⟨j, hj, _, hedge⟩ := hm.new d hle hlt
    refine ⟨d, hle, hlt, ?_⟩
    -- The source has one old out-edge only, so both infos are about it.
    have hju : (h.edge j.backEdge).source = u := by
      rw [hedge] at hdsource
      exact hdsource.trans hu
    have hji : j.backEdge = i.backEdge := by
      have hmem := hout j hj
      rw [hju, hsingle, Finset.mem_singleton] at hmem
      exact hmem
    have htargets := (hcollected.mem j hj).2.unique
      (hji ▸ (hcollected.mem i hi).2)
    rw [hedge, hju]
    simpa using htargets

/-- `FixupBackEdges` goes wrong exactly when there is no way out of some loop,
and otherwise marks the back edges and adds the proxy edges. -/
theorem Consistent.fixupBackEdges_spec (entry : VertexPtr) :
    (h.NoWayOut order (h.searchRoots order g entry) ∧
      h.fixupBackEdges order g entry = .error ⟨.endDereference, h⟩) ∨
    (¬ h.NoWayOut order (h.searchRoots order g entry) ∧
      ∃ h', h.fixupBackEdges order g entry = .ok h' ∧
        FixedUp h order g (h.searchRoots order g entry) h') := by
  have hreach := reaches_depthFirstSearch order h (h.searchRoots order g entry)
  have hinv := Inv.of_reaches (hc.incidence_proper order) hreach
  obtain ⟨hstack, hroots⟩ :=
    hc.depthFirstSearch_finished order (h.searchRoots order g entry)
  have hback := hinv.backEdge_iff (hc.incidence_proper order) hstack hroots
  rcases (Visited.of_reaches hc hreach).1 with
    ⟨visitor, hfold, hcollected⟩ | ⟨⟨e, he, hfault⟩, hfold⟩
  · refine .inr ⟨?_, _, ?_, FixedUp.of_collected hc order g hinv hstack hroots
      hcollected⟩
    · rintro ⟨e, he, hfault⟩
      obtain ⟨i, hi, rfl⟩ := hcollected.all e ((hback e).mpr he)
      have heq := (hcollected.mem i hi).2.unique hfault
      exact absurd heq (by simp)
    · unfold fixupBackEdges
      dsimp only
      rw [hfold]
  · refine .inl ⟨⟨e, (hback e).mp he, hfault⟩, ?_⟩
    unfold fixupBackEdges
    dsimp only
    rw [hfold]

end fixupBackEdges

/-! ## Where the proxy edges are -/

section proxy

variable {h : Heap} (hc : h.Consistent) {order : IterationOrder} {g : GraphPtr}
  {roots : List VertexPtr}

include hc

/-- Every edge of a walk leaves a vertex the walk comes to. -/
theorem Consistent.exists_prefix {r u : VertexPtr} {p : List EdgePtr}
    (hwalk : IsWalk (h.incidence order) r p u) {e : EdgePtr} (he : e ∈ p) :
    ∃ p₁ p₂, IsWalk (h.incidence order) r p₁ (h.edge e).source ∧
      IsWalk (h.incidence order) (h.edge e).source p₂ u := by
  obtain ⟨p₁, p₂, rfl⟩ := List.append_of_mem he
  obtain ⟨w, hp₁, hp₂⟩ := isWalk_append_iff.mp hwalk
  obtain rfl := ((hc.mem_incidence_out order w e).mp hp₂.1).1
  exact ⟨p₁, e :: p₂, hp₁, hp₂⟩

/-- A proxy edge leads from a vertex to where a decision before it leads. -/
theorem Consistent.exists_decision {s t : VertexPtr}
    (hproxy : h.Proxy order roots s t) :
    ∃ r p₁ p₂ w d, r ∈ roots ∧ (∃ p, SearchPath (h.incidence order) roots r p s) ∧
      IsWalk (h.incidence order) r p₁ w ∧ IsWalk (h.incidence order) w p₂ s ∧
      (h.vertex w).statement.isDecisionStatement = true ∧
      d ∈ (h.vertex w).outEdges ∧ (h.edge d).target = t := by
  obtain ⟨ht0, e, hout, _, r, p, hpath, hres⟩ := hproxy
  obtain rfl : (h.edge e).source = s := hc.source_eq_of_mem (by simp [hout])
  split_ifs at hres
  · exact absurd (Except.ok.inj hres) ht0
  · obtain ⟨e', he', hdecision, d, hd, htarget⟩ := wayOut_eq_ok hres.symm ht0
    obtain ⟨pre, post, hroots, _, hleast⟩ := id hpath
    obtain ⟨p₁, p₂, hp₁, hp₂⟩ :=
      hc.exists_prefix hleast.1.1 (List.mem_reverse.mp he')
    exact ⟨r, p₁, p₂, _, d, by simp [hroots], ⟨p, hpath⟩, hp₁, hp₂, hdecision,
      hd, htarget⟩

/-- A graph that encloses the roots encloses what the search comes to. -/
theorem Consistent.mem_of_isWalk {M : Set VertexPtr} (hM : h.Encloses g M)
    {r v : VertexPtr} {p : List EdgePtr} (hr : r ∈ M)
    (hwalk : IsWalk (h.incidence order) r p v) : v ∈ M := by
  induction p generalizing r with
  | nil =>
      have hrv : r = v := hwalk
      exact hrv ▸ hr
  | cons e p ih =>
      refine ih ?_ hwalk.2
      obtain ⟨hsource, _⟩ := (hc.mem_incidence_out order r e).mp hwalk.1
      exact (hM.mem_edges_target e).mp
        ((hM.mem_edges_source e).mpr (hsource ▸ hr))

theorem Consistent.mem_of_proxy {M : Set VertexPtr} (hM : h.Encloses g M)
    (hroots : ∀ r ∈ roots, r ∈ M) {s t : VertexPtr}
    (hproxy : h.Proxy order roots s t) : s ∈ M ∧ t ∈ M := by
  obtain ⟨r, p₁, p₂, w, d, hr, _, hp₁, hp₂, _, hd, rfl⟩ :=
    hc.exists_decision hproxy
  have hw := hc.mem_of_isWalk hM (hroots r hr) hp₁
  refine ⟨hc.mem_of_isWalk hM hw hp₂, (hM.mem_edges_target d).mp ?_⟩
  exact (hM.mem_edges_source d).mpr (hc.source_eq_of_mem hd ▸ hw)

theorem FixedUp.encloses {h' : Heap} (hfix : FixedUp h order g roots h')
    {M : Set VertexPtr} (hM : h.Encloses g M) (hroots : ∀ r ∈ roots, r ∈ M) :
    h'.Encloses g M := by
  have hlt : ∀ e ∈ (h.graph g).edges, e < h.nextEdge := fun e he =>
    hc.lt_nextEdge (hc.edges_attached g e he)
  have hnull := hc.null_notMem hM
  have hends : ∀ e, (e < h.nextEdge →
      (h'.edge e).source = (h.edge e).source ∧
        (h'.edge e).target = (h.edge e).target) := by
    intro e he
    obtain ⟨_, hedge, _⟩ := hfix.old e he
    rw [hedge]
    exact ⟨rfl, rfl⟩
  have hnew : ∀ e, h.nextEdge ≤ e → (e < h'.nextEdge ∧
      (h'.edge e).source ∈ M ∧ (h'.edge e).target ∈ M) ∨
        (h'.nextEdge ≤ e ∧ (h'.edge e).source = null ∧
          (h'.edge e).target = null) := by
    intro e he
    rcases Nat.lt_or_ge e h'.nextEdge with hlt' | hge
    · obtain ⟨s, t, hproxy, hedge⟩ := hfix.new e he hlt'
      rw [hedge]
      exact .inl ⟨hlt', hc.mem_of_proxy hM hroots hproxy⟩
    · refine .inr ⟨hge, ?_⟩
      have hsource : (h'.edge e).source = null := by
        by_contra hne
        exact Nat.not_lt.mpr hge (hfix.consistent.lt_nextEdge hne)
      exact ⟨hsource, (hfix.consistent.source_eq_null e).mp hsource⟩
  refine ⟨fun e => ?_, fun e => ?_⟩
  · rw [hfix.mem_edges]
    rcases Nat.lt_or_ge e h.nextEdge with he | he
    · rw [(hends e he).1, ← hM.mem_edges_source]
      exact or_iff_left fun hcon => Nat.not_lt.mpr hcon.2.1 he
    · rcases hnew e he with ⟨hlt', hs, _⟩ | ⟨hge, hs, _⟩
      · exact iff_of_true (.inr ⟨rfl, he, hlt'⟩) hs
      · refine iff_of_false ?_ (hs ▸ hnull)
        rintro (hold | ⟨_, _, hlt'⟩)
        · exact Nat.not_lt.mpr he (hlt e hold)
        · exact Nat.not_lt.mpr hge hlt'
  · rw [hfix.mem_edges]
    rcases Nat.lt_or_ge e h.nextEdge with he | he
    · rw [(hends e he).2, ← hM.mem_edges_target]
      exact or_iff_left fun hcon => Nat.not_lt.mpr hcon.2.1 he
    · rcases hnew e he with ⟨hlt', _, ht⟩ | ⟨hge, _, ht⟩
      · exact iff_of_true (.inr ⟨rfl, he, hlt'⟩) ht
      · refine iff_of_false ?_ (ht ▸ hnull)
        rintro (hold | ⟨_, _, hlt'⟩)
        · exact Nat.not_lt.mpr he (hlt e hold)
        · exact Nat.not_lt.mpr hge hlt'

theorem FixedUp.confined {h' : Heap} (hfix : FixedUp h order g roots h')
    {M : Set VertexPtr} (hM : h.Encloses g M) (hroots : ∀ r ∈ roots, r ∈ M) :
    h.Confined g M h' := by
  have hold : ∀ e, e < h.nextEdge → (h.edge e).source ∉ M →
      h'.edge e = h.edge e := by
    intro e he hsource
    obtain ⟨isBackEdge, hedge, hiff⟩ := hfix.old e he
    -- What is marked is an edge the search has come to.
    have hunmarked : ¬ IsBackEdge (h.incidence order) roots e := by
      rintro ⟨u, r, p, hout, ⟨pre, post, hsplit, _, hleast⟩, _⟩
      have hu := hc.mem_of_isWalk hM (hroots r (by simp [hsplit])) hleast.1.1
      obtain ⟨heq, _⟩ := (hc.mem_incidence_out order u e).mp hout
      exact hsource (heq ▸ hu)
    have hmark : isBackEdge = (h.edge e).isBackEdge := by
      rw [Bool.eq_iff_iff, hiff]
      exact or_iff_left hunmarked
    rw [hedge, hmark]
  refine ⟨hfix.nextEdge_le, fun i hi => ?_, fun v _ => ?_,
    fun e he hsource _ => hold e he hsource, fun e hsource _ => ?_⟩
  · have hedges : (h'.graph i).edges = (h.graph i).edges := by
      ext e
      rw [hfix.mem_edges]
      exact or_iff_left fun hnew => hi hnew.1
    exact Graph.ext (hfix.vertices i) hedges (hfix.vertexIdState i)
  · obtain ⟨_, _, hv⟩ := hfix.vertex v
    rw [hv]
  · rcases Nat.lt_or_ge e h.nextEdge with hlt | hge
    · left
      obtain ⟨_, hedge, _⟩ := hfix.old e hlt
      refine hold e hlt ?_
      rw [hedge] at hsource
      exact hsource
    · right
      by_contra hne
      obtain ⟨s, t, hproxy, hedge⟩ :=
        hfix.new e hge (hfix.consistent.lt_nextEdge hne)
      rw [hedge] at hsource
      exact hsource (hc.mem_of_proxy hM hroots hproxy).1

end proxy

end Heap

end CoFlo.Ports
