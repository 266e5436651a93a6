import CoFlo.Ports.InlinedFlow
import CoFlo.Ports.VisitRun
import CoFlo.Verified.KahnRun

/-!
# The visit of one function

What the visit of `PrintControlFlowGraph` has put on the set and into the map for
one function goes along with a state of Kahn's algorithm on this function
(`Tracks`).  So EXIT is what it comes to last, and then the map is as it was before.
-/

namespace CoFlo.Ports

open CoFlo.Verified CoFlo.Verified.StepMachine CoFlo.Verified.Transcript Relation

namespace PrintControlFlowGraph

/-- What of a function has been put on the set, `rs`, and into the map goes along
with a state of Kahn's algorithm.  In the rest of the map nothing has changed. -/
structure Tracks (home : VertexPtr → FunctionPtr) (h : Heap) (o : IterationOrder)
    (g : FunctionPtr) (before : VertexPtr → Option Int) (rs : List EdgePtr)
    (map : VertexPtr → Option Int) (k : KahnVisit.State VertexPtr EdgePtr) : Prop where
  inv : KahnVisit.Inv (h.outgoing o.outEdges) (h.inEdgesOutside (h.outsideOf home g))
    (h.function g).entryVertexDesc k
  ready : rs.map (fun e => (h.edge e).target) =
    k.ready.map fun e => (h.edge e).target
  remaining : ∀ v, home v = g → v ≠ (h.function g).entryVertexDesc →
    (map v).getD (filteredInDegree h o.inEdges v false) = k.remaining v
  erased : ∀ v, home v = g → KahnVisit.left
    (h.inEdgesOutside (h.outsideOf home g)) k.examined v = ∅ → map v = none
  outside : ∀ v, home v ≠ g → map v = before v

section visit

variable {functions : List FunctionPtr} {home : VertexPtr → FunctionPtr} {h : Heap}
  (hp : ProgramFlow functions home h) {g : FunctionPtr} (hg : g ∈ functions)
  (hw : h.Walkable g) {o : IterationOrder} {before map : VertexPtr → Option Int}
  {rs : List EdgePtr} {k : KahnVisit.State VertexPtr EdgePtr}

/-- An edge to `v` has been examined: nothing else changes. -/
theorem Tracks.update (hk : Tracks home h o g before rs map k) {v : VertexPtr}
    (hv : home v = g) {rs' : List EdgePtr} {k' : KahnVisit.State VertexPtr EdgePtr}
    (hinv : KahnVisit.Inv (h.outgoing o.outEdges)
      (h.inEdgesOutside (h.outsideOf home g)) (h.function g).entryVertexDesc k')
    (hready : rs'.map (fun e => (h.edge e).target) =
      k'.ready.map fun e => (h.edge e).target)
    {x : Option Int} (hremaining : k'.remaining = Function.update k.remaining v
      (x.getD (filteredInDegree h o.inEdges v false)))
    (hother : ∀ w, w ≠ v →
      KahnVisit.left (h.inEdgesOutside (h.outsideOf home g)) k'.examined w =
        KahnVisit.left (h.inEdgesOutside (h.outsideOf home g)) k.examined w)
    (hx : KahnVisit.left (h.inEdgesOutside (h.outsideOf home g)) k'.examined v = ∅ →
      x = none) :
    Tracks home h o g before rs' (Function.update map v x) k' where
  inv := hinv
  ready := hready
  remaining w hw hentry := by
    rw [hremaining]
    by_cases heq : w = v
    · rw [heq, Function.update_self, Function.update_self]
    · rw [Function.update_of_ne heq, Function.update_of_ne heq]
      exact hk.remaining w hw hentry
  erased w hw hempty := by
    by_cases heq : w = v
    · rw [heq, Function.update_self]
      exact hx (heq ▸ hempty)
    · rw [Function.update_of_ne heq]
      exact hk.erased w hw (hother w heq ▸ hempty)
  outside w hw := by
    have heq : w ≠ v := fun heq => hw (heq ▸ hv)
    rw [Function.update_of_ne heq]
    exact hk.outside w hw

include hp hg hw

theorem Tracks.init {e : EdgePtr} (htarget : (h.edge e).target =
    (h.function g).entryVertexDesc) (hbefore : ∀ v, home v = g → before v = none) :
    Tracks home h o g before [e] before
      (KahnVisit.init (h.inEdgesOutside (h.outsideOf home g)) e) where
  inv := by
    rw [← htarget]
    exact KahnVisit.Inv.init e
  ready := rfl
  remaining v hv hentry := by
    rw [hbefore v hv, Option.getD_none]
    exact filteredInDegree_eq_inEdges hp hg hw hv hentry _
  erased v hv _ := hbefore v hv
  outside _ _ := rfl

/-- Everything that is ready or discovered is in the function. -/
theorem Tracks.mem_vertices (hk : Tracks home h o g before rs map k) {v : VertexPtr}
    (hv : v ∈ k.discovered ++ k.ready.map fun e => (h.edge e).target) :
    v ∈ (h.graph g).vertices := by
  rcases (hk.inv.mem v).mp hv with rfl | ⟨hne, -⟩
  · exact hp.entry_mem g hg
  · obtain ⟨e, he⟩ := Finset.nonempty_iff_ne_empty.mpr hne
    obtain ⟨hin, hout⟩ := Finset.mem_filter.mp he
    have hsource := hp.consistent.source_ne_null_of_mem hin
    rw [← hp.consistent.target_eq_of_mem hin]
    exact (target_of_notMem hp hg hw hsource hout).1

/-- Taking an edge, or another one with the same target. -/
theorem Tracks.take (hk : Tracks home h o g before rs map k) {e : EdgePtr}
    {ei : List EdgePtr} (hpending : k.pending = some (e :: ei))
    (he : e ∉ h.outsideOf home g) {d : EdgePtr} {v : VertexPtr}
    (hev : (h.edge e).target = v) (hdv : (h.edge d).target = v) {n : Int}
    (hn : (map v).getD (filteredInDegree h o.inEdges v false) = n) :
    ∃ k' : KahnVisit.State VertexPtr EdgePtr, k'.pending = some ei ∧
      k'.discovered = k.discovered ∧
      if n = 1 then
        Tracks home h o g before (d :: rs) (Function.update map v none) k'
      else
        Tracks home h o g before rs (Function.update map v (some (n - 1))) k' := by
  have hG := hp.consistent.outgoing_proper (o := o.outEdges)
  have hin := hp.consistent.inEdges (o := o.outEdges) (S := h.outsideOf home g)
  have hroot := inEdges_entry hp hg hw
  -- The edge starts at a vertex of the function.
  obtain ⟨-, u, -, hout⟩ := hk.inv.notMem_examined hG hpending
  have hsource : (h.edge e).source ≠ null := by
    rw [Heap.outgoing, SetOrder.mem_enum] at hout
    obtain ⟨hu, hne⟩ := (hp.consistent.mem_outEdges u e).mp hout
    exact hu ▸ hne
  obtain ⟨hmem, hentry⟩ := target_of_notMem hp hg hw hsource he
  rw [hev] at hmem hentry
  have hhome := (home_of_mem hp hg hmem).1
  obtain ⟨hleft, hother⟩ := hk.inv.mem_left hG hin hpending he
  have hcard : k.remaining v = n := (hk.remaining v hhome hentry).symm.trans hn
  have htarget : (h.outgoing o.outEdges).target e = v := hev
  rw [htarget] at hleft hother
  have hold := hk.inv.remaining v
  rw [if_neg (Finset.ne_empty_of_mem hleft), hcard] at hold
  by_cases hone : n = 1
  · simp only [if_pos hone]
    have hstep := hk.inv.step hG hin hroot
      (.push hpending he (by rw [htarget, hcard, hone]))
    refine ⟨_, ?_, ?_, hk.update hhome hstep ?_ ?_ hother fun _ => rfl⟩
    · rfl
    · rfl
    · show (h.edge d).target :: _ = (h.edge e).target :: _
      rw [hdv, hev, hk.ready]
    · show Function.update k.remaining ((h.outgoing o.outEdges).target e) _ = _
      rw [htarget, Option.getD_none,
        filteredInDegree_eq_inEdges hp hg hw hhome hentry]
  · simp only [if_neg hone]
    have hstep := hk.inv.step hG hin hroot
      (.count hpending he (by rw [htarget, hcard]; exact hone))
    refine ⟨_, ?_, ?_, hk.update hhome hstep hk.ready ?_ hother fun hempty => ?_⟩
    · rfl
    · rfl
    · show Function.update k.remaining ((h.outgoing o.outEdges).target e) _ = _
      rw [htarget, Option.getD_some, hcard]
    · -- Something is left of the target, as this was not the last edge.
      exfalso
      dsimp only at hempty
      rw [KahnVisit.left_append] at hempty
      have hsize := Finset.card_erase_add_one hleft
      rw [hempty, Finset.card_empty] at hsize
      omega

theorem Tracks.skips (hk : Tracks home h o g before rs map k) {l ei : List EdgePtr}
    (hpending : k.pending = some (l ++ ei)) (hl : ∀ e ∈ l, e ∈ h.outsideOf home g) :
    Tracks home h o g before rs map
      { k with pending := some ei, examined := k.examined ++ l } where
  inv := hk.inv.skips hp.consistent.outgoing_proper hp.consistent.inEdges
    (inEdges_entry hp hg hw) hpending hl
  ready := hk.ready
  remaining := hk.remaining
  erased v hv hempty := by
    refine hk.erased v hv ?_
    rw [← hempty]
    ext e
    simp only [KahnVisit.left, Finset.mem_filter, List.mem_append, not_or]
    refine and_congr_right fun he => (and_iff_left fun hmem => ?_).symm
    exact (Finset.mem_filter.mp he).2 (hl e hmem)
  outside := hk.outside

variable {f : FunctionPtr} {cfgVerbose cfgVertexIds : Bool} {s : State} {u : VertexPtr}
  {rest : List EdgePtr} {calls : DFSCallStack} {recursive : Bool}

/-- Taking an edge, in the visit and in Kahn's algorithm. -/
theorem Tracks.exists_take (hk : Tracks home h o g before rs map k) {e : EdgePtr}
    {ei : List EdgePtr} (hpending : k.pending = some (e :: ei))
    (he : e ∉ h.outsideOf home g) {d : EdgePtr} {di : List EdgePtr}
    (htarget : (h.edge d).target = (h.edge e).target)
    (hs : Busy s u (d :: di) (rs ++ rest) map calls recursive)
    (hd : Answers h calls.callStack recursive d false) :
    ∃ t rs' map' k', Visits h o f cfgVerbose cfgVertexIds s [] t ∧
      Busy t u di (rs' ++ rest) map' calls recursive ∧ Tracks home h o g before rs' map' k' ∧
      k'.pending = some ei ∧ k'.discovered = k.discovered := by
  obtain ⟨k', hpending', hdiscovered, htracks⟩ :=
    hk.take hp hg hw hpending he rfl htarget rfl
  obtain ⟨t, hst, ht⟩ := hs.take hd htarget rfl
  by_cases hone : (map (h.edge e).target).getD
      (filteredInDegree h o.inEdges (h.edge e).target false) = 1
  · rw [if_pos hone] at htracks ht
    exact ⟨t, _, _, k', hst, ht, htracks, hpending', hdiscovered⟩
  · rw [if_neg hone] at htracks ht
    exact ⟨t, _, _, k', hst, ht, htracks, hpending', hdiscovered⟩

/-- Examining edges of which those that are not counted are skipped. -/
theorem Tracks.exists_visit {ei : List EdgePtr}
    (hei : ∀ e ∈ ei, (e ∈ h.outsideOf home g ∧ Answers h calls.callStack recursive e true) ∨
      (e ∉ h.outsideOf home g ∧ Answers h calls.callStack recursive e false))
    (hk : Tracks home h o g before rs map k) (hpending : k.pending = some ei)
    (hs : Busy s u ei (rs ++ rest) map calls recursive) :
    ∃ t rs' map' k', Visits h o f cfgVerbose cfgVertexIds s [] t ∧
      Busy t u [] (rs' ++ rest) map' calls recursive ∧
      Tracks home h o g before rs' map' k' ∧
      k'.pending = some [] ∧ k'.discovered = k.discovered := by
  induction ei generalizing s rs map k with
  | nil => exact ⟨s, rs, map, k, .done s, hs, hk, hpending, rfl⟩
  | cons e ei ih =>
      have hrest := fun d hd => hei d (List.mem_cons_of_mem e hd)
      rcases hei e List.mem_cons_self with ⟨hskip, hanswer⟩ | ⟨hout, hanswer⟩
      · obtain ⟨t, hst, ht⟩ : ∃ t, Visits h o f cfgVerbose cfgVertexIds s [] t ∧ _ :=
          hs.skip hanswer
        have hk' := hk.skips hp hg hw (l := [e]) hpending
          fun d hd => List.mem_singleton.mp hd ▸ hskip
        obtain ⟨w, rs', map', k', htw, hw', hk'', hpending', hdiscovered⟩ :=
          ih hrest hk' rfl ht
        exact ⟨w, rs', map', k', hst.trans htw, hw', hk'', hpending', hdiscovered⟩
      · obtain ⟨t, rs₁, map₁, k₁, hst, ht, hk₁, hpending₁, hdiscovered₁⟩ :=
          hk.exists_take hp hg hw hpending hout rfl hs hanswer
        obtain ⟨w, rs', map', k', htw, hw', hk', hpending', hdiscovered⟩ :=
          ih hrest hk₁ hpending₁ ht
        exact ⟨w, rs', map', k', hst.trans htw, hw', hk', hpending',
          hdiscovered.trans hdiscovered₁⟩

/-- The edges out of a vertex that is neither a call nor EXIT. -/
theorem answers_plain (hu : u ∈ (h.graph g).vertices)
    (hcall : (h.vertex u).statement.calledFunction = none)
    (hexit : u ≠ (h.function g).exitVertexDesc) {e : EdgePtr}
    (he : (h.edge e).source = u) {frames : List CallStackFrame} :
    (e ∈ h.outsideOf home g ∧ Answers h frames recursive e true) ∨
      (e ∉ h.outsideOf home g ∧ Answers h frames recursive e false) := by
  obtain ⟨hhome, hne⟩ := home_of_mem hp hg hu
  have htype := isIntraprocedural_of_plain hp hhome hne hcall hexit he
  have hmem := mem_edges_of_mem hp hg hu he
  by_cases hpassed : (h.edge e).source = (h.edge e).target ∨
      (h.edge e).isBackEdge = true
  · refine .inl ⟨?_, answers_true hpassed⟩
    rcases hpassed with hself | hback
    · exact .inl (.inl hself)
    · exact .inl (.inr (.inl hback))
  · rw [not_or, Bool.not_eq_true] at hpassed
    refine .inr ⟨(notMem_outsideOf hp hg hw hmem hpassed.2 htype).1, ?_⟩
    refine answers_false hpassed.1 hpassed.2 ?_ (by rw [he]; exact hcall)
    cases hty : (h.edge e).edgeType <;>
      simp_all [EdgeType.isIntraprocedural, EdgeType.isReturn]

theorem Tracks.complete (hk : Tracks home h o g before rs map k)
    (hpending : k.pending = some []) :
    Tracks home h o g before rs map { k with pending := none } :=
  ⟨hk.inv.step hp.consistent.outgoing_proper hp.consistent.inEdges
    (inEdges_entry hp hg hw) (.complete hpending), hk.ready, hk.remaining, hk.erased,
    hk.outside⟩

omit hp hg hw in
/-- The vertex on top of the set is visited next. -/
theorem Tracks.discover {e : EdgePtr} (hk : Tracks home h o g before (e :: rs) map k)
    (hpending : k.pending = none) : ∃ k' : KahnVisit.State VertexPtr EdgePtr,
      Tracks home h o g before rs map k' ∧
      k'.pending = some (o.outEdges.enum (h.vertex (h.edge e).target).outEdges) ∧
      k'.discovered = k.discovered ++ [(h.edge e).target] := by
  have hready := hk.ready
  cases hcases : k.ready with
  | nil =>
      rw [hcases] at hready
      exact absurd hready (by simp)
  | cons d ready =>
      rw [hcases, List.map_cons, List.map_cons, List.cons_eq_cons] at hready
      have hinv := hk.inv.discover hpending hcases
      refine ⟨_, ⟨hinv, hready.2, hk.remaining, hk.erased, hk.outside⟩, ?_, ?_⟩
      · show some (o.outEdges.enum (h.vertex (h.edge d).target).outEdges) = _
        rw [hready.1]
      · show k.discovered ++ [(h.edge d).target] = _
        rw [hready.1]

theorem edgeStep_eq_innerStep :
    KahnVisit.EdgeStep (h.outgoing o.outEdges) (h.outsideOf home g) = h.InnerStep g := by
  rw [Heap.edgeStep_eq]
  funext u v
  exact propext (outsideStep_iff hp hg hw)

/-- When everything has been discovered, EXIT as the last. -/
theorem Tracks.isOrder (hk : Tracks home h o g before rs map k)
    (hall : ∀ v ∈ (h.graph g).vertices, v ∈ k.discovered)
    (hlast : ∃ l, k.discovered = l ++ [(h.function g).exitVertexDesc]) :
    InlinedWalk.IsOrder (h.graphs functions) g k.discovered where
  nodup := (List.nodup_append.mp hk.inv.nodup).1
  mem_iff v := ⟨fun hv => hk.mem_vertices hp hg hw (List.mem_append_left _ hv), hall v⟩
  after l₁ v l₂ hl u huv := by
    have hv : v ∈ (h.graph g).vertices := by
      refine hk.mem_vertices hp hg hw (List.mem_append_left _ ?_)
      rw [hl]
      simp
    obtain ⟨hstep, hentry⟩ := innerStep_of_step hp hg hw hv huv
    obtain ⟨e, he, hout, htarget⟩ := (outsideStep_iff hp hg hw).mpr hstep
    have hin := (hp.consistent.inEdges (o := o.outEdges) (S := h.outsideOf home g)).mem_iff
      v e
    obtain ⟨w, hw', hew⟩ := hk.inv.order l₁ v l₂ hl hentry e
      (hin.mpr ⟨hout, htarget, u, by rwa [Heap.outgoing, SetOrder.mem_enum]⟩)
    rw [Heap.outgoing, SetOrder.mem_enum] at hew
    rw [← hp.consistent.source_eq_of_mem he, hp.consistent.source_eq_of_mem hew]
    exact hw'
  last := hlast

/-- As long as EXIT has not been discovered, something of the function is on the
set. -/
theorem Tracks.exists_cons (hk : Tracks home h o g before rs map k)
    (hpending : k.pending = none)
    (hexit : (h.function g).exitVertexDesc ∉ k.discovered) :
    ∃ e rs', rs = e :: rs' ∧ (h.edge e).target ∈ (h.graph g).vertices ∧
      (h.edge e).target ∉ k.discovered ∧
      k.discovered.length + 1 ≤ (h.graph g).vertices.card := by
  have hstep := edgeStep_eq_innerStep hp hg hw (o := o)
  have hne : k.ready ≠ [] := by
    refine hk.inv.ready_ne_nil hp.consistent.inEdges hpending
      (M := Finset.range h.nextVertex) ?_
      (TopologicalVisitKahn.target_mem_universe hp.consistent) ?_ ?_ ?_ hexit
    · exact Finset.mem_range.mpr (hp.allocated _ (by
        rw [hp.home_entry hg]
        exact hg)).2
    · rw [hstep]
      exact hw.acyclic
    · rw [hstep]
      rintro u v ⟨e, he, rfl, -⟩
      exact hw.fromEntry _ (hw.source_mem e he)
    · rw [hstep]
      exact hw.fromEntry _ (hp.exit_mem g hg)
  cases rs with
  | nil =>
      have hready := hk.ready
      rw [List.map_nil] at hready
      exact absurd (List.map_eq_nil_iff.mp hready.symm) hne
  | cons e rs' =>
      have hmem : (h.edge e).target ∈ k.ready.map fun e => (h.edge e).target := by
        rw [← hk.ready]
        exact List.mem_cons_self
      have hnew : (h.edge e).target ∉ k.discovered := fun hold =>
        (List.nodup_append.mp hk.inv.nodup).2.2 _ hold _ hmem rfl
      have hvertex := hk.mem_vertices hp hg hw (List.mem_append_right _ hmem)
      refine ⟨e, rs', rfl, hvertex, hnew, ?_⟩
      have hnodup : ((h.edge e).target :: k.discovered).Nodup :=
        List.nodup_cons.mpr ⟨hnew, (List.nodup_append.mp hk.inv.nodup).1⟩
      rw [← List.length_cons (a := (h.edge e).target),
        ← List.toFinset_card_of_nodup hnodup]
      refine Finset.card_le_card fun v hv => ?_
      rw [List.mem_toFinset, List.mem_cons] at hv
      rcases hv with rfl | hv
      · exact hvertex
      · exact hk.mem_vertices hp hg hw (List.mem_append_left _ hv)

section last

variable {e : EdgePtr} (hk : Tracks home h o g before (e :: rs) map k)
  (htarget : (h.edge e).target = (h.function g).exitVertexDesc)

include hk htarget

omit hp hg hw in
theorem Tracks.exit_mem : (h.function g).exitVertexDesc ∈
    k.discovered ++ k.ready.map fun e => (h.edge e).target := by
  apply List.mem_append_right
  rw [← hk.ready, List.map_cons, htarget]
  exact List.mem_cons_self

variable (hpending : k.pending = none)

include hpending

/-- When EXIT comes to the top of the set, everything else has been discovered. -/
theorem Tracks.mem_discovered {v : VertexPtr} (hv : v ∈ (h.graph g).vertices)
    (hne : v ≠ (h.function g).exitVertexDesc) : v ∈ k.discovered := by
  apply hk.inv.discovered_of_transGen hp.consistent.outgoing_proper
    hp.consistent.inEdges (inEdges_entry hp hg hw) hpending (hk.exit_mem htarget)
  rw [edgeStep_eq_innerStep hp hg hw]
  rcases reflTransGen_iff_eq_or_transGen.mp (hw.toExit v hv) with heq | hreach
  · exact absurd heq.symm hne
  · exact hreach

/-- Then the set is as it was before the function. -/
theorem Tracks.rest_eq_nil : rs = [] := by
  cases rs with
  | nil => rfl
  | cons d rs =>
      exfalso
      have hready := hk.ready
      rw [List.map_cons, htarget, List.map_cons] at hready
      have hnodup := hk.inv.nodup
      change (k.discovered ++ k.ready.map fun e => (h.edge e).target).Nodup at hnodup
      rw [← hready] at hnodup
      obtain ⟨-, hnodup, hdisjoint⟩ := List.nodup_append.mp hnodup
      have hmem : (h.edge d).target ∈ (h.graph g).vertices := by
        apply hk.mem_vertices hp hg hw
        apply List.mem_append_right
        rw [← hready]
        simp
      have hne : (h.edge d).target ≠ (h.function g).exitVertexDesc := by
        intro heq
        rw [heq] at hnodup
        exact (List.nodup_cons.mp hnodup).1 List.mem_cons_self
      have hold := hk.mem_discovered hp hg hw htarget hpending hmem hne
      exact hdisjoint _ hold (h.edge d).target (by simp) rfl

/-- And so is the map. -/
theorem Tracks.map_eq (hbefore : ∀ v, home v = g → before v = none) :
    map = before := by
  funext v
  by_cases hv : home v = g
  · rw [hbefore v hv]
    apply hk.erased v hv
    by_cases hmem : v ∈ (h.graph g).vertices
    · apply hk.inv.left_eq_empty (inEdges_entry hp hg hw)
      by_cases hne : v = (h.function g).exitVertexDesc
      · rw [hne]
        exact hk.exit_mem htarget
      · exact List.mem_append_left _ (hk.mem_discovered hp hg hw htarget hpending hmem hne)
    · -- Nothing leads to a vertex that has been removed.
      rw [KahnVisit.left, Finset.filter_eq_empty_iff]
      intro d hd
      obtain ⟨hdin, hout⟩ := Finset.mem_filter.mp hd
      have hsource := hp.consistent.source_ne_null_of_mem hdin
      have htarget' := (target_of_notMem hp hg hw hsource hout).1
      rw [hp.consistent.target_eq_of_mem hdin] at htarget'
      exact absurd htarget' hmem
  · exact hk.outside v hv

end last

end visit

end PrintControlFlowGraph

end CoFlo.Ports
