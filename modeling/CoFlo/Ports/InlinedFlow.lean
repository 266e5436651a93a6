import CoFlo.Ports.CallFreePrint
import CoFlo.Ports.UnmarkedReach
import CoFlo.Verified.InlinedWalk

/-!
# Functions whose calls can be replaced by what they call

Such a function has no recursive call, and all its ways lead from ENTRY to EXIT
(`Heap.Inlinable`).  What is collected here for the visit of one is which edges
are counted in the in-degrees of its vertices, and where the edges of a call lead
(`CallEdges`).
-/

namespace CoFlo.Ports

open CoFlo.Verified CoFlo.Verified.Detours Relation

namespace Heap

/-- One function has a call of another one. -/
def Calls (h : Heap) (f g : FunctionPtr) : Prop :=
  ∃ c ∈ (h.graph f).vertices, (h.vertex c).statement.calledFunction = some g

/-- Every edge of the function joins vertices of its graph, every vertex is on a
way from ENTRY to EXIT along unmarked edges, these do not come back, and a call
is left by its fallthrough edge. -/
structure Walkable (h : Heap) (g : FunctionPtr) : Prop where
  source_mem : ∀ e ∈ (h.graph g).edges, (h.edge e).source ∈ (h.graph g).vertices
  target_mem : ∀ e ∈ (h.graph g).edges, (h.edge e).edgeType.isIntraprocedural = true →
    (h.edge e).target ∈ (h.graph g).vertices
  fromEntry : ∀ v ∈ (h.graph g).vertices,
    ReflTransGen (h.InnerStep g) (h.function g).entryVertexDesc v
  toExit : ∀ v ∈ (h.graph g).vertices,
    ReflTransGen (h.InnerStep g) v (h.function g).exitVertexDesc
  acyclic : Acyclic (h.InnerStep g)
  callsFall : ∀ c ∈ (h.graph g).vertices,
    (h.vertex c).statement.calledFunction.isSome = true →
      ∀ e ∈ (h.vertex c).outEdges, (h.edge e).edgeType.isIntraprocedural = true →
        (h.edge e).edgeType.isFallthrough = true ∧ (h.edge e).isBackEdge = false

/-- What is called from `f` can take the place of the calls. -/
structure Inlinable (h : Heap) (f : FunctionPtr) : Prop where
  acyclic : ∀ g, ReflTransGen h.Calls f g → ¬ TransGen h.Calls g g
  walkable : ∀ g, ReflTransGen h.Calls f g → h.Walkable g

/-- The edges that are not counted in a visit of `g`. -/
def outsideOf (h : Heap) (home : VertexPtr → FunctionPtr) (g : FunctionPtr) :
    Set EdgePtr :=
  {e | e ∈ h.passedOver ∨ home (h.edge e).source ≠ g}

instance (h : Heap) (home : VertexPtr → FunctionPtr) (g : FunctionPtr) :
    DecidablePred (· ∈ h.outsideOf home g) := fun e =>
  inferInstanceAs (Decidable (e ∈ h.passedOver ∨ home (h.edge e).source ≠ g))

/-- The functions of a program with their unmarked edges and resolved calls. -/
def graphs (h : Heap) (functions : List FunctionPtr) :
    InlinedWalk.Graphs FunctionPtr VertexPtr where
  vertices g := {v | v ∈ (h.graph g).vertices}
  entry g := (h.function g).entryVertexDesc
  exit g := (h.function g).exitVertexDesc
  step u v := ∃ g ∈ functions, h.InnerStep g u v
  callee v := (h.vertex v).statement.calledFunction

end Heap

namespace PrintControlFlowGraph

/-- Every unmarked edge inside the function leads from its ENTRY on to its EXIT, in
the opposite order of this list. -/
def OrderedBy (h : Heap) (g : FunctionPtr) (order : List VertexPtr) : Prop :=
  (∀ e ∈ (h.graph g).edges, (h.edge e).source ∈ (h.graph g).vertices ∧
    ((h.edge e).edgeType.isIntraprocedural = true →
      (h.edge e).target ∈ (h.graph g).vertices ∧
        ((h.edge e).isBackEdge = false →
          order.idxOf (h.edge e).target < order.idxOf (h.edge e).source))) ∧
  ∀ v ∈ (h.graph g).vertices, v ∈ order ∧
    (v = (h.function g).entryVertexDesc ∨ ∃ e ∈ (h.graph g).edges,
      (h.edge e).target = v ∧ (h.edge e).isBackEdge = false ∧
        (h.edge e).edgeType.isIntraprocedural = true) ∧
    (v = (h.function g).exitVertexDesc ∨ ∃ e ∈ (h.graph g).edges,
      (h.edge e).source = v ∧ (h.edge e).isBackEdge = false ∧
        (h.edge e).edgeType.isIntraprocedural = true) ∧
    ((h.vertex v).statement.calledFunction.isSome = true →
      ∀ e ∈ (h.vertex v).outEdges, (h.edge e).edgeType.isIntraprocedural = true →
        (h.edge e).edgeType.isFallthrough = true ∧ (h.edge e).isBackEdge = false)

instance (h : Heap) (g : FunctionPtr) (order : List VertexPtr) :
    Decidable (OrderedBy h g order) :=
  inferInstanceAs (Decidable (_ ∧ _))

theorem OrderedBy.walkable {h : Heap} {g : FunctionPtr} {order : List VertexPtr}
    (ho : OrderedBy h g order) : h.Walkable g where
  source_mem e he := (ho.1 e he).1
  target_mem e he htype := ((ho.1 e he).2 htype).1
  fromEntry v hv := by
    have hbefore : ∀ v, v ∈ (h.graph g).vertices →
        v = (h.function g).entryVertexDesc ∨ ∃ u, u ∈ (h.graph g).vertices ∧
          order.length - order.idxOf u < order.length - order.idxOf v ∧
            h.InnerStep g u v := by
      intro v hv
      obtain ⟨-, hin, -⟩ := ho.2 v hv
      rcases hin with rfl | ⟨e, he, rfl, hback, htype⟩
      · exact .inl rfl
      · have hlt := ((ho.1 e he).2 htype).2 hback
        have hsource := (ho.1 e he).1
        have hle := List.idxOf_lt_length_of_mem (ho.2 _ hsource).1
        exact .inr ⟨_, hsource, by omega, e, he, rfl, rfl, hback, htype⟩
    exact reflTransGen_of_rank _ hbefore hv
  toExit v hv := by
    have hafter : ∀ v, v ∈ (h.graph g).vertices →
        v = (h.function g).exitVertexDesc ∨ ∃ u, u ∈ (h.graph g).vertices ∧
          order.idxOf u < order.idxOf v ∧ Function.swap (h.InnerStep g) u v := by
      intro v hv
      obtain ⟨-, -, hout, -⟩ := ho.2 v hv
      rcases hout with rfl | ⟨e, he, rfl, hback, htype⟩
      · exact .inl rfl
      · obtain ⟨htarget, hlt⟩ := (ho.1 e he).2 htype
        exact .inr ⟨_, htarget, hlt hback, e, he, rfl, rfl, hback, htype⟩
    exact reflTransGen_swap.mp (reflTransGen_of_rank order.idxOf hafter hv)
  acyclic := by
    refine Acyclic.of_rank order.idxOf ?_
    rintro u v ⟨e, he, rfl, rfl, hback, htype⟩
    exact ((ho.1 e he).2 htype).2 hback
  callsFall c hc := (ho.2 c hc).2.2.2

/-! ## One function -/

section function

variable {functions : List FunctionPtr} {home : VertexPtr → FunctionPtr} {h : Heap}
  (hp : ProgramFlow functions home h) {g : FunctionPtr} (hg : g ∈ functions)
  (hw : h.Walkable g)

include hp hg

theorem home_of_mem {v : VertexPtr} (hv : v ∈ (h.graph g).vertices) :
    home v = g ∧ v ≠ null := by
  have hhome := hp.home_eq g hg v hv
  exact ⟨hhome, (hp.allocated v (hhome ▸ hg)).1⟩

theorem mem_outEdges_iff {v : VertexPtr} (hv : v ∈ (h.graph g).vertices)
    {e : EdgePtr} : e ∈ (h.vertex v).outEdges ↔ (h.edge e).source = v := by
  rw [hp.consistent.mem_outEdges, and_iff_left (home_of_mem hp hg hv).2]

theorem mem_edges_of_mem {v : VertexPtr} (hv : v ∈ (h.graph g).vertices)
    {e : EdgePtr} (he : (h.edge e).source = v) : e ∈ (h.graph g).edges := by
  obtain ⟨hhome, hne⟩ := home_of_mem hp hg hv
  exact (hp.mem_edges g hg e).mpr ⟨he ▸ hne, he ▸ hhome⟩

include hw

/-- An edge inside the function that is not marked leads on. -/
theorem notMem_outsideOf {e : EdgePtr} (he : e ∈ (h.graph g).edges)
    (hback : (h.edge e).isBackEdge = false)
    (htype : (h.edge e).edgeType.isIntraprocedural = true) :
    e ∉ h.outsideOf home g ∧ (h.edge e).source ≠ (h.edge e).target := by
  have hne : (h.edge e).source ≠ (h.edge e).target := fun hself =>
    hw.acyclic (h.edge e).source (.single ⟨e, he, rfl, hself.symm, hback, htype⟩)
  refine ⟨?_, hne⟩
  rintro ((hself | hmark | hinter) | hhome)
  · exact hne hself
  · rw [hback] at hmark
    exact Bool.noConfusion hmark
  · rw [htype] at hinter
    exact Bool.noConfusion hinter
  · exact hhome ((hp.mem_edges g hg e).mp he).2

omit hw in
theorem of_notMem_outsideOf {e : EdgePtr} (hsource : (h.edge e).source ≠ null)
    (he : e ∉ h.outsideOf home g) : e ∈ (h.graph g).edges ∧
      (h.edge e).isBackEdge = false ∧ (h.edge e).edgeType.isIntraprocedural = true := by
  unfold Heap.outsideOf Heap.passedOver at he
  simp only [Set.mem_ofPred_eq, not_or, not_not, Bool.not_eq_true, Bool.not_eq_false]
    at he
  obtain ⟨⟨-, hback, htype⟩, hhome⟩ := he
  exact ⟨(hp.mem_edges g hg e).mpr ⟨hsource, hhome⟩, hback, htype⟩

theorem outsideStep_iff {u v : VertexPtr} :
    h.OutsideStep (h.outsideOf home g) u v ↔ h.InnerStep g u v := by
  constructor
  · rintro ⟨e, he, heS, htarget⟩
    obtain ⟨hsource, hne⟩ := (hp.consistent.mem_outEdges u e).mp he
    obtain ⟨hmem, hback, htype⟩ := of_notMem_outsideOf hp hg (hsource ▸ hne) heS
    exact ⟨e, hmem, hsource, htarget, hback, htype⟩
  · rintro ⟨e, he, hsource, htarget, hback, htype⟩
    have hne := ((hp.mem_edges g hg e).mp he).1
    exact ⟨e, (hp.consistent.mem_outEdges u e).mpr ⟨hsource, hsource ▸ hne⟩,
      (notMem_outsideOf hp hg hw he hback htype).1, htarget⟩

/-- An edge that is counted leads to a vertex of the function, not to ENTRY. -/
theorem target_of_notMem {e : EdgePtr} (hsource : (h.edge e).source ≠ null)
    (he : e ∉ h.outsideOf home g) : (h.edge e).target ∈ (h.graph g).vertices ∧
      (h.edge e).target ≠ (h.function g).entryVertexDesc := by
  obtain ⟨hmem, hback, htype⟩ := of_notMem_outsideOf hp hg hsource he
  refine ⟨hw.target_mem e hmem htype, fun htarget => ?_⟩
  have hhome := ((hp.mem_edges g hg e).mp hmem).2
  have hself := hp.enter e hsource htype (by rw [hhome]; exact htarget)
  rw [hself, hhome, hp.entrySelf g hg] at hback
  exact Bool.noConfusion hback

theorem inEdges_entry :
    h.inEdgesOutside (h.outsideOf home g) (h.function g).entryVertexDesc = ∅ := by
  rw [Finset.eq_empty_iff_forall_notMem]
  intro e hmem
  obtain ⟨hin, he⟩ := Finset.mem_filter.mp hmem
  have hsource := hp.consistent.source_ne_null_of_mem hin
  exact (target_of_notMem hp hg hw hsource he).2 (hp.consistent.target_eq_of_mem hin)

/-- What is counted of a vertex are the edges that lead on to it. -/
theorem filteredInDegree_eq_inEdges {v : VertexPtr} (hv : home v = g)
    (hentry : v ≠ (h.function g).entryVertexDesc) (o : SetOrder) :
    filteredInDegree h o v false = (h.inEdgesOutside (h.outsideOf home g) v).card := by
  have hnoCall := hp.inEdges_notCall (v := v) (by rw [hv]; exact hentry)
  rw [filteredInDegree_eq_card hnoCall, Int.natCast_inj, Heap.filteredInEdges,
    Heap.inEdgesOutside]
  congr 1
  apply Finset.filter_congr
  intro e he
  have hsource := hp.consistent.source_ne_null_of_mem he
  have htarget := hp.consistent.target_eq_of_mem he
  constructor
  · rintro ⟨hback, hreturn⟩
    have htype : (h.edge e).edgeType.isIntraprocedural = true := by
      rcases hp.edgeType e hsource with htype | htype | htype
      · exact htype
      · exact absurd htype (by rw [hnoCall e he]; decide)
      · exact absurd htype (by rw [hreturn]; decide)
    have hhome : home (h.edge e).source = g := by
      rw [← hp.home_eq_home e hsource htype, htarget, hv]
    have hmem := (hp.mem_edges g hg e).mpr ⟨hsource, hhome⟩
    exact (notMem_outsideOf hp hg hw hmem hback htype).1
  · intro hout
    obtain ⟨-, hback, htype⟩ := of_notMem_outsideOf hp hg hsource hout
    refine ⟨hback, ?_⟩
    cases hty : (h.edge e).edgeType <;>
      simp_all [EdgeType.isIntraprocedural, EdgeType.isReturn]

omit hw in
/-- All calls of a function count as one. -/
theorem filteredInDegree_entry {e : EdgePtr} (hsource : (h.edge e).source ≠ null)
    (htype : (h.edge e).edgeType.isFunctionCall = true)
    (htarget : (h.edge e).target = (h.function g).entryVertexDesc) (o : SetOrder) :
    filteredInDegree h o (h.function g).entryVertexDesc false = 1 := by
  have hcalls := hp.filteredInEdges_entry hg
  have hmem : e ∈ h.filteredInEdges (h.function g).entryVertexDesc := by
    refine Heap.mem_filteredInEdges.mpr ⟨?_, ?_, ?_⟩
    · exact (hp.consistent.mem_inEdges _ e).mpr ⟨htarget, hp.entry_ne_null hg⟩
    · cases hty : (h.edge e).edgeType with
      | functionCall c f => exact (hp.callEdge e c f hsource hty).2.1
      | _ => rw [hty] at htype; exact Bool.noConfusion htype
    · cases hty : (h.edge e).edgeType <;>
        simp_all [EdgeType.isFunctionCall, EdgeType.isReturn]
  rw [filteredInDegree_eq_of_calls hcalls, if_neg]
  intro hempty
  rw [hempty] at hmem
  exact Finset.notMem_empty e hmem

omit hg hw in
/-- Out of a vertex that is neither a call nor EXIT no edge leaves the function. -/
theorem isIntraprocedural_of_plain {u : VertexPtr} (hhome : home u = g) (hne : u ≠ null)
    (hcall : (h.vertex u).statement.calledFunction = none)
    (hexit : u ≠ (h.function g).exitVertexDesc) {e : EdgePtr}
    (he : (h.edge e).source = u) : (h.edge e).edgeType.isIntraprocedural = true := by
  have hsource : (h.edge e).source ≠ null := he ▸ hne
  rcases hp.edgeType e hsource with htype | htype | htype
  · exact htype
  · cases hty : (h.edge e).edgeType with
    | functionCall c f =>
        obtain ⟨hc, -, params, hst, -⟩ := hp.callEdge e c f hsource hty
        rw [← he, hc, hst] at hcall
        exact absurd hcall (by simp [Statement.calledFunction])
    | _ => rw [hty] at htype; exact Bool.noConfusion htype
  · cases hty : (h.edge e).edgeType with
    | returnEdge c =>
        obtain ⟨hc, -, f, params, -, hst, hfrom, -⟩ := hp.returnEdge e c hsource hty
        have hf := (hp.resolved c f params hc hst).1
        rw [he] at hfrom
        have hfg : f = g := by rw [← hhome, hfrom, hp.home_exit hf]
        rw [hfg] at hfrom
        exact absurd hfrom hexit
    | _ => rw [hty] at htype; exact Bool.noConfusion htype

/-- A step in the graphs of the program that ends in the function is one of its
own. -/
theorem innerStep_of_step {u v : VertexPtr} (hv : v ∈ (h.graph g).vertices)
    (huv : (h.graphs functions).step u v) :
    h.InnerStep g u v ∧ v ≠ (h.function g).entryVertexDesc := by
  obtain ⟨g₁, hg₁, e, he, hsource, htarget, hback, htype⟩ := huv
  obtain ⟨hne, hhome⟩ := (hp.mem_edges g₁ hg₁ e).mp he
  have hsame := hp.home_eq_home e hne htype
  rw [htarget, (home_of_mem hp hg hv).1, hhome] at hsame
  obtain rfl := hsame
  refine ⟨⟨e, he, hsource, htarget, hback, htype⟩, ?_⟩
  have hout := (notMem_outsideOf hp hg hw he hback htype).1
  rw [← htarget]
  exact (target_of_notMem hp hg hw hne hout).2

end function

/-! ## A call -/

/-- The edges of a call: where it falls through to, into the function that is
called, and back.  All its other edges stay inside the function. -/
structure CallEdges (h : Heap) (c : VertexPtr) (g : FunctionPtr) (d b r : EdgePtr) :
    Prop where
  out : ∀ e, (h.edge e).source = c → (h.edge e).edgeType.isIntraprocedural = true ∨ e = b
  fall_source : (h.edge d).source = c
  fall : (h.edge d).edgeType.isFallthrough = true
  fall_unique : ∀ e, (h.edge e).source = c →
    (h.edge e).edgeType.isFallthrough = true → e = d
  call_source : (h.edge b).source = c
  call : (h.edge b).edgeType.isFunctionCall = true
  call_back : (h.edge b).isBackEdge = false
  call_target : (h.edge b).target = (h.function g).entryVertexDesc
  return_type : (h.edge r).edgeType = .returnEdge c
  return_source : (h.edge r).source = (h.function g).exitVertexDesc
  return_back : (h.edge r).isBackEdge = false
  return_target : (h.edge r).target = (h.edge d).target
  return_unique : ∀ e, (h.edge e).source ≠ null →
    (h.edge e).edgeType = .returnEdge c → e = r

theorem CallEdges.fall_type {h : Heap} {c : VertexPtr} {g : FunctionPtr}
    {d b r : EdgePtr} (hedges : CallEdges h c g d b r) :
    (h.edge d).edgeType.isIntraprocedural = true ∧
      (h.edge d).edgeType.isReturn = false := by
  have hfall := hedges.fall
  cases hty : (h.edge d).edgeType <;>
    simp_all [EdgeType.isFallthrough, EdgeType.isIntraprocedural, EdgeType.isReturn]

theorem CallEdges.call_type {h : Heap} {c : VertexPtr} {g : FunctionPtr}
    {d b r : EdgePtr} (hedges : CallEdges h c g d b r) :
    (h.edge b).edgeType.isIntraprocedural = false ∧
      (h.edge b).edgeType.isReturn = false ∧
        (h.edge b).edgeType.isFallthrough = false := by
  have hcall := hedges.call
  cases hty : (h.edge b).edgeType <;>
    simp_all [EdgeType.isFunctionCall, EdgeType.isIntraprocedural, EdgeType.isReturn,
      EdgeType.isFallthrough]

section call

variable {functions : List FunctionPtr} {home : VertexPtr → FunctionPtr} {h : Heap}
  (hp : ProgramFlow functions home h) (hlinked : CallsLinked functions home h)
  {g : FunctionPtr} (hg : g ∈ functions)

include hp hg

theorem callee_mem {g' : FunctionPtr} (hcalls : h.Calls g g') : g' ∈ functions := by
  obtain ⟨c, hc, hcalled⟩ := hcalls
  obtain ⟨params, hst⟩ := Statement.calledFunction_eq_some.mp hcalled
  exact (hp.resolved c g' params (by rw [(home_of_mem hp hg hc).1]; exact hg) hst).1

theorem finite_calls : {g' | TransGen h.Calls g g'}.Finite := by
  refine functions.finite_toSet.subset fun g' hreach => ?_
  induction (show TransGen h.Calls g g' from hreach) with
  | single hcalls => exact callee_mem hp hg hcalls
  | tail hreach' hcalls ih => exact callee_mem hp (ih hreach') hcalls

omit hg in
include hlinked in
theorem exists_callEdges {c : VertexPtr} (hhome : home c ∈ functions) (hne : c ≠ null)
    {g : FunctionPtr} (hcalled : (h.vertex c).statement.calledFunction = some g) :
    ∃ d b r, CallEdges h c g d b r := by
  obtain ⟨params, hst⟩ := Statement.calledFunction_eq_some.mp hcalled
  obtain ⟨⟨b, hb⟩, r, hr⟩ := hlinked c g params hhome hst
  obtain ⟨hbsource, hbcall⟩ := (hb b).mpr rfl
  obtain ⟨hrsource, hrtype⟩ := (hr r).mpr rfl
  obtain ⟨-, hrback, f, params', d, hst', hrfrom, hd, hrtarget⟩ :=
    hp.returnEdge r c hrsource hrtype
  obtain ⟨hdsource, hdfall⟩ := (hd d).mpr rfl
  rw [hst, Statement.functionCallResolved.injEq] at hst'
  have hbedge : (h.edge b).isBackEdge = false ∧
      (h.edge b).target = (h.function g).entryVertexDesc := by
    cases hty : (h.edge b).edgeType with
    | functionCall c' f' =>
        obtain ⟨hc', hback, params'', hst'', htarget⟩ :=
          hp.callEdge b c' f' (hbsource ▸ hne) hty
        rw [← hc', hbsource, hst, Statement.functionCallResolved.injEq] at hst''
        exact ⟨hback, hst''.1 ▸ htarget⟩
    | _ => rw [hty] at hbcall; exact Bool.noConfusion hbcall
  refine ⟨d, b, r, ?_, hdsource, hdfall, fun e he htype => (hd e).mp ⟨he, htype⟩,
    hbsource, hbcall, hbedge.1, hbedge.2, hrtype, hst'.1 ▸ hrfrom, hrback, hrtarget,
    fun e he htype => (hr e).mp ⟨he, htype⟩⟩
  -- No `Return` edge starts at a call.
  intro e he
  have hsource : (h.edge e).source ≠ null := he ▸ hne
  rcases hp.edgeType e hsource with htype | htype | htype
  · exact .inl htype
  · exact .inr ((hb e).mp ⟨he, htype⟩)
  · cases hty : (h.edge e).edgeType with
    | returnEdge c' =>
        obtain ⟨hc', -, f', params'', -, hst'', hfrom, -⟩ :=
          hp.returnEdge e c' hsource hty
        have hf' := (hp.resolved c' f' params'' hc' hst'').1
        have hexit := hp.exitStatement hf'
        rw [← hfrom, he, hst] at hexit
        exact absurd hexit (by simp)
    | _ => rw [hty] at htype; exact Bool.noConfusion htype

/-- In a walkable function a call has no other edges, and the one it falls through by
is not marked. -/
theorem CallEdges.of_walkable (hw : h.Walkable g) {c : VertexPtr}
    (hc : c ∈ (h.graph g).vertices) {g' : FunctionPtr}
    (hcalled : (h.vertex c).statement.calledFunction = some g') {d b r : EdgePtr}
    (hedges : CallEdges h c g' d b r) :
    (∀ e, (h.edge e).source = c → e = d ∨ e = b) ∧ (h.edge d).isBackEdge = false := by
  have hfalls : ∀ e, (h.edge e).source = c →
      (h.edge e).edgeType.isIntraprocedural = true →
        (h.edge e).edgeType.isFallthrough = true ∧ (h.edge e).isBackEdge = false :=
    fun e he => hw.callsFall c hc (by rw [hcalled]; rfl) e
      ((mem_outEdges_iff hp hg hc).mpr he)
  constructor
  · intro e he
    rcases hedges.out e he with htype | heq
    · exact .inl (hedges.fall_unique e he (hfalls e he htype).1)
    · exact .inr heq
  · exact (hfalls d hedges.fall_source hedges.fall_type.1).2

end call

end PrintControlFlowGraph

end CoFlo.Ports
