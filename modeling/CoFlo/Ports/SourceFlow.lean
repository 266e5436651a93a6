import CoFlo.Ports.MatchedCalls
import CoFlo.Ports.ProgramCopies

/-!
# The flow of a linked program is that of its statement lists

Linking replaces calls and draws edges from one graph to another.  The edges
inside a function are still the ways control can go in its statement list, and
at a call the vertex says which function is called
(`LinkedFrom.exists_flowLinked`).
-/

namespace CoFlo.Ports

open CoFlo.Verified Relation

/-- Along an edge inside the function that is neither marked nor impossible. -/
def Heap.InnerFollowedStep (h : Heap) (g : GraphPtr) (u v : VertexPtr) : Prop :=
  ∃ e ∈ (h.graph g).edges, (h.edge e).source = u ∧ (h.edge e).target = v ∧
    (h.edge e).isBackEdge = false ∧ (h.edge e).edgeType.isImpossible = false ∧
      (h.edge e).edgeType.isIntraprocedural = true

/-- The function `g` of the linked program `h` has the control flow of its
statements, with `place` saying which vertex stands for which place.  The edges
to and from other functions are left aside. -/
structure FlowLinked (fis : List FunctionInfo) (place : Place → VertexPtr)
    (h : Heap) (g : FunctionPtr) : Prop where
  entry : place .entry = (h.function g).entryVertexDesc
  exit : place .exit = (h.function g).exitVertexDesc
  entry_mem : place .entry ∈ (h.graph g).vertices
  exit_mem : place .exit ∈ (h.graph g).vertices
  injective : ∀ p q, p.InRange (statementsOf fis g).length →
    q.InRange (statementsOf fis g).length → place p ∈ (h.graph g).vertices →
      place p = place q → p = q
  vertices : ∀ v ∈ (h.graph g).vertices,
    ∃ p : Place, p.InRange (statementsOf fis g).length ∧ place p = v
  statement_mem : ∀ i st, (statementsOf fis g)[i]? = some st →
    st.linked.isRedundantKind = false →
      place (.statement i) ∈ (h.graph g).vertices
  entry_statement : (h.vertex (place .entry)).statement = .entry
  exit_statement : (h.vertex (place .exit)).statement = .exit
  statement : ∀ i st, (statementsOf fis g)[i]? = some st →
    place (.statement i) ∈ (h.graph g).vertices →
      (h.vertex (place (.statement i))).statement =
        st.linked.resolvedWith (calledFunctionOf fis)
  realEdge_iff : ∀ p ty w, p.InRange (statementsOf fis g).length →
    place p ∈ (h.graph g).vertices →
      (h.RealEdge g (place p) ty w ∧ ty.isIntraprocedural = true ↔
        ∃ x q, FlowsTo (statementsOf fis g) p ty x ∧
          ReflTransGen (PassedOver (statementsOf fis g) place h g) x q ∧
            place q ∈ (h.graph g).vertices ∧ place q = w)

/-! ## The copy of a function that was built -/

/-- What was built from statements has their flow. -/
theorem IsBuiltFrom.flowKept {statements : List Statement} {g : FunctionPtr}
    {k : Heap} (hk : IsBuiltFrom statements g k) (hw : WellLabelled statements) :
    ∃ place : Place → VertexPtr,
      place .entry = (k.function g).entryVertexDesc ∧
      place .exit = (k.function g).exitVertexDesc ∧
      FlowKept statements place k g ∧
        ((∀ st ∈ statements, st.goesOn = true) →
          ∀ q, CanReach statements .entry q → place q ∈ (k.graph g).vertices →
            ReflTransGen (k.FollowedStep g) (place .entry) (place q)) := by
  obtain ⟨h, l, fixupOrder, removalOrder, hf, rfl, hcfg, hcreate⟩ := hk
  obtain ⟨k₀, ρ, f, c, hk₀, hr⟩ := exists_createRun hf hcreate
  obtain ⟨hentry, hexit⟩ := hr.entry_exit hk₀
  have hkept := hr.flowKept hf hw hk₀
  have hreaches := fun hgoes q => hr.reaches_placeOf hf hw hk₀ hgoes (q := q)
  rw [hcfg] at hkept hreaches
  exact ⟨h.placeOf l ρ, hentry, hexit, hkept, hreaches⟩

theorem FunctionCopy.realEdge_iff {g : FunctionPtr} {ρ : VertexPtr → VertexPtr}
    {k h : Heap} (hcopy : FunctionCopy g ρ k h) {u w : VertexPtr}
    (hu : u ∈ (k.graph g).vertices) {ty : EdgeType} :
    h.RealEdge g (ρ u) ty w ∧ ty.isIntraprocedural = true ↔
      ∃ v, k.RealEdge g u ty v ∧ ρ v = w := by
  constructor
  · rintro ⟨⟨e, he, hsource, rfl, rfl, hreal⟩, hintra⟩
    have hek := (hcopy.mem_edges e).mpr ⟨he, hintra⟩
    rw [hcopy.edge e hek] at hsource hreal ⊢
    have hsame := hcopy.injOn (Heap.source_mem_occurring hek) (.inl hu) hsource
    exact ⟨_, ⟨e, hek, hsame, rfl, rfl, hreal⟩, rfl⟩
  · rintro ⟨v, ⟨e, hek, hsource, htype, htarget, hreal⟩, rfl⟩
    obtain ⟨he, hintra⟩ := (hcopy.mem_edges e).mp hek
    rw [hcopy.edge e hek] at hintra
    refine ⟨⟨e, he, ?_, ?_, ?_, hreal⟩, htype ▸ hintra⟩ <;> rw [hcopy.edge e hek]
    · exact congrArg ρ hsource
    · exact htype
    · exact congrArg ρ htarget

theorem FunctionCopy.innerFollowedStep {g : FunctionPtr}
    {ρ : VertexPtr → VertexPtr} {k h : Heap} (hcopy : FunctionCopy g ρ k h)
    {u v : VertexPtr} (huv : k.FollowedStep g u v) :
    h.InnerFollowedStep g (ρ u) (ρ v) := by
  obtain ⟨e, hek, rfl, rfl, hmark, hreal⟩ := huv
  obtain ⟨he, hintra⟩ := (hcopy.mem_edges e).mp hek
  refine ⟨e, he, ?_, ?_, ?_, ?_, hintra⟩ <;> rw [hcopy.edge e hek]
  · exact hmark
  · exact hreal

/-- Where the places are in a copy: those that have been left out are nowhere. -/
def copiedPlace (k : Heap) (g : GraphPtr) (ρ : VertexPtr → VertexPtr)
    (place : Place → VertexPtr) (p : Place) : VertexPtr :=
  if place p ∈ (k.graph g).vertices then ρ (place p) else null

/-- The flow of a copy. -/
theorem FlowKept.flowLinked {fis : List FunctionInfo} {g : FunctionPtr}
    {place : Place → VertexPtr} {k h : Heap} {ρ : VertexPtr → VertexPtr}
    (hkept : FlowKept (statementsOf fis g) place k g)
    (hentry : place .entry = (k.function g).entryVertexDesc)
    (hexit : place .exit = (k.function g).exitVertexDesc)
    (hcopy : FunctionCopy g ρ k h)
    (hst : ∀ v ∈ (k.graph g).vertices, (h.vertex (ρ v)).statement =
      (k.vertex v).statement.resolvedWith (calledFunctionOf fis))
    {functions : List FunctionPtr} {home : VertexPtr → FunctionPtr}
    (hp : ProgramFlow functions home h) (hg : g ∈ functions) :
    FlowLinked fis (copiedPlace k g ρ place) h g := by
  have hnull : null ∉ (h.graph g).vertices := fun hmem =>
    (hp.allocated null (by rw [hp.home_eq g hg null hmem]; exact hg)).1 rfl
  have hof : ∀ {p}, place p ∈ (k.graph g).vertices →
      copiedPlace k g ρ place p = ρ (place p) := fun hmem => if_pos hmem
  have hmem : ∀ p, copiedPlace k g ρ place p ∈ (h.graph g).vertices ↔
      place p ∈ (k.graph g).vertices := by
    intro p
    constructor
    · intro hmem
      by_contra hnot
      rw [copiedPlace, if_neg hnot] at hmem
      exact hnull hmem
    · intro hmem
      rw [hof hmem, hcopy.vertices]
      exact Finset.mem_image_of_mem ρ hmem
  have hover : PassedOver (statementsOf fis g) (copiedPlace k g ρ place) h g =
      PassedOver (statementsOf fis g) place k g := by
    funext p q
    rw [PassedOver, PassedOver, hmem]
  have hentry' : copiedPlace k g ρ place .entry = (h.function g).entryVertexDesc := by
    rw [hof hkept.entry_mem, hentry, hcopy.entry]
  have hexit' : copiedPlace k g ρ place .exit = (h.function g).exitVertexDesc := by
    rw [hof hkept.exit_mem, hexit, hcopy.exit]
  exact
    { entry := hentry'
      exit := hexit'
      entry_mem := (hmem _).mpr hkept.entry_mem
      exit_mem := (hmem _).mpr hkept.exit_mem
      injective := fun p q hprange hqrange hpmem heq => by
        have hqmem := (hmem q).mp (heq ▸ hpmem)
        rw [hmem] at hpmem
        rw [hof hpmem, hof hqmem] at heq
        exact hkept.injective p q hprange hqrange
          (hcopy.injOn (.inl hpmem) (.inl hqmem) heq)
      vertices := fun v hv => by
        rw [hcopy.vertices, Finset.mem_image] at hv
        obtain ⟨u, hu, rfl⟩ := hv
        obtain ⟨p, hprange, rfl⟩ := hkept.vertices u hu
        exact ⟨p, hprange, hof hu⟩
      statement_mem := fun i st hi hkind =>
        (hmem _).mpr (hkept.statement_mem i st hi hkind)
      entry_statement := by
        rw [hentry']
        exact hp.entryStatement hg
      exit_statement := by
        rw [hexit']
        exact hp.exitStatement hg
      statement := fun i st hi hpmem => by
        rw [hmem] at hpmem
        rw [hof hpmem, hst _ hpmem, hkept.statement i st hi]
      realEdge_iff := fun p ty w hprange hpmem => by
        rw [hmem] at hpmem
        rw [hof hpmem, hcopy.realEdge_iff hpmem, hover]
        constructor
        · rintro ⟨v, hv, rfl⟩
          obtain ⟨x, q, hx, hxq, hqmem, rfl⟩ :=
            (hkept.realEdge_iff p ty v hprange hpmem).mp hv
          exact ⟨x, q, hx, hxq, (hmem q).mpr hqmem, hof hqmem⟩
        · rintro ⟨x, q, hx, hxq, hqmem, rfl⟩
          rw [hmem] at hqmem
          exact ⟨place q, (hkept.realEdge_iff p ty _ hprange hpmem).mpr
            ⟨x, q, hx, hxq, hqmem, rfl⟩, (hof hqmem).symm⟩ }

/-- The functions of a linked program have the flow of their statements, and
what control can come to is reached along the edges of the function. -/
theorem LinkedFrom.exists_flowLinked {fis : List FunctionInfo} {p : Program}
    (hp : LinkedFrom fis p) {g : FunctionPtr} (hg : g ∈ p.functions)
    (hw : WellLabelled (statementsOf fis g)) :
    ∃ place, FlowLinked fis place p.heap g ∧
      ((∀ st ∈ statementsOf fis g, st.goesOn = true) →
        ∀ q, CanReach (statementsOf fis g) .entry q →
          place q ∈ (p.heap.graph g).vertices →
            ReflTransGen (p.heap.InnerFollowedStep g) (place .entry)
              (place q)) := by
  obtain ⟨home, hflow, -⟩ := hp.linkedProgram.flow
  obtain ⟨k, ρ, hbuilt, hcopy, hst⟩ := hp.exists_copy hg
  obtain ⟨place, hentry, hexit, hkept, hreaches⟩ := hbuilt.flowKept hw
  have hlinked := hkept.flowLinked hentry hexit hcopy hst hflow hg
  refine ⟨_, hlinked, fun hgoes q hq hmem => ?_⟩
  have hqmem : place q ∈ (k.graph g).vertices := by
    by_contra hnot
    rw [copiedPlace, if_neg hnot] at hmem
    obtain ⟨hne, -⟩ := hflow.allocated null (by
      rw [hflow.home_eq g hg null hmem]
      exact hg)
    exact hne rfl
  rw [copiedPlace, if_pos hkept.entry_mem, copiedPlace, if_pos hqmem]
  exact ReflTransGen.lift ρ (fun _ _ => hcopy.innerFollowedStep) _ _
    (hreaches hgoes q hq hqmem)

/-! ## The calls -/

/-- The function a parsed statement calls is the one its vertex calls. -/
theorem Statement.calledFunction_linked {st : Statement}
    (hst : st.isParsed = true) (functionMap : FunctionMap) :
    (st.linked.resolvedWith functionMap).calledFunction =
      st.resolution functionMap := by
  cases st with
  | functionCallUnresolved identifier params =>
      show (resolvedWith functionMap (functionCallUnresolved identifier
        params)).calledFunction = functionMap identifier
      rw [resolvedWith]
      cases functionMap identifier <;> rfl
  | functionCallResolved f params => exact absurd hst Bool.false_ne_true
  | switchUnlinked caseList => cases caseList <;> rfl
  | _ => rfl

namespace FlowLinked

variable {fis : List FunctionInfo} {place : Place → VertexPtr} {h : Heap}
  {g : FunctionPtr} (hl : FlowLinked fis place h g)

include hl

/-- A call whose name is known has a vertex. -/
theorem call_mem {q : Place} {f : FunctionPtr} (hcall : callAt fis g q = some f) :
    q.InRange (statementsOf fis g).length ∧ place q ∈ (h.graph g).vertices := by
  cases q with
  | statement i =>
      obtain ⟨st, hst, hf⟩ := Option.bind_eq_some_iff.mp hcall
      refine ⟨Place.inRange_of_getElem? hst, hl.statement_mem i st hst ?_⟩
      cases st with
      | functionCallUnresolved identifier params => rfl
      | _ => exact absurd hf (by simp [Statement.resolution])
  | _ => exact absurd hcall (by simp [callAt])

/-- The function that is called at a place is the one its vertex calls. -/
theorem callAt_eq (hparsed : ∀ st ∈ statementsOf fis g, st.isParsed = true)
    {q : Place} (hq : q.InRange (statementsOf fis g).length)
    (hmem : place q ∈ (h.graph g).vertices) :
    callAt fis g q = (h.vertex (place q)).statement.calledFunction := by
  cases q with
  | entry => rw [hl.entry_statement]; rfl
  | exit => rw [hl.exit_statement]; rfl
  | statement i =>
      have hlt : i < (statementsOf fis g).length := hq
      have hst := List.getElem?_eq_getElem hlt
      rw [hl.statement i _ hst hmem, Statement.calledFunction_linked
        (hparsed _ (List.getElem_mem hlt)), callAt, hst]
      rfl

/-- An edge inside the function leads to where control can come to. -/
theorem exists_canReach {q : Place} {ty : EdgeType} {w : VertexPtr}
    (hq : q.InRange (statementsOf fis g).length)
    (hmem : place q ∈ (h.graph g).vertices) (hedge : h.RealEdge g (place q) ty w)
    (hintra : ty.isIntraprocedural = true) :
    ∃ x, CanReach (statementsOf fis g) q x ∧
      x.InRange (statementsOf fis g).length ∧
        place x ∈ (h.graph g).vertices ∧ place x = w := by
  obtain ⟨x, y, hx, hover, hy, hplace⟩ :=
    (hl.realEdge_iff q ty w hq hmem).mp ⟨hedge, hintra⟩
  have hreach : CanReach (statementsOf fis g) q y :=
    (PassedOver.canReach hover).head ⟨ty, hx⟩
  exact ⟨y, hreach, hreach.inRange hq, hy, hplace⟩

end FlowLinked

theorem LinkedFrom.isParsed {fis : List FunctionInfo} {p : Program}
    (hp : LinkedFrom fis p) (g : FunctionPtr) :
    ∀ st ∈ statementsOf fis g, st.isParsed = true := by
  obtain ⟨_, _, _, _, hfis, -⟩ := hp
  refine statementsOf_induction (P := fun sts => ∀ st ∈ sts, st.isParsed = true)
    (fun _ hst => absurd hst List.not_mem_nil) (fun fi hfi st hst => ?_) g
  obtain ⟨q, hq, rfl⟩ := List.mem_map.mp hst
  exact hfis fi hfi q hq

/-- A function of a linked program has the control flow of its statement list,
and calls what the names of its calls say. -/
theorem linkedFunction_flowLinked {fis : List FunctionInfo} {p : Program}
    (hp : LinkedFrom fis p) {g : FunctionPtr} (hg : g ∈ p.functions)
    (hw : WellLabelled (statementsOf fis g)) :
    ∃ place, FlowLinked fis place p.heap g ∧
      (∀ q f, callAt fis g q = some f → place q ∈ (p.heap.graph g).vertices) ∧
        ∀ q : Place, q.InRange (statementsOf fis g).length →
          place q ∈ (p.heap.graph g).vertices →
            (p.heap.vertex (place q)).statement.calledFunction =
              callAt fis g q := by
  obtain ⟨place, hl, -⟩ := hp.exists_flowLinked hg hw
  exact ⟨place, hl, fun q f hcall => (hl.call_mem hcall).2,
    fun q hq hmem => (hl.callAt_eq (hp.isParsed g) hq hmem).symm⟩

/-- A loop with a call whose function is known and one whose function is not. -/
def pollLoop : List FunctionInfo :=
  [⟨"f.c", "poll", [(.label "L", .unknown),
    (.functionCallUnresolved "read" "", .unknown),
    (.ifUnlinked "ready" "E" "M", .unknown), (.label "M", .unknown),
    (.functionCallUnresolved "sleep" "1", .unknown),
    (.gotoUnlinked "L", .unknown), (.label "E", .unknown),
    (.returnUnlinked "", .unknown)]⟩,
   ⟨"f.c", "read", [(.functionCallUnresolved "trap" "", .unknown)]⟩,
   ⟨"f.c", "trap", []⟩]

theorem pollLoop_parse : ∃ p,
    Program.parse blankMemory .ascending pollLoop = .ok p ∧
      p.functions = [1, 2, 3] := by
  have hcheck : (Program.parse blankMemory .ascending pollLoop).Holds fun p =>
      p.functions = [1, 2, 3] := by
    decide +kernel
  exact hcheck

theorem linkedFunction_flowLinked_pollLoop :
    ∃ p, Program.parse blankMemory .ascending pollLoop = .ok p ∧
      ∃ place, FlowLinked pollLoop place p.heap 1 ∧
        (∀ q f, callAt pollLoop 1 q = some f →
          place q ∈ (p.heap.graph 1).vertices) ∧
          ∀ q : Place, q.InRange (statementsOf pollLoop 1).length →
            place q ∈ (p.heap.graph 1).vertices →
              (p.heap.vertex (place q)).statement.calledFunction =
                callAt pollLoop 1 q := by
  obtain ⟨p, hrun, hfunctions⟩ := pollLoop_parse
  have hp : LinkedFrom pollLoop p := linkedFrom_of_parse (by decide) hrun
  exact ⟨p, hrun, linkedFunction_flowLinked hp (by rw [hfunctions]; decide)
    (by decide)⟩

end CoFlo.Ports
