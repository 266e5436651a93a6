import CoFlo.Ports.FlowArcs
import CoFlo.Ports.RedundantChains
import CoFlo.Ports.UnmarkedReach

/-!
# `CreateControlFlowGraph` keeps the control flow

`FixupBackEdges` marks edges and adds impossible ones, and
`RemoveRedundantNodes` takes gotos and labels out of the way.  The edges of the
graph that is left are still the ways control can go in the statement list: one
for each way out of a place, with its kind, to the place at which control comes
to a vertex again (`createControlFlowGraph_flowKept`).

What control can come to is reached from ENTRY without the marked and the
impossible edges, too (`CreateRun.reaches_followed`): the search of
`FixupBackEdges` sees no impossible edge there that could mislead it.
-/

namespace CoFlo.Ports

open CoFlo.Verified CoFlo.Verified.DepthFirstSearch Relation

/-- The statement that stands in the graph for a parsed one. -/
def Statement.linked : Statement → Statement
  | gotoUnlinked _ | returnUnlinked _ => gotoStatement
  | ifUnlinked condition _ _ => ifStatement condition
  | switchUnlinked (_ :: _) => switchStatement
  | st => st

/-- On from a place whose vertex is not in the graph any more. -/
def PassedOver (statements : List Statement) (place : Place → VertexPtr)
    (h : Heap) (g : GraphPtr) (p q : Place) : Prop :=
  place p ∉ (h.graph g).vertices ∧ ∃ ty, FlowsTo statements p ty q

/-- The graph `g` has the control flow of `statements`, with `place` saying
which vertex stands for which place; gotos and labels may be left out. -/
structure FlowKept (statements : List Statement) (place : Place → VertexPtr)
    (h : Heap) (g : GraphPtr) : Prop where
  injective : ∀ p q, p.InRange statements.length → q.InRange statements.length →
    place p = place q → p = q
  vertices : ∀ v ∈ (h.graph g).vertices,
    ∃ p : Place, p.InRange statements.length ∧ place p = v
  entry_mem : place .entry ∈ (h.graph g).vertices
  exit_mem : place .exit ∈ (h.graph g).vertices
  statement_mem : ∀ i st, statements[i]? = some st →
    st.linked.isRedundantKind = false →
      place (.statement i) ∈ (h.graph g).vertices
  statement : ∀ i st, statements[i]? = some st →
    (h.vertex (place (.statement i))).statement = st.linked
  realEdge_iff : ∀ p ty w, p.InRange statements.length →
    place p ∈ (h.graph g).vertices →
      (h.RealEdge g (place p) ty w ↔ ∃ x q, FlowsTo statements p ty x ∧
        ReflTransGen (PassedOver statements place h g) x q ∧
          place q ∈ (h.graph g).vertices ∧ place q = w)

/-- Along an edge that is neither marked nor impossible. -/
def Heap.FollowedStep (h : Heap) (g : GraphPtr) (u v : VertexPtr) : Prop :=
  ∃ e ∈ (h.graph g).edges, (h.edge e).source = u ∧ (h.edge e).target = v ∧
    (h.edge e).isBackEdge = false ∧ (h.edge e).edgeType.isImpossible = false

/-- An edge that is taken along and is a way, or that is going to be replaced. -/
def Heap.FollowedAlong (f : Heap) (g : GraphPtr) (entry : VertexPtr)
    (e : EdgePtr) : Prop :=
  f.TakenAlong g entry e ∧ ((f.edge e).edgeType.isImpossible = false ∨
    f.isRedundant (f.edge e).source = true)

/-- What can be taken out of the way has a way to go on. -/
theorem Statement.goesOn_of_isRedundantKind {st : Statement}
    (hst : st.linked.isRedundantKind = true) : st.goesOn = true := by
  cases st with
  | switchUnlinked caseList =>
      cases caseList <;> exact absurd hst Bool.false_ne_true
  | caseUnlinked name => exact absurd hst Bool.false_ne_true
  | _ => rfl

/-! ## The statements of the vertices -/

section list

variable {h : Heap} {this : FunctionPtr} {l : List VertexPtr}
  (hf : h.Fresh this l) (hw : WellLabelled (h.statements l))

include hf hw

/-- What linking puts into the place of a statement. -/
theorem replacement_eq {i : Nat} {v : VertexPtr} (hv : l[i]? = some v) :
    h.replacement l v =
      if (h.statementOf v).isFlowControlUnlinked && (h.statementOf v).goesOn then
        some (h.statementOf v).linked
      else none := by
  have hst := getElem?_statements hf hv
  have hdefined : ∀ name ∈ (h.statementOf v).linkTargets,
      ∃ t, h.labelMapOf l name = some t := by
    intro name hname
    obtain ⟨_, t, _, _, ht⟩ := labelMapOf_of_mem hf
      (hw.defined _ (List.mem_of_getElem? hst) name hname)
    exact ⟨t, ht⟩
  unfold Heap.replacement
  cases hstv : h.statementOf v with
  | gotoUnlinked name =>
      obtain ⟨t, ht⟩ := hdefined name (by simp [hstv, Statement.linkTargets])
      rw [Heap.linkedStatement, ht]
      rfl
  | returnUnlinked var =>
      rw [Heap.linkedStatement]
      rcases labelMapOf_exit hf with ⟨hmap, _⟩ | ⟨_, _, _, _, hmap⟩ <;>
        · rw [hmap]
          rfl
  | ifUnlinked condition nameTrue nameFalse =>
      obtain ⟨t, ht⟩ := hdefined nameTrue (by simp [hstv, Statement.linkTargets])
      obtain ⟨t', ht'⟩ := hdefined nameFalse (by simp [hstv, Statement.linkTargets])
      simp only [Heap.linkedStatement, ht, ht']
      rfl
  | switchUnlinked caseList =>
      cases caseList with
      | nil => rfl
      | cons name rest =>
          obtain ⟨t, ht⟩ := hdefined name (by simp [hstv, Statement.linkTargets])
          simp only [Heap.linkedStatement, List.filterMap_cons, ht,
            List.isEmpty_cons, Bool.false_eq_true, if_false]
          rfl
  | _ => rfl

theorem linkedStatementOf_eq {i : Nat} {v : VertexPtr} (hv : l[i]? = some v) :
    h.linkedStatementOf l v = (h.statementOf v).linked := by
  rw [Heap.linkedStatementOf, replacement_eq hf hw hv]
  split_ifs with hjump
  · rfl
  · cases hst : h.statementOf v with
    | switchUnlinked caseList =>
        cases caseList with
        | nil => rfl
        | cons name rest => simp [hst, Statement.isFlowControlUnlinked,
            Statement.goesOn] at hjump
    | _ => simp_all [Statement.isFlowControlUnlinked, Statement.goesOn,
        Statement.linked]

end list

namespace FlowConnected

variable {h k : Heap} {this : FunctionPtr} {l : List VertexPtr}
  {ρ : VertexPtr → VertexPtr} (hf : h.Fresh this l)
  (hw : WellLabelled (h.statements l)) (hk : FlowConnected h this l ρ k)

include hf hw hk

theorem statement_placeOf {i : Nat} {st : Statement}
    (hst : (h.statements l)[i]? = some st) :
    (k.vertex (h.placeOf l ρ (.statement i))).statement = st.linked := by
  obtain ⟨v, hv, rfl⟩ := getElem?_of_statements hf hst
  rw [placeOf_statement hv, hk.statement_map hf (Heap.mem_originals.mpr
    (.inr (.inr (List.mem_of_getElem? hv)))), linkedStatementOf_eq hf hw hv]

/-- A redundant vertex of the graph stands for a statement that goes on. -/
theorem exists_flowsTo_of_isRedundantKind {p : Place}
    (hp : p.InRange (h.statements l).length)
    (hkind : (k.vertex (h.placeOf l ρ p)).statement.isRedundantKind = true) :
    ∃ ty q, FlowsTo (h.statements l) p ty q := by
  have hs := hk.flowShape hf
  cases p with
  | entry => exact absurd rfl (hs.ne_of_isRedundantKind hkind).1
  | exit => exact absurd rfl (hs.ne_of_isRedundantKind hkind).2
  | statement i =>
      have hlt : i < (h.statements l).length := hp
      have hst := List.getElem?_eq_getElem hlt
      rw [hk.statement_placeOf hf hw hst] at hkind
      exact hw.exists_flowsTo hst (Statement.goesOn_of_isRedundantKind hkind)

/-- From a vertex of the graph an edge goes a way of the list, or it is a self
edge of ENTRY or EXIT, when all statements of the list go on. -/
theorem realEdge_or_self (hgoes : ∀ st ∈ h.statements l, st.goesOn = true)
    {e : EdgePtr} (he : e ∈ (k.graph (h.function this).theCfg).edges) {p : Place}
    (hp : p.InRange (h.statements l).length)
    (hsource : (k.edge e).source = h.placeOf l ρ p) :
    (∃ q, FlowsTo (h.statements l) p (k.edge e).edgeType q ∧
        h.placeOf l ρ q = (k.edge e).target) ∨
      ((k.edge e).target = h.entryPtr ∨ (k.edge e).target = h.exitPtr) ∧
        (k.edge e).target = (k.edge e).source := by
  have hmem : k.arc e ∈ k.arcs (h.function this).theCfg :=
    Multiset.mem_map_of_mem _ he
  rw [Heap.arc, hsource, hk.arcs_cases hf hw hp] at hmem
  rcases hmem with hflow | ha | ha
  · exact .inl hflow
  · -- What ends a basic block has been replaced by another vertex.
    obtain ⟨b, hb, heq⟩ := List.mem_map.mp ha
    obtain ⟨hmem, hends⟩ := immediatePredecessor_mem (List.mem_of_mem_filter hb)
    obtain ⟨i, hi⟩ := List.getElem?_of_mem hmem
    have hplace : b.immediatePredecessor = h.placeOf l ρ p := (Arc.mk.inj heq).1
    have hnone := (hk.mem_vertices_iff hf hmem).mp (hplace ▸ hk.placeOf_mem hf hp)
    have hst := hgoes _ (List.mem_of_getElem? (getElem?_statements hf hi))
    have hends' : (h.statementOf b.immediatePredecessor).isFlowControlUnlinked =
        true := hends
    rw [replacement_eq hf hw hi, hst, hends'] at hnone
    exact absurd hnone (by simp)
  · refine .inr ?_
    rw [hsource]
    simp only [Heap.selfArcs, List.mem_cons, List.not_mem_nil, or_false,
      Arc.mk.injEq] at ha
    rcases ha with ⟨hentry, -, htarget⟩ | ⟨hexit, -, htarget⟩
    · exact ⟨.inl htarget, htarget.trans hentry.symm⟩
    · exact ⟨.inr htarget, htarget.trans hexit.symm⟩

/-- What is reached in the graph is what control can come to. -/
theorem exists_within (hgoes : ∀ st ∈ h.statements l, st.goesOn = true)
    {v : VertexPtr}
    (hv : ReflTransGen (k.EdgeStep (h.function this).theCfg) h.entryPtr v) :
    ∃ p : Place, p.InRange (h.statements l).length ∧ h.placeOf l ρ p = v := by
  induction hv with
  | refl => exact ⟨.entry, trivial, rfl⟩
  | tail _ hstep ih =>
      obtain ⟨p, hp, hplace⟩ := ih
      obtain ⟨e, he, hsource, rfl⟩ := hstep
      rcases hk.realEdge_or_self hf hw hgoes he hp (hsource.trans hplace.symm) with
        ⟨q, hq, htarget⟩ | ⟨_, hself⟩
      · exact ⟨q, hq.inRange.2, htarget⟩
      · exact ⟨p, hp, by rw [hplace, hself, hsource]⟩

end FlowConnected

/-! ## Marking and contracting -/

/-- `FixupBackEdges` neither adds nor takes away a real edge. -/
theorem Heap.FixedUp.realEdge_iff {k f : Heap} {order : IterationOrder}
    {g : GraphPtr} {roots : List VertexPtr} (hc : k.Consistent)
    (hfix : Heap.FixedUp k order g roots f) {u w : VertexPtr} {ty : EdgeType} :
    f.RealEdge g u ty w ↔ k.RealEdge g u ty w := by
  have hold : ∀ e ∈ (k.graph g).edges, ∃ isBackEdge,
      f.edge e = { k.edge e with isBackEdge } := by
    intro e he
    obtain ⟨isBackEdge, hedge, _⟩ :=
      hfix.old e (hc.lt_nextEdge (hc.edges_attached g e he))
    exact ⟨isBackEdge, hedge⟩
  constructor
  · rintro ⟨e, he, hsource, htype, htarget, hreal⟩
    rcases (hfix.mem_edges g e).mp he with he | ⟨_, hle, hlt⟩
    · obtain ⟨_, hedge⟩ := hold e he
      rw [hedge] at hsource htype htarget
      exact ⟨e, he, hsource, htype, htarget, hreal⟩
    · obtain ⟨_, _, _, hedge⟩ := hfix.new e hle hlt
      rw [← htype, hedge] at hreal
      exact absurd hreal (by simp [EdgeType.isImpossible])
  · rintro ⟨e, he, hsource, htype, htarget, hreal⟩
    obtain ⟨_, hedge⟩ := hold e he
    refine ⟨e, (hfix.mem_edges g e).mpr (.inl he), ?_⟩
    rw [hedge]
    exact ⟨hsource, htype, htarget, hreal⟩

section createRun

variable {h k : Heap} {this : FunctionPtr} {l : List VertexPtr}
  {ρ : VertexPtr → VertexPtr} (hf : h.Fresh this l)
  (hw : WellLabelled (h.statements l)) (hk : FlowConnected h this l ρ k)
  {fixupOrder removalOrder : IterationOrder} {f c h' : Heap}
  (hr : CreateRun k fixupOrder removalOrder (h.function this).theCfg h.entryPtr
    f c h')

include hf hw hk hr

namespace CreateRun

theorem realEdge_placeOf_iff {p : Place} {ty : EdgeType} {w : VertexPtr}
    (hp : p.InRange (h.statements l).length) :
    f.RealEdge (h.function this).theCfg (h.placeOf l ρ p) ty w ↔
      ∃ q, FlowsTo (h.statements l) p ty q ∧ h.placeOf l ρ q = w := by
  rw [hr.fixedUp.realEdge_iff hk.consistent, hk.realEdge_iff hf hw hp]

omit hw in
theorem placeOf_mem_iff {p : Place} (hp : p.InRange (h.statements l).length) :
    h.placeOf l ρ p ∈ (h'.graph (h.function this).theCfg).vertices ↔
      f.isRedundant (h.placeOf l ρ p) = false := by
  rw [hr.mem_vertices]
  exact and_iff_right (hk.placeOf_mem hf hp)

omit hw in
theorem notMem_of_not_removed {p : Place}
    (hp : p.InRange (h.statements l).length)
    (hkept : h.placeOf l ρ p ∉
      f.redundantVertices removalOrder (h.function this).theCfg) :
    f.isRedundant (h.placeOf l ρ p) = false := by
  rw [hr.mem_removed, not_and, Bool.not_eq_true] at hkept
  exact hkept (hk.placeOf_mem hf hp)

/-- A redundant vertex that is reached is taken out. -/
theorem mem_removed_of_live (hgoes : ∀ st ∈ h.statements l, st.goesOn = true)
    {v : VertexPtr}
    (hv : ReflTransGen (f.EdgeStep (h.function this).theCfg) h.entryPtr v)
    (hred : f.isRedundant v = true) :
    v ∈ f.redundantVertices removalOrder (h.function this).theCfg := by
  have hs := hk.flowShape hf
  refine (hr.mem_removed v).mpr ⟨?_, hred⟩
  have hlive := (hr.fixedUp.reflTransGen_iff hs.consistent hs.encloses
    (hs.vertices _ hs.entry_mem) v).mp hv
  obtain ⟨p, hp, rfl⟩ := hk.exists_within hf hw hgoes hlive
  exact hk.placeOf_mem hf hp

/-- The way out of a redundant vertex. -/
theorem passesOn_placeOf_iff {p : Place} {w : VertexPtr}
    (hp : p.InRange (h.statements l).length)
    (hred : f.isRedundant (h.placeOf l ρ p) = true) :
    f.PassesOn (h.function this).theCfg (h.placeOf l ρ p) w ↔
      ∃ ty q, FlowsTo (h.statements l) p ty q ∧ h.placeOf l ρ q = w := by
  have hcf := hr.fixedUp.consistent
  constructor
  · rintro ⟨-, e, he, hsource, rfl⟩
    have hkind := hred
    rw [Heap.isRedundant, Bool.and_eq_true, hr.fixedUp.statement_eq] at hkind
    obtain ⟨ty, q, hq⟩ := hk.exists_flowsTo_of_isRedundantKind hf hw hp hkind.1
    obtain ⟨d, _, hdsource, _, hdtarget, _⟩ :=
      (hr.realEdge_placeOf_iff hf hw hk hp).mpr ⟨q, hq, rfl⟩
    -- There is one edge only.
    obtain ⟨a, b, ha, hb, _⟩ := hcf.exists_edges hred
    obtain ⟨_, hone, _⟩ := hcf.edges_eq ha hb
    have hed : e = d := ((hone e).mp hsource).trans ((hone d).mp hdsource).symm
    exact ⟨ty, q, hq, by rw [hed, hdtarget]⟩
  · rintro ⟨ty, q, hq, hplace⟩
    obtain ⟨e, he, hsource, _, htarget, _⟩ :=
      (hr.realEdge_placeOf_iff hf hw hk hp).mpr ⟨q, hq, hplace⟩
    exact ⟨hred, e, he, hsource, htarget⟩

omit hw in
theorem passedOver_iff {p q : Place} :
    PassedOver (h.statements l) (h.placeOf l ρ) h' (h.function this).theCfg p q ↔
      f.isRedundant (h.placeOf l ρ p) = true ∧
        ∃ ty, FlowsTo (h.statements l) p ty q := by
  refine and_congr_left ?_
  rintro ⟨ty, hq⟩
  rw [hr.placeOf_mem_iff hf hk hq.inRange.1, Bool.not_eq_false]

/-- On along redundant vertices, and over places that are left out. -/
theorem passesOn_iff {p : Place} {w : VertexPtr}
    (hp : p.InRange (h.statements l).length) :
    ReflTransGen (f.PassesOn (h.function this).theCfg) (h.placeOf l ρ p) w ↔
      ∃ q : Place, q.InRange (h.statements l).length ∧ ReflTransGen
        (PassedOver (h.statements l) (h.placeOf l ρ) h' (h.function this).theCfg)
          p q ∧ h.placeOf l ρ q = w := by
  constructor
  · intro hchain
    induction hchain with
    | refl => exact ⟨p, hp, .refl, rfl⟩
    | tail _ hstep ih =>
        obtain ⟨q, hq, hpassed, rfl⟩ := ih
        obtain ⟨ty, x, hx, hplace⟩ :=
          (hr.passesOn_placeOf_iff hf hw hk hq hstep.1).mp hstep
        have hover := (hr.passedOver_iff hf hk).mpr ⟨hstep.1, ty, hx⟩
        exact ⟨x, hx.inRange.2, hpassed.tail hover, hplace⟩
  · rintro ⟨q, -, hpassed, rfl⟩
    refine ReflTransGen.lift (h.placeOf l ρ) (fun x y hover => ?_) _ _ hpassed
    obtain ⟨hred, ty, hxy⟩ := (hr.passedOver_iff hf hk).mp hover
    exact (hr.passesOn_placeOf_iff hf hw hk hxy.inRange.1 hred).mpr
      ⟨ty, y, hxy, rfl⟩

/-- The real edges of the graph that is left. -/
theorem realEdge_iff {p : Place} {ty : EdgeType} {w : VertexPtr}
    (hp : p.InRange (h.statements l).length)
    (hmem : h.placeOf l ρ p ∈ (h'.graph (h.function this).theCfg).vertices) :
    h'.RealEdge (h.function this).theCfg (h.placeOf l ρ p) ty w ↔
      ∃ x q, FlowsTo (h.statements l) p ty x ∧ ReflTransGen
        (PassedOver (h.statements l) (h.placeOf l ρ) h' (h.function this).theCfg)
          x q ∧
        h.placeOf l ρ q ∈ (h'.graph (h.function this).theCfg).vertices ∧
          h.placeOf l ρ q = w := by
  have hcf := hr.fixedUp.consistent
  have hc := hr.contractsTo
  have hkept : h.placeOf l ρ p ∉
      f.redundantVertices removalOrder (h.function this).theCfg := fun hrem => by
    rw [hr.placeOf_mem_iff hf hk hp, ((hr.mem_removed _).mp hrem).2] at hmem
    exact absurd hmem (by decide)
  constructor
  · rintro ⟨e, he, hsource, htype, htarget, hreal⟩
    rw [hr.edges_eq] at he
    rw [hr.edge_eq] at hsource htype htarget
    have hend := (hc.edges_removed hcf · · e he)
    obtain ⟨w', hchain, hedge⟩ := hc.edge_eq hcf e he
    obtain ⟨hfe, _⟩ := (hc.mem_edges_iff hcf e).mp he
    have hw' : w' = w := by rw [← htarget, hedge]
    rw [hedge] at hsource htype
    obtain ⟨x, hx, hplace⟩ := (hr.realEdge_placeOf_iff hf hw hk hp).mp
      ⟨e, hfe, hsource, htype, rfl, hreal⟩
    rw [← hplace] at hchain
    obtain ⟨q, hq, hpassed, hqw⟩ :=
      (hr.passesOn_iff hf hw hk hx.inRange.2).mp hchain
    refine ⟨x, q, hx, hpassed, ?_, hqw.trans hw'⟩
    refine (hr.placeOf_mem_iff hf hk hq).mpr (hr.notMem_of_not_removed hf hk hq ?_)
    intro hrem
    exact (hend _ hrem).2 (by rw [htarget, ← hw', hqw])
  · rintro ⟨x, q, hx, hpassed, hqmem, rfl⟩
    obtain ⟨e, hfe, hsource, htype, htarget, hreal⟩ :=
      (hr.realEdge_placeOf_iff hf hw hk hp).mpr ⟨x, hx, rfl⟩
    have he := (hc.mem_edges_iff hcf e).mpr ⟨hfe, hsource ▸ hkept⟩
    obtain ⟨w', hchain, hedge⟩ := hc.edge_eq hcf e he
    have hend := (hc.edges_removed hcf · · e he)
    rw [htarget] at hchain
    obtain ⟨q', hq', _, rfl⟩ := (hr.passesOn_iff hf hw hk hx.inRange.2).mp hchain
    have hstay := hr.notMem_of_not_removed hf hk hq' fun hrem =>
      (hend _ hrem).2 (by rw [hedge])
    have hqrange : q.InRange (h.statements l).length := by
      rcases ReflTransGen.cases_tail hpassed with heq | ⟨y, _, _, ty', hy⟩
      · rw [heq]
        exact hx.inRange.2
      · exact hy.inRange.2
    have hchain' := (hr.passesOn_iff hf hw hk hx.inRange.2).mpr
      ⟨q, hqrange, hpassed, rfl⟩
    have hsame := hcf.survivor_unique hchain hstay hchain'
      ((hr.placeOf_mem_iff hf hk hqrange).mp hqmem)
    refine ⟨e, ?_, ?_, ?_, ?_, hreal⟩
    · rw [hr.edges_eq]
      exact he
    · rw [hr.edge_eq, hedge]
      exact hsource
    · rw [hr.edge_eq, hedge]
      exact htype
    · rw [hr.edge_eq, hedge]
      exact hsame

theorem flowKept :
    FlowKept (h.statements l) (h.placeOf l ρ) h' (h.function this).theCfg := by
  have hs := hk.flowShape hf
  have hstatement : ∀ v, (h'.vertex v).statement = (k.vertex v).statement := by
    intro v
    obtain ⟨_, _, hv⟩ :=
      (hr.contractsTo.contracted hr.fixedUp.consistent).vertex v
    rw [hr.result, (Heap.foldl_removeVertex_frame c _).1, hv,
      hr.fixedUp.statement_eq]
  have hkept : ∀ {p : Place}, p.InRange (h.statements l).length →
      (k.vertex (h.placeOf l ρ p)).statement.isRedundantKind = false →
        h.placeOf l ρ p ∈ (h'.graph (h.function this).theCfg).vertices := by
    intro p hp hkind
    rw [hr.placeOf_mem_iff hf hk hp, Heap.isRedundant, hr.fixedUp.statement_eq,
      hkind]
    rfl
  exact
    { injective := fun p q hp hq => hk.placeOf_injective hf hp hq
      vertices := fun v hv => hk.exists_placeOf hf ((hr.mem_vertices v).mp hv).1
      entry_mem := hkept (p := .entry) trivial (by
        rw [Heap.placeOf, hs.entry_statement]
        rfl)
      exit_mem := hkept (p := .exit) trivial (by
        rw [Heap.placeOf, hs.exit_statement]
        rfl)
      statement_mem := fun i st hst hkind =>
        hkept (Place.inRange_of_getElem? hst) (by
          rw [hk.statement_placeOf hf hw hst]
          exact hkind)
      statement := fun i st hst => by
        rw [hstatement, hk.statement_placeOf hf hw hst]
      realEdge_iff := fun p ty w hp hmem => hr.realEdge_iff hf hw hk hp hmem }

/-! ## Without the marked and the impossible edges -/

/-- What is reached comes to a redundant vertex by a real edge. -/
theorem inEdge_real (hgoes : ∀ st ∈ h.statements l, st.goesOn = true)
    {v : VertexPtr} {a b : EdgePtr} (hred : f.isRedundant v = true)
    (ha : (f.vertex v).inEdges = {a}) (hb : (f.vertex v).outEdges = {b})
    (hlive : ReflTransGen (f.EdgeStep (h.function this).theCfg) h.entryPtr v) :
    (f.edge a).edgeType.isImpossible = false := by
  have hs := hk.flowShape hf
  have hfix := hr.fixedUp
  have hkind := hred
  rw [Heap.isRedundant, Bool.and_eq_true, hfix.statement_eq] at hkind
  obtain ⟨hentry, hexit⟩ := hs.ne_of_isRedundantKind hkind.1
  -- It has been reached before `FixupBackEdges`, and that edge is its only one.
  rw [hfix.reflTransGen_iff hs.consistent hs.encloses
    (hs.vertices _ hs.entry_mem)] at hlive
  rcases ReflTransGen.cases_tail hlive with
    heq | ⟨w, hreach, e, he, hsource, htarget⟩
  · exact absurd heq hentry
  · obtain ⟨p, hp, hplace⟩ := hk.exists_within hf hw hgoes hreach
    obtain ⟨_, hedge, _⟩ :=
      hfix.old e (hs.consistent.lt_nextEdge (hs.consistent.edges_attached _ e he))
    have hea : e = a := by
      refine ((hfix.consistent.edges_eq ha hb).1 e).mp ?_
      rw [hedge, htarget]
    rw [← hea, hedge]
    rcases hk.realEdge_or_self hf hw hgoes he hp (hsource.trans hplace.symm) with
      ⟨q, hq, _⟩ | ⟨hend | hend, _⟩
    · exact hq.isImpossible
    · exact absurd (htarget.symm.trans hend) hentry
    · exact absurd (htarget.symm.trans hend) hexit

theorem followedAlong (hgoes : ∀ st ∈ h.statements l, st.goesOn = true) :
    f.PassesThrough (f.FollowedAlong (h.function this).theCfg h.entryPtr) := by
  have hs := hk.flowShape hf
  intro v a b hred ha hb
  have htaken := hr.fixedUp.takenAlong hs v a b hred ha hb
  have hbv := ((hr.fixedUp.consistent.edges_eq ha hb).2.1 b).mpr rfl
  constructor
  · rintro ⟨htake, _⟩
    exact ⟨htaken.mp htake, .inr (hbv.symm ▸ hred)⟩
  · rintro ⟨htake, _⟩
    refine ⟨htaken.mpr htake, .inl (hr.inEdge_real hf hw hk hgoes hred ha hb ?_)⟩
    rw [← hbv]
    exact htake.1

/-- What was reached, and has not been taken out of the way, is reached along
edges that are neither marked nor impossible. -/
theorem reaches_followed (hgoes : ∀ st ∈ h.statements l, st.goesOn = true)
    {v : VertexPtr}
    (hv : ReflTransGen (k.EdgeStep (h.function this).theCfg) h.entryPtr v)
    (hmem : v ∉ f.redundantVertices removalOrder (h.function this).theCfg) :
    ReflTransGen (h'.FollowedStep (h.function this).theCfg) h.entryPtr v := by
  have hs := hk.flowShape hf
  have hfix := hr.fixedUp
  -- The search of `FixupBackEdges` cuts nothing off.
  have hforward : ReflTransGen
      (k.ForwardStep fixupOrder (h.function this).theCfg
        (k.searchRoots fixupOrder (h.function this).theCfg h.entryPtr))
      h.entryPtr v :=
    hs.consistent.reaches_forwardStep hs.encloses hs.unmarked hv
  have hbefore : ReflTransGen
      (f.StepIn (h.function this).theCfg
        (f.FollowedAlong (h.function this).theCfg h.entryPtr)) h.entryPtr v ∧
      ReflTransGen (k.EdgeStep (h.function this).theCfg) h.entryPtr v := by
    clear hv hmem
    induction hforward with
    | refl => exact ⟨.refl, .refl⟩
    | @tail u w _ hstep ih =>
        obtain ⟨e, he, hsource, htarget, hmark, hnot⟩ := hstep
        refine ⟨?_, ih.2.tail ⟨e, he, hsource, htarget⟩⟩
        obtain ⟨p, hp, hplace⟩ := hk.exists_within hf hw hgoes ih.2
        rcases hk.realEdge_or_self hf hw hgoes he hp
          (hsource.trans hplace.symm) with ⟨q, hq, _⟩ | ⟨_, hself⟩
        · obtain ⟨isBackEdge, hedge, hiff⟩ := hfix.old e
            (hs.consistent.lt_nextEdge (hs.consistent.edges_attached _ e he))
          have hfalse : isBackEdge = false := by
            rw [← Bool.not_eq_true, hiff, hmark]
            exact not_or.mpr ⟨Bool.false_ne_true, hnot⟩
          have hlive := (hfix.reflTransGen_iff hs.consistent hs.encloses
            (hs.vertices _ hs.entry_mem) u).mpr ih.2
          refine ih.1.tail ⟨e, (hfix.mem_edges _ e).mpr (.inl he), ⟨⟨?_, .inl ?_⟩,
            .inl ?_⟩, ?_, ?_⟩ <;> rw [hedge]
          · rw [hsource]
            exact hlive
          · exact hfalse
          · exact hq.isImpossible
          · exact hsource
          · exact htarget
        · rw [← htarget, hself, hsource]
          exact ih.1
  have hafter := (hr.reflTransGen_iff (hr.followedAlong hf hw hk hgoes)
    (hr.notMem_removed_of_ne hs (.inl rfl)) hmem).mpr hbefore.1
  -- No edge is left that starts at a removed vertex.
  refine ReflTransGen.mono (fun u w hstep => ?_) _ _ hafter
  obtain ⟨e, he, ⟨⟨hreach, hmark⟩, hreal⟩, hsource, htarget⟩ := hstep
  have hold := he
  rw [hr.edges_eq] at hold
  obtain ⟨_, hedge⟩ := (hr.contractsTo.contracted hfix.consistent).edge e hold
  have hstart : f.isRedundant (f.edge e).source = false := by
    rw [← Bool.not_eq_true]
    intro hred
    refine (hr.contractsTo.edges_removed hfix.consistent _
      (hr.mem_removed_of_live hf hw hk hgoes hreach hred) e hold).1 ?_
    rw [hedge]
  refine ⟨e, he, hsource, htarget, ?_⟩
  rw [hr.edge_eq, hedge]
  rw [hstart] at hmark hreal
  exact ⟨hmark.resolve_right Bool.false_ne_true,
    hreal.resolve_right Bool.false_ne_true⟩

end CreateRun

omit hw hk hr in
/-- The phases of a run that has gone through. -/
theorem exists_createRun
    (hcreate : h.createControlFlowGraph fixupOrder removalOrder this l = .ok h') :
    ∃ k ρ f c, FlowConnected h this l ρ k ∧ CreateRun k fixupOrder removalOrder
      (h.function this).theCfg h.entryPtr f c h' := by
  obtain ⟨k, ρ, hrun, hk⟩ := connectedFlow_spec hf
  rcases createControlFlowGraph_spec hf hrun hk fixupOrder removalOrder with
    ⟨-, hfault⟩ | ⟨-, f, c, h'', hcreate', hr⟩
  · rw [hfault] at hcreate
    exact absurd hcreate (by simp)
  · obtain rfl := Except.ok.inj (hcreate'.symm.trans hcreate)
    exact ⟨k, ρ, f, c, hk, hr⟩

omit hf hw in
/-- What the function remembers of the vertices at its ends. -/
theorem CreateRun.entry_exit :
    h.placeOf l ρ .entry = (h'.function this).entryVertexDesc ∧
      h.placeOf l ρ .exit = (h'.function this).exitVertexDesc := by
  obtain ⟨_, _, hfunction, _⟩ := hk.function
  rw [hr.function_eq, hfunction, Function.update_self]
  exact ⟨rfl, rfl⟩

end createRun

/-! ## The whole function -/

theorem PassedOver.canReach {statements : List Statement}
    {place : Place → VertexPtr} {h : Heap} {g : GraphPtr} {p q : Place}
    (hover : ReflTransGen (PassedOver statements place h g) p q) :
    CanReach statements p q :=
  ReflTransGen.mono (fun _ _ hpq => hpq.2) _ _ hover

/-- What is reached along edges that are followed is what control can come
to. -/
theorem FlowKept.exists_canReach {statements : List Statement}
    {place : Place → VertexPtr} {h : Heap} {g : GraphPtr}
    (hk : FlowKept statements place h g) {v : VertexPtr}
    (hv : ReflTransGen (h.FollowedStep g) (place .entry) v) :
    ∃ q, CanReach statements .entry q ∧ place q ∈ (h.graph g).vertices ∧
      place q = v := by
  induction hv with
  | refl => exact ⟨.entry, .refl, hk.entry_mem, rfl⟩
  | tail _ hstep ih =>
      obtain ⟨p, hp, hmem, rfl⟩ := ih
      obtain ⟨e, he, hsource, htarget, -, hreal⟩ := hstep
      obtain ⟨x, q, hx, hover, hq, hplace⟩ :=
        (hk.realEdge_iff p _ _ (hp.inRange trivial) hmem).mp
          ⟨e, he, hsource, rfl, htarget, hreal⟩
      exact ⟨q, (hp.tail ⟨_, hx⟩).trans (PassedOver.canReach hover), hq, hplace⟩

/-- The place of a vertex that is left is reached along edges that are neither
marked nor impossible, when control can come to it. -/
theorem CreateRun.reaches_placeOf {h k : Heap} {this : FunctionPtr}
    {l : List VertexPtr} {ρ : VertexPtr → VertexPtr} (hf : h.Fresh this l)
    (hw : WellLabelled (h.statements l)) (hk : FlowConnected h this l ρ k)
    {fixupOrder removalOrder : IterationOrder} {f c h' : Heap}
    (hr : CreateRun k fixupOrder removalOrder (h.function this).theCfg h.entryPtr
      f c h') (hgoes : ∀ st ∈ h.statements l, st.goesOn = true) {q : Place}
    (hq : CanReach (h.statements l) .entry q)
    (hmem : h.placeOf l ρ q ∈ (h'.graph (h.function this).theCfg).vertices) :
    ReflTransGen (h'.FollowedStep (h.function this).theCfg)
      (h.placeOf l ρ .entry) (h.placeOf l ρ q) := by
  have hlive : ReflTransGen (k.EdgeStep (h.function this).theCfg) h.entryPtr
      (h.placeOf l ρ q) := by
    clear hmem
    induction hq with
    | refl => exact .refl
    | @tail p q hp hstep ih =>
        obtain ⟨ty, hpq⟩ := hstep
        obtain ⟨e, he, hsource, _, htarget, _⟩ :=
          (hk.realEdge_iff hf hw hpq.inRange.1).mpr ⟨q, hpq, rfl⟩
        exact ih.tail ⟨e, he, hsource, htarget⟩
  refine hr.reaches_followed hf hw hk hgoes hlive (hr.notMem_removed ?_)
  exact (hr.placeOf_mem_iff hf hk (hq.inRange trivial)).mp hmem

/-- The graph `CreateControlFlowGraph` makes has the control flow of the
statement list. -/
theorem createControlFlowGraph_flowKept {h h' : Heap} {this : FunctionPtr}
    {l : List VertexPtr} (hf : h.Fresh this l)
    (hw : WellLabelled (h.statements l)) {fixupOrder removalOrder : IterationOrder}
    (hcreate : h.createControlFlowGraph fixupOrder removalOrder this l = .ok h') :
    ∃ place : Place → VertexPtr,
      place .entry = (h'.function this).entryVertexDesc ∧
      place .exit = (h'.function this).exitVertexDesc ∧
        FlowKept (h.statements l) place h' (h.function this).theCfg := by
  obtain ⟨k, ρ, f, c, hk, hr⟩ := exists_createRun hf hcreate
  obtain ⟨hentry, hexit⟩ := hr.entry_exit hk
  exact ⟨h.placeOf l ρ, hentry, hexit, hr.flowKept hf hw hk⟩

/-- `CreateControlFlowGraph` goes through for `spinLoop`. -/
theorem spinLoop_create :
    ∃ h', (Heap.singleFunction spinLoop).2.createControlFlowGraph .ascending
        .ascending 1 (Heap.singleFunction spinLoop).1 = .ok h' ∧
      (Heap.singleFunction spinLoop).2.statements
        (Heap.singleFunction spinLoop).1 = spinLoop ∧ WellLabelled spinLoop ∧
        ((Heap.singleFunction spinLoop).2.function 1).theCfg = 1 := by
  have hcheck : ((Heap.singleFunction spinLoop).2.createControlFlowGraph .ascending
      .ascending 1 (Heap.singleFunction spinLoop).1).Holds fun _ =>
      (Heap.singleFunction spinLoop).2.statements
        (Heap.singleFunction spinLoop).1 = spinLoop ∧ WellLabelled spinLoop ∧
        ((Heap.singleFunction spinLoop).2.function 1).theCfg = 1 := by
    decide +kernel
  exact hcheck

/-- The goto of `spinLoop` is taken out of the way. -/
theorem createControlFlowGraph_flowKept_spinLoop :
    ∃ h', (Heap.singleFunction spinLoop).2.createControlFlowGraph .ascending
        .ascending 1 (Heap.singleFunction spinLoop).1 = .ok h' ∧
      ∃ place : Place → VertexPtr,
        place .entry = (h'.function 1).entryVertexDesc ∧
        place .exit = (h'.function 1).exitVertexDesc ∧
          FlowKept spinLoop place h' 1 := by
  obtain ⟨h', hcreate, hstatements, hw, hcfg⟩ := spinLoop_create
  have hkept := createControlFlowGraph_flowKept (Heap.singleFunction_fresh spinLoop)
    (hstatements.symm ▸ hw) hcreate
  rw [hstatements, hcfg] at hkept
  exact ⟨h', hcreate, hkept⟩

/-- Without the marked and the impossible edges ENTRY reaches what control can
come to, and nothing else. -/
theorem createControlFlowGraph_followed_iff {h h' : Heap} {this : FunctionPtr}
    {l : List VertexPtr} (hf : h.Fresh this l)
    (hw : WellLabelled (h.statements l))
    (hgoes : ∀ st ∈ h.statements l, st.goesOn = true)
    {fixupOrder removalOrder : IterationOrder}
    (hcreate : h.createControlFlowGraph fixupOrder removalOrder this l = .ok h') :
    ∃ place : Place → VertexPtr,
      FlowKept (h.statements l) place h' (h.function this).theCfg ∧
        ∀ v, ReflTransGen (h'.FollowedStep (h.function this).theCfg)
            (h'.function this).entryVertexDesc v ↔
          ∃ q, CanReach (h.statements l) .entry q ∧
            place q ∈ (h'.graph (h.function this).theCfg).vertices ∧
              place q = v := by
  obtain ⟨k, ρ, f, c, hk, hr⟩ := exists_createRun hf hcreate
  have hkept := hr.flowKept hf hw hk
  refine ⟨h.placeOf l ρ, hkept, fun v => ?_⟩
  rw [← (hr.entry_exit hk).1]
  constructor
  · exact hkept.exists_canReach
  · rintro ⟨q, hq, hmem, rfl⟩
    exact hr.reaches_placeOf hf hw hk hgoes hq hmem

theorem createControlFlowGraph_followed_iff_spinLoop :
    ∃ h', (Heap.singleFunction spinLoop).2.createControlFlowGraph .ascending
        .ascending 1 (Heap.singleFunction spinLoop).1 = .ok h' ∧
      ∃ place : Place → VertexPtr, FlowKept spinLoop place h' 1 ∧
        ∀ v, ReflTransGen (h'.FollowedStep 1) (h'.function 1).entryVertexDesc v ↔
          ∃ q, CanReach spinLoop .entry q ∧ place q ∈ (h'.graph 1).vertices ∧
            place q = v := by
  obtain ⟨h', hcreate, hstatements, hw, hcfg⟩ := spinLoop_create
  have hfollowed := createControlFlowGraph_followed_iff
    (Heap.singleFunction_fresh spinLoop) (hstatements.symm ▸ hw)
    (by rw [hstatements]; decide) hcreate
  rw [hstatements, hcfg] at hfollowed
  exact ⟨h', hcreate, hfollowed⟩

end CoFlo.Ports
