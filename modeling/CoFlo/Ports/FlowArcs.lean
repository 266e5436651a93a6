import CoFlo.Ports.Execution
import CoFlo.Ports.FlowShape

/-!
# The arcs of a statement list are its control flow

`CreateControlFlowGraph` finds its way with a label map and a chain of vertex
objects.  Read by the places of the list, the arcs it draws are exactly the ways
control can go (`mem_linkedArcs_iff`), and so are the edges of the graph that
`FixupBackEdges` is given, the impossible ones left aside
(`FlowConnected.realEdge_iff`).
-/

namespace CoFlo.Ports

section list

variable {h : Heap} {this : FunctionPtr} {l : List VertexPtr}
  (hf : h.Fresh this l) (hw : WellLabelled (h.statements l))

theorem length_statements (h : Heap) (l : List VertexPtr) :
    (h.statements l).length = l.length :=
  List.length_map _

/-- The vertex object of a place. -/
theorem placeOf_mem_originals {p : Place}
    (hp : p.InRange (h.statements l).length) :
    h.placeOf l id p ∈ h.originals l := by
  cases p with
  | entry => exact Heap.mem_originals.mpr (.inl rfl)
  | exit => exact Heap.mem_originals.mpr (.inr (.inl rfl))
  | statement i =>
      rw [length_statements] at hp
      have hlt : i < l.length := hp
      simp only [Heap.placeOf, List.getElem?_eq_getElem hlt, Option.elim]
      exact Heap.mem_originals.mpr (.inr (.inr (List.getElem_mem hlt)))

theorem placeOf_statement {ρ : VertexPtr → VertexPtr} {i : Nat} {v : VertexPtr}
    (hv : l[i]? = some v) : h.placeOf l ρ (.statement i) = ρ v := by
  rw [Heap.placeOf, hv]
  rfl

theorem exists_place {v : VertexPtr} (hv : v ∈ h.originals l) :
    ∃ p : Place, p.InRange (h.statements l).length ∧ h.placeOf l id p = v := by
  rcases Heap.mem_originals.mp hv with rfl | rfl | hv
  · exact ⟨.entry, trivial, rfl⟩
  · exact ⟨.exit, trivial, rfl⟩
  · obtain ⟨i, hi⟩ := List.getElem?_of_mem hv
    refine ⟨.statement i, ?_, placeOf_statement hi⟩
    rw [length_statements]
    exact (List.getElem?_eq_some_iff.mp hi).1

/-- The next vertex of the chain is that of the next place. -/
theorem getElem?_chain {i : Nat} (hle : i ≤ l.length) :
    (h.entryPtr :: l ++ [h.exitPtr])[i + 1]? =
      some (h.placeOf l id (.next (h.statements l).length i)) := by
  rw [List.cons_append, List.getElem?_cons_succ, length_statements, Place.next]
  by_cases hlt : i < l.length
  · rw [List.getElem?_append_left hlt, if_pos hlt, List.getElem?_eq_getElem hlt,
      placeOf_statement (List.getElem?_eq_getElem hlt)]
    rfl
  · obtain rfl : i = l.length := by omega
    rw [if_neg hlt]
    simp [Heap.placeOf]

include hf

omit hf in
theorem mem_filter_source {arcs : List Arc} {v w : VertexPtr} {ty : EdgeType} :
    (⟨v, ty, w⟩ : Arc) ∈ arcs ↔ ⟨v, ty, w⟩ ∈ arcs.filter (·.source = v) := by
  simp

/-- Control has one way to go from ENTRY and from what is no jump. -/
theorem mem_linkedArcs_of_not_endsBasicBlock {i : Nat} {v w : VertexPtr}
    {ty : EdgeType} (hv : (h.entryPtr :: l ++ [h.exitPtr])[i]? = some v)
    (hle : i ≤ l.length) (hends : h.endsBasicBlock v = false) :
    (⟨v, ty, w⟩ : Arc) ∈ h.linkedArcs l ↔
      ty = .fallthrough ∧
        h.placeOf l id (.next (h.statements l).length i) = w := by
  rw [mem_filter_source, Heap.linkedArcs,
    flowArcs_filter_of_getElem? hf hv (getElem?_chain hle), hends]
  simp only [Bool.false_eq_true, if_false, List.mem_singleton, Arc.mk.injEq,
    true_and]
  exact and_congr_right fun _ => eq_comm

include hw

/-- A defined label is looked up to where it is. -/
theorem labelMapOf_eq_some_iff {name : String} {t : VertexPtr}
    (hname : Statement.label name ∈ h.statements l) :
    h.labelMapOf l name = some t ↔
      ∃ j : Nat, (h.statements l)[j]? = some (.label name) ∧
        h.placeOf l id (.statement j) = t := by
  obtain ⟨i, u, hlabel, hi, hmap⟩ := labelMapOf_of_mem hf hname
  have hplace : h.placeOf l id (.statement i) = u := placeOf_statement hi
  constructor
  · intro ht
    have hut : u = t := Option.some.inj (hmap.symm.trans ht)
    exact ⟨i, hlabel, hplace.trans hut⟩
  · rintro ⟨j, hj, rfl⟩
    rw [hmap, ← hw.label_unique hlabel hj, hplace]

omit hf hw in
/-- What linking draws for a jump whose labels are known. -/
theorem mem_linkArcs_iff_jumps {m : LabelMap} {st : Statement}
    (hreturn : ∀ var, st ≠ .returnUnlinked var)
    (hdefined : ∀ name ∈ st.linkTargets, ∃ t, m name = some t) {ty : EdgeType}
    {w : VertexPtr} :
    (ty, w) ∈ Heap.linkArcs m st ↔
      ∃ name, (ty, name) ∈ st.jumps ∧ m name = some w := by
  cases st with
  | returnUnlinked var => exact absurd rfl (hreturn var)
  | ifUnlinked condition nameTrue nameFalse =>
      obtain ⟨t, ht⟩ := hdefined nameTrue (by simp [Statement.linkTargets])
      obtain ⟨t', ht'⟩ := hdefined nameFalse (by simp [Statement.linkTargets])
      simp only [Heap.linkArcs, Statement.jumps, ht, ht', List.mem_cons,
        List.not_mem_nil, or_false, Prod.mk.injEq]
      constructor
      · rintro (⟨rfl, rfl⟩ | ⟨rfl, rfl⟩)
        · exact ⟨nameTrue, .inl ⟨rfl, rfl⟩, ht⟩
        · exact ⟨nameFalse, .inr ⟨rfl, rfl⟩, ht'⟩
      · rintro ⟨name, ⟨rfl, rfl⟩ | ⟨rfl, rfl⟩, hname⟩
        · exact .inl ⟨rfl, Option.some.inj (hname.symm.trans ht)⟩
        · exact .inr ⟨rfl, Option.some.inj (hname.symm.trans ht')⟩
  | gotoUnlinked name | switchUnlinked caseList =>
      simp only [Heap.linkArcs, Heap.caseArcs, Statement.jumps, List.mem_map,
        List.mem_filterMap, List.mem_singleton, Prod.mk.injEq]
      grind
  | _ => simp [Heap.linkArcs, Statement.jumps]

/-- The jumps of a statement. -/
theorem mem_linkArcs_iff {i : Nat} {st : Statement} {ty : EdgeType}
    {w : VertexPtr} (hst : (h.statements l)[i]? = some st)
    (hflow : st.isFlowControlUnlinked = true) :
    (ty, w) ∈ Heap.linkArcs (h.labelMapOf l) st ↔
      ∃ q, FlowsTo (h.statements l) (.statement i) ty q ∧
        h.placeOf l id q = w := by
  have hmem := List.mem_of_getElem? hst
  have hother : ∀ {st' : Statement}, (h.statements l)[i]? = some st' → st = st' :=
    fun hst' => Option.some.inj (hst.symm.trans hst')
  by_cases hreturn : ∃ var, st = .returnUnlinked var
  · obtain ⟨var, rfl⟩ := hreturn
    have hexit : h.labelMapOf l "EXIT" = some h.exitPtr := by
      rcases labelMapOf_exit hf with ⟨hmap, _⟩ | ⟨j, _, hj, _⟩
      · exact hmap
      · exact absurd (List.mem_of_getElem? hj) hw.exit
    simp only [Heap.linkArcs, Heap.caseArcs, List.filterMap_cons, hexit,
      List.filterMap_nil, List.map_cons, List.map_nil, List.mem_singleton,
      Prod.mk.injEq]
    constructor
    · rintro ⟨rfl, rfl⟩
      exact ⟨_, .return_ hst, rfl⟩
    · rintro ⟨q, hq, hplace⟩
      cases hq with
      | fallthrough hst' hflow' =>
          obtain rfl := hother hst'
          exact absurd hflow' (by simp [Statement.isFlowControlUnlinked])
      | jump hst' hjump _ =>
          obtain rfl := hother hst'
          exact absurd hjump List.not_mem_nil
      | return_ _ => exact ⟨rfl, hplace.symm⟩
  · push Not at hreturn
    have hlabel : ∀ name ∈ st.linkTargets, ∀ t, h.labelMapOf l name = some t ↔
        ∃ j : Nat, (h.statements l)[j]? = some (Statement.label name) ∧
          h.placeOf l id (.statement j) = t := fun name hname t =>
      labelMapOf_eq_some_iff hf hw (hw.defined st hmem name hname)
    have hjumps : ∀ {ty : EdgeType} {name : String}, (ty, name) ∈ st.jumps →
        name ∈ st.linkTargets := by
      intro ty name hjump
      rw [← st.map_jumps]
      exact List.mem_map_of_mem hjump
    rw [mem_linkArcs_iff_jumps hreturn fun name hname => by
      obtain ⟨_, t, _, _, ht⟩ := labelMapOf_of_mem hf (hw.defined st hmem name hname)
      exact ⟨t, ht⟩]
    constructor
    · rintro ⟨name, hjump, hmap⟩
      obtain ⟨j, hj, hplace⟩ := (hlabel name (hjumps hjump) w).mp hmap
      exact ⟨_, .jump hst hjump hj, hplace⟩
    · rintro ⟨q, hq, hplace⟩
      cases hq with
      | fallthrough hst' hflow' =>
          obtain rfl := hother hst'
          exact absurd (hflow.symm.trans hflow') (by decide)
      | @jump _ j _ _ name hst' hjump hj =>
          obtain rfl := hother hst'
          exact ⟨name, hjump, (hlabel name (hjumps hjump) w).mpr ⟨j, hj, hplace⟩⟩
      | return_ hst' => exact absurd (hother hst') (hreturn _)

/-- The arcs of the list are the ways control can go. -/
theorem mem_linkedArcs_iff {p : Place} {ty : EdgeType} {w : VertexPtr}
    (hp : p.InRange (h.statements l).length) :
    (⟨h.placeOf l id p, ty, w⟩ : Arc) ∈ h.linkedArcs l ↔
      ∃ q, FlowsTo (h.statements l) p ty q ∧ h.placeOf l id q = w := by
  cases p with
  | entry =>
      have hends : h.endsBasicBlock h.entryPtr = false := by
        rw [Heap.endsBasicBlock, Heap.statementOf_entryPtr]
        rfl
      have harc : (⟨h.entryPtr, ty, w⟩ : Arc) ∈ h.linkedArcs l ↔
          ty = .fallthrough ∧
            h.placeOf l id (.next (h.statements l).length 0) = w :=
        mem_linkedArcs_of_not_endsBasicBlock hf rfl (Nat.zero_le _) hends
      refine harc.trans ⟨?_, ?_⟩
      · rintro ⟨rfl, hplace⟩
        exact ⟨_, .entry, hplace⟩
      · rintro ⟨q, hq, hplace⟩
        cases hq with
        | entry => exact ⟨rfl, hplace⟩
  | exit =>
      refine iff_of_false (fun ha => (linkedArcs_ends hf ha).1 rfl) ?_
      rintro ⟨q, hq, -⟩
      exact not_flowsTo_exit hq
  | statement i =>
      rw [length_statements] at hp
      have hlt : i < l.length := hp
      have hv : l[i]? = some l[i] := List.getElem?_eq_getElem hlt
      have hst := getElem?_statements hf hv
      rw [placeOf_statement hv, id]
      cases hends : h.endsBasicBlock l[i] with
      | false =>
          have hchain : (h.entryPtr :: l ++ [h.exitPtr])[i + 1]? = some l[i] := by
            rw [List.cons_append, List.getElem?_cons_succ,
              List.getElem?_append_left hlt, hv]
          refine (mem_linkedArcs_of_not_endsBasicBlock hf hchain hlt hends).trans
            ⟨?_, ?_⟩
          · rintro ⟨rfl, hplace⟩
            exact ⟨_, .fallthrough hst hends, hplace⟩
          · rintro ⟨q, hq, hplace⟩
            have hjump : ∀ {st : Statement}, (h.statements l)[i]? = some st →
                st.isFlowControlUnlinked = true → False := by
              intro st hst' hflow
              obtain rfl := Option.some.inj (hst.symm.trans hst')
              exact Bool.false_ne_true (hends.symm.trans hflow)
            cases hq with
            | fallthrough _ _ => exact ⟨rfl, hplace⟩
            | return_ hst' => exact (hjump hst' rfl).elim
            | jump hst' hmem _ =>
                exact (hjump hst'
                  (Statement.isFlowControlUnlinked_of_jumps hmem)).elim
      | true =>
          rw [mem_filter_source, linkedArcs_filter_of_endsBasicBlock hf
            (List.getElem_mem hlt) hends, ← mem_linkArcs_iff hf hw hst hends,
            Heap.jumpArcs, arcsFrom, List.mem_map]
          constructor
          · rintro ⟨arc, harc, heq⟩
            obtain ⟨-, rfl, rfl⟩ := Arc.mk.inj heq
            exact harc
          · intro harc
            exact ⟨_, harc, rfl⟩

end list

/-! ## The graph with all its edges -/

/-- An edge of the graph that is not an impossible one. -/
def Heap.RealEdge (h : Heap) (g : GraphPtr) (u : VertexPtr) (ty : EdgeType)
    (w : VertexPtr) : Prop :=
  ∃ e ∈ (h.graph g).edges, (h.edge e).source = u ∧ (h.edge e).edgeType = ty ∧
    (h.edge e).target = w ∧ ty.isImpossible = false

theorem Heap.realEdge_iff_arc {h : Heap} {g : GraphPtr} {u w : VertexPtr}
    {ty : EdgeType} :
    h.RealEdge g u ty w ↔ ⟨u, ty, w⟩ ∈ h.arcs g ∧ ty.isImpossible = false := by
  rw [Heap.arcs, Multiset.mem_map]
  constructor
  · rintro ⟨e, he, rfl, rfl, rfl, hreal⟩
    exact ⟨⟨e, he, rfl⟩, hreal⟩
  · rintro ⟨⟨e, he, heq⟩, hreal⟩
    obtain ⟨hsource, htype, htarget⟩ := Arc.mk.inj heq
    exact ⟨e, he, hsource, htype, htarget, hreal⟩

namespace FlowConnected

variable {h k : Heap} {this : FunctionPtr} {l : List VertexPtr}
  {ρ : VertexPtr → VertexPtr} (hf : h.Fresh this l)
  (hk : FlowConnected h this l ρ k)

include hf hk

theorem placeOf_eq (p : Place) (hp : p.InRange (h.statements l).length) :
    h.placeOf l ρ p = ρ (h.placeOf l id p) := by
  cases p with
  | entry => exact (hk.map_entryPtr hf).symm
  | exit => exact (hk.map_exitPtr hf).symm
  | statement i =>
      rw [length_statements] at hp
      have hlt : i < l.length := hp
      rw [placeOf_statement (List.getElem?_eq_getElem hlt),
        placeOf_statement (List.getElem?_eq_getElem hlt)]
      rfl

theorem placeOf_mem {p : Place} (hp : p.InRange (h.statements l).length) :
    h.placeOf l ρ p ∈ (k.graph (h.function this).theCfg).vertices := by
  rw [hk.placeOf_eq hf p hp]
  exact hk.mem_vertices_map (placeOf_mem_originals hp)

/-- The vertices of the graph are those of the places. -/
theorem exists_placeOf {v : VertexPtr}
    (hv : v ∈ (k.graph (h.function this).theCfg).vertices) :
    ∃ p : Place, p.InRange (h.statements l).length ∧ h.placeOf l ρ p = v := by
  rw [hk.vertices, Finset.mem_image] at hv
  obtain ⟨u, hu, rfl⟩ := hv
  obtain ⟨p, hp, rfl⟩ := exists_place hu
  exact ⟨p, hp, hk.placeOf_eq hf p hp⟩

omit hk in
theorem originalOf_injective {p q : Place}
    (hp : p.InRange (h.statements l).length)
    (hq : q.InRange (h.statements l).length)
    (heq : h.placeOf l id p = h.placeOf l id q) : p = q := by
  have hne : ∀ i, (Place.statement i).InRange (h.statements l).length →
      h.placeOf l id (.statement i) ≠ h.entryPtr ∧
        h.placeOf l id (.statement i) ≠ h.exitPtr := by
    intro i hi
    rw [length_statements] at hi
    have hlt : i < l.length := hi
    rw [placeOf_statement (List.getElem?_eq_getElem hlt)]
    exact ⟨hf.ne_entryPtr (List.getElem_mem hlt), hf.ne_exitPtr (List.getElem_mem hlt)⟩
  cases p with
  | entry =>
      cases q with
      | entry => rfl
      | exit => exact absurd heq h.entryPtr_ne_exitPtr
      | statement j => exact absurd heq.symm (hne j hq).1
  | exit =>
      cases q with
      | entry => exact absurd heq.symm h.entryPtr_ne_exitPtr
      | exit => rfl
      | statement j => exact absurd heq.symm (hne j hq).2
  | statement i =>
      cases q with
      | entry => exact absurd heq (hne i hp).1
      | exit => exact absurd heq (hne i hp).2
      | statement j =>
          rw [length_statements] at hp hq
          have hi : i < l.length := hp
          have hj : j < l.length := hq
          rw [placeOf_statement (List.getElem?_eq_getElem hi),
            placeOf_statement (List.getElem?_eq_getElem hj)] at heq
          exact congrArg _ ((List.Nodup.getElem_inj_iff hf.nodup).mp heq)

theorem placeOf_injective {p q : Place}
    (hp : p.InRange (h.statements l).length)
    (hq : q.InRange (h.statements l).length)
    (heq : h.placeOf l ρ p = h.placeOf l ρ q) : p = q := by
  rw [hk.placeOf_eq hf p hp, hk.placeOf_eq hf q hq] at heq
  exact originalOf_injective hf hp hq
    (hk.injOn (placeOf_mem_originals hp) (placeOf_mem_originals hq) heq)

/-- An arc of the graph from the vertex of a place is the way to another place,
or it is an impossible one. -/
theorem arcs_cases (hw : WellLabelled (h.statements l)) {p : Place}
    {ty : EdgeType} {w : VertexPtr} (hp : p.InRange (h.statements l).length) :
    (⟨h.placeOf l ρ p, ty, w⟩ : Arc) ∈ k.arcs (h.function this).theCfg ↔
      (∃ q, FlowsTo (h.statements l) p ty q ∧ h.placeOf l ρ q = w) ∨
        ⟨h.placeOf l ρ p, ty, w⟩ ∈ h.impossibleArcs l ∨
          ⟨h.placeOf l ρ p, ty, w⟩ ∈ h.selfArcs := by
  rw [hk.arcs, Multiset.mem_coe, List.append_assoc, List.mem_append,
    List.mem_append]
  refine or_congr_left ?_
  rw [List.mem_map, hk.placeOf_eq hf p hp]
  constructor
  · rintro ⟨a, ha, heq⟩
    obtain ⟨hsource, htype, htarget⟩ := Arc.mk.inj heq
    have hsame := hk.injOn (linkedArcs_mem ha).1 (placeOf_mem_originals hp) hsource
    have hmem : (⟨h.placeOf l id p, ty, a.target⟩ : Arc) ∈ h.linkedArcs l := by
      rw [← hsame, ← htype]
      exact ha
    obtain ⟨q, hq, hplace⟩ := (mem_linkedArcs_iff hf hw hp).mp hmem
    refine ⟨q, hq, ?_⟩
    rw [hk.placeOf_eq hf q hq.inRange.2, hplace]
    exact htarget
  · rintro ⟨q, hq, rfl⟩
    refine ⟨_, (mem_linkedArcs_iff hf hw hp).mpr ⟨q, hq, rfl⟩, ?_⟩
    rw [hk.placeOf_eq hf q hq.inRange.2]
    rfl

/-- The edges of the graph from a place, the impossible ones left aside, are
the ways control can go. -/
theorem realEdge_iff (hw : WellLabelled (h.statements l)) {p : Place}
    {ty : EdgeType} {w : VertexPtr} (hp : p.InRange (h.statements l).length) :
    k.RealEdge (h.function this).theCfg (h.placeOf l ρ p) ty w ↔
      ∃ q, FlowsTo (h.statements l) p ty q ∧ h.placeOf l ρ q = w := by
  rw [Heap.realEdge_iff_arc, hk.arcs_cases hf hw hp]
  constructor
  · rintro ⟨hflow | ha | ha, hreal⟩
    · exact hflow
    · obtain ⟨b, _, heq⟩ := List.mem_map.mp ha
      rw [← (Arc.mk.inj heq).2.1] at hreal
      exact absurd hreal (by decide)
    · simp only [Heap.selfArcs, List.mem_cons, List.not_mem_nil, or_false,
        Arc.mk.injEq] at ha
      rw [ha.elim (·.2.1) (·.2.1)] at hreal
      exact absurd hreal (by decide)
  · rintro ⟨q, hq, hplace⟩
    exact ⟨.inl ⟨q, hq, hplace⟩, hq.isImpossible⟩

end FlowConnected

end CoFlo.Ports
