import CoFlo.Ports.AddStatements

/-!
# The linking loop

Every round of the loop adds the jumps of one `FlowControlUnlinked` statement
and then replaces its vertex.  Edges added in earlier rounds may end at the
vertex being replaced, and `ReplaceVertex` moves them along, so at any time the
graph is the flow written down by the statement list with a renaming `ρ`
applied to it: `ρ` sends each statement to the vertex that is in the graph for
it now.  `LinkInv` is that invariant; `linkedFlow_spec` is its instance after
the last round.
-/

namespace CoFlo.Ports

open CoFlo.Verified.FoldInvariant

/-- The arcs that leave `v`. -/
def arcsFrom (v : VertexPtr) (out : List (EdgeType × VertexPtr)) : List Arc :=
  out.map fun arc => ⟨v, arc.1, arc.2⟩

namespace Heap

/-! ## Adding the jumps of one statement -/

section addOutArcs

variable (g : GraphPtr) (v : VertexPtr)

@[simp] theorem addOutArcs_statement (h : Heap)
    (out : List (EdgeType × VertexPtr)) (w : VertexPtr) :
    ((h.addOutArcs g v out).vertex w).statement = (h.vertex w).statement := by
  induction out generalizing h with
  | nil => rfl
  | cons arc out ih => rw [addOutArcs_cons, ih, addNewEdge_statement]

@[simp] theorem addOutArcs_owningFunction (h : Heap)
    (out : List (EdgeType × VertexPtr)) (w : VertexPtr) :
    ((h.addOutArcs g v out).vertex w).owningFunction =
      (h.vertex w).owningFunction := by
  induction out generalizing h with
  | nil => rfl
  | cons arc out ih => rw [addOutArcs_cons, ih, addNewEdge_owningFunction]

@[simp] theorem addOutArcs_vertexIndex (h : Heap)
    (out : List (EdgeType × VertexPtr)) (w : VertexPtr) :
    ((h.addOutArcs g v out).vertex w).vertexIndex =
      (h.vertex w).vertexIndex := by
  induction out generalizing h with
  | nil => rfl
  | cons arc out ih => rw [addOutArcs_cons, ih, addNewEdge_vertexIndex]

@[simp] theorem addOutArcs_vertexIdState (h : Heap)
    (out : List (EdgeType × VertexPtr)) (k : GraphPtr) :
    ((h.addOutArcs g v out).graph k).vertexIdState =
      (h.graph k).vertexIdState := by
  induction out generalizing h with
  | nil => rfl
  | cons arc out ih => rw [addOutArcs_cons, ih, addNewEdge_vertexIdState]

@[simp] theorem addOutArcs_vertices (h : Heap)
    (out : List (EdgeType × VertexPtr)) (k : GraphPtr) :
    ((h.addOutArcs g v out).graph k).vertices = (h.graph k).vertices := by
  induction out generalizing h with
  | nil => rfl
  | cons arc out ih => rw [addOutArcs_cons, ih, addNewEdge_vertices]

@[simp] theorem addOutArcs_function (h : Heap)
    (out : List (EdgeType × VertexPtr)) :
    (h.addOutArcs g v out).function = h.function := by
  induction out generalizing h with
  | nil => rfl
  | cons arc out ih => rw [addOutArcs_cons, ih, addNewEdge_function]

@[simp] theorem addOutArcs_nextVertex (h : Heap)
    (out : List (EdgeType × VertexPtr)) :
    (h.addOutArcs g v out).nextVertex = h.nextVertex := by
  induction out generalizing h with
  | nil => rfl
  | cons arc out ih => rw [addOutArcs_cons, ih, addNewEdge_nextVertex]

theorem Consistent.addOutArcs {h : Heap} (hc : h.Consistent) (hv : v ≠ null)
    (hvlt : v < h.nextVertex) {out : List (EdgeType × VertexPtr)}
    (hout : ∀ arc ∈ out, arc.2 ≠ null ∧ arc.2 < h.nextVertex) :
    (h.addOutArcs g v out).Consistent := by
  induction out generalizing h with
  | nil => exact hc
  | cons arc out ih =>
      obtain ⟨hne, hlt⟩ := hout arc List.mem_cons_self
      exact ih (hc.addNewEdge g arc.1 hv hne hvlt hlt) hvlt
        fun a ha => hout a (List.mem_cons_of_mem _ ha)

theorem Consistent.arcs_addOutArcs {h : Heap} (hc : h.Consistent)
    (hv : v ≠ null) (hvlt : v < h.nextVertex)
    {out : List (EdgeType × VertexPtr)}
    (hout : ∀ arc ∈ out, arc.2 ≠ null ∧ arc.2 < h.nextVertex) :
    (h.addOutArcs g v out).arcs g = h.arcs g + arcsFrom v out := by
  induction out generalizing h with
  | nil => simp [arcsFrom]
  | cons arc out ih =>
      obtain ⟨hne, hlt⟩ := hout arc List.mem_cons_self
      have hc' := hc.addNewEdge g arc.1 hv hne hvlt hlt
      rw [addOutArcs_cons, ih hc' hvlt
        (fun a ha => hout a (List.mem_cons_of_mem _ ha)),
        hc.arcs_addNewEdge, arcsFrom, arcsFrom, List.map_cons,
        ← Multiset.cons_coe, Multiset.cons_add, Multiset.add_cons]

theorem Encloses.addOutArcs {h : Heap} {M : Set VertexPtr}
    (hM : h.Encloses g M) (hv : v ∈ M) {out : List (EdgeType × VertexPtr)}
    (hout : ∀ arc ∈ out, arc.2 ∈ M) : (h.addOutArcs g v out).Encloses g M := by
  induction out generalizing h with
  | nil => exact hM
  | cons arc out ih =>
      exact ih (hM.addNewEdge arc.1 hv (hout arc List.mem_cons_self))
        fun a ha => hout a (List.mem_cons_of_mem _ ha)

theorem Confined.addOutArcs {h h' : Heap} {M : Set VertexPtr}
    (hM : h'.Confined g M h) (hv : v ∈ M) (out : List (EdgeType × VertexPtr)) :
    h'.Confined g M (h.addOutArcs g v out) := by
  induction out generalizing h with
  | nil => exact hM
  | cons arc out ih => exact ih (hM.addNewEdge arc.2 arc.1 hv)

theorem addOutArcs_unmarked {h : Heap} (out : List (EdgeType × VertexPtr))
    (hh : ∀ e ∈ (h.graph g).edges, (h.edge e).isBackEdge = false) :
    ∀ e ∈ ((h.addOutArcs g v out).graph g).edges,
      ((h.addOutArcs g v out).edge e).isBackEdge = false := by
  induction out generalizing h with
  | nil => exact hh
  | cons arc out ih =>
      refine ih fun e he => ?_
      rw [addNewEdge_edges_self, Finset.mem_insert] at he
      rw [addNewEdge_edge]
      split_ifs with hnext
      · rfl
      · exact hh e (he.resolve_left hnext)

end addOutArcs

/-! ## The label map of the list -/

theorem addLabels_eq {statement : VertexPtr → Statement} {m : LabelMap}
    {l : List VertexPtr} {name : String} {t : VertexPtr}
    (ht : addLabels statement m l name = some t) :
    (t ∈ l ∧ statement t = .label name) ∨ m name = some t := by
  induction l generalizing m with
  | nil => exact .inr ht
  | cons v l ih =>
      rcases ih ht with ⟨hmem, hlabel⟩ | hm
      · exact .inl ⟨List.mem_cons_of_mem _ hmem, hlabel⟩
      · cases hst : (statement v).labelIdentifier with
        | none =>
            simp only [LabelMap.addLabel, hst] at hm
            exact .inr hm
        | some identifier =>
            simp only [LabelMap.addLabel, hst, LabelMap.set,
              Function.update_apply] at hm
            split_ifs at hm with hname
            · left
              injection hm with hvt
              subst hvt hname
              refine ⟨List.mem_cons_self, ?_⟩
              cases hv : statement v <;>
                simp_all [Statement.labelIdentifier]
            · exact .inr hm

/-- A label name stands for a label of the list, or for EXIT. -/
theorem labelMapOf_eq {h : Heap} {l : List VertexPtr} {name : String}
    {t : VertexPtr} (ht : h.labelMapOf l name = some t) :
    (t ∈ l ∧ h.statementOf t = .label name) ∨ (t = h.exitPtr ∧ name = "EXIT") := by
  rcases addLabels_eq ht with hlabel | hexit
  · exact .inl hlabel
  · right
    simp only [LabelMap.set, Function.update_apply] at hexit
    split_ifs at hexit with hname
    exact ⟨(Option.some.inj hexit).symm, hname⟩

/-- Jump targets do not end their basic block, so they are never replaced. -/
theorem endsBasicBlock_of_labelMapOf {h : Heap} {l : List VertexPtr}
    {name : String} {t : VertexPtr} (ht : h.labelMapOf l name = some t) :
    h.endsBasicBlock t = false := by
  rcases labelMapOf_eq ht with ⟨_, hlabel⟩ | ⟨hexit, _⟩
  · rw [endsBasicBlock, hlabel]; rfl
  · rw [endsBasicBlock, hexit, statementOf_exitPtr]; rfl

theorem mem_linkArcs {m : LabelMap} {st : Statement} {arc : EdgeType × VertexPtr}
    (harc : arc ∈ linkArcs m st) : ∃ name, m name = some arc.2 := by
  have hcase : ∀ caseList, arc ∈ caseArcs m caseList →
      ∃ name, m name = some arc.2 := by
    intro caseList hmem
    simp only [caseArcs, List.mem_map, List.mem_filterMap] at hmem
    obtain ⟨v, ⟨name, _, hname⟩, heq⟩ := hmem
    exact ⟨name, by rw [hname, ← heq]⟩
  cases st with
  | ifUnlinked condition ifTrue ifFalse =>
      simp only [linkArcs] at harc
      split at harc
      · rename_i htrue hfalse
        simp only [List.mem_cons, List.not_mem_nil, or_false] at harc
        rcases harc with heq | heq
        · exact ⟨ifTrue, by rw [htrue, heq]⟩
        · exact ⟨ifFalse, by rw [hfalse, heq]⟩
      · exact absurd harc List.not_mem_nil
  | gotoUnlinked linkTargetName => exact hcase _ harc
  | returnUnlinked returnVarName => exact hcase _ harc
  | switchUnlinked caseList => exact hcase _ harc
  | _ => exact absurd harc List.not_mem_nil

/-! ## The flow of a statement list -/

/-- The jumps of one statement. -/
def jumpArcs (h : Heap) (l : List VertexPtr) (v : VertexPtr) : List Arc :=
  arcsFrom v (linkArcs (h.labelMapOf l) (h.statementOf v))

/-- The flow of control that a statement list describes: fallthrough along the
list, and the jumps of the statements in `linked`. -/
def flowArcs (h : Heap) (l linked : List VertexPtr) : List Arc :=
  fallthroughArcs h.endsBasicBlock (h.entryPtr :: l ++ [h.exitPtr]) ++
    linked.flatMap (h.jumpArcs l)

/-- The statement that linking puts in the place of a statement, if any. -/
def replacement (h : Heap) (l : List VertexPtr) (v : VertexPtr) :
    Option Statement :=
  linkedStatement (h.labelMapOf l) (h.statementOf v)

theorem endsBasicBlock_of_replacement {h : Heap} {l : List VertexPtr}
    {v : VertexPtr} {new : Statement} (hnew : h.replacement l v = some new) :
    h.endsBasicBlock v = true :=
  (linkedStatement_cases (h.labelMapOf l) hnew).1

/-- ENTRY, EXIT and the statements of the list, as they were created. -/
def originals (h : Heap) (l : List VertexPtr) : Finset VertexPtr :=
  insert h.entryPtr (insert h.exitPtr l.toFinset)

/-- All vertices that have been put into the graph, also those that have been
replaced since. -/
def indexedVertices (h : Heap) (l : List VertexPtr) (k : Heap) :
    Set VertexPtr :=
  {v | v ∈ h.originals l ∨ h.nextVertex + 2 ≤ v ∧ v < k.nextVertex}

theorem mem_originals {h : Heap} {l : List VertexPtr} {v : VertexPtr} :
    v ∈ h.originals l ↔ v = h.entryPtr ∨ v = h.exitPtr ∨ v ∈ l := by
  simp [originals]

theorem Fresh.lt_of_mem_originals {h : Heap} {this : FunctionPtr}
    {l : List VertexPtr} (hf : h.Fresh this l) {v : VertexPtr}
    (hv : v ∈ h.originals l) : v < h.nextVertex + 2 := by
  rcases mem_originals.mp hv with rfl | rfl | hv
  · exact Nat.lt_add_of_pos_right (by decide)
  · exact Nat.lt_succ_self _
  · exact Nat.lt_add_right 2 (hf.lt_nextVertex v hv)

theorem Fresh.owned_of_mem_originals {h : Heap} {this : FunctionPtr}
    {l : List VertexPtr} (_ : h.Fresh this l) {v : VertexPtr}
    (hv : v ∈ h.originals l) : v ∈ h.owned l := by
  rcases mem_originals.mp hv with rfl | rfl | hv
  · exact .inr (Nat.le_refl _)
  · exact .inr (Nat.le_succ _)
  · exact .inl hv

theorem mem_originals_of_labelMapOf {h : Heap} {l : List VertexPtr}
    {name : String} {t : VertexPtr} (ht : h.labelMapOf l name = some t) :
    t ∈ h.originals l := by
  rcases labelMapOf_eq ht with ⟨hmem, _⟩ | ⟨hexit, _⟩
  · exact mem_originals.mpr (.inr (.inr hmem))
  · exact mem_originals.mpr (.inr (.inl hexit))

end Heap

/-! ## The invariant of the loop -/

/-- The heap after the statements of `pre` have been linked; `ρ` renames every
vertex to the one that is in the graph for it. -/
structure LinkInv (h : Heap) (this : FunctionPtr) (l pre : List VertexPtr)
    (ρ : VertexPtr → VertexPtr) (k : Heap) : Prop where
  consistent : k.Consistent
  encloses : k.Encloses (h.function this).theCfg (h.owned l)
  confined : h.Confined (h.function this).theCfg (h.owned l) k
  function : k.function = Function.update h.function this
    { h.function this with
      entryVertexDesc := h.entryPtr, exitVertexDesc := h.exitPtr }
  nextVertex_le : h.nextVertex + 2 ≤ k.nextVertex
  statement_old : ∀ v, v < h.nextVertex + 2 →
    (k.vertex v).statement = h.statementOf v
  linked : ∀ v ∈ pre, ∀ new, h.replacement l v = some new →
    h.nextVertex + 2 ≤ ρ v ∧ ρ v < k.nextVertex ∧
      (k.vertex (ρ v)).statement = new
  kept : ∀ v, (v ∈ pre → h.replacement l v = none) → ρ v = v
  injOn : Set.InjOn ρ (h.originals l)
  vertices : (k.graph (h.function this).theCfg).vertices =
    (h.originals l).image ρ
  arcs : k.arcs (h.function this).theCfg =
    ((h.flowArcs l pre).map (Arc.map ρ) : List Arc)
  unmarked : ∀ e ∈ (k.graph (h.function this).theCfg).edges,
    (k.edge e).isBackEdge = false
  owner : ∀ v ∈ h.originals l, (k.vertex v).owningFunction = this
  owner_notMem : ∀ v, v ∉ h.originals l →
    (k.vertex v).owningFunction = (h.vertex v).owningFunction
  indexed : k.Indexed (h.function this).theCfg (h.indexedVertices l k)
  entryIndex : (k.vertex h.entryPtr).vertexIndex =
    (h.graph (h.function this).theCfg).vertexIdState
  exitIndex : (k.vertex h.exitPtr).vertexIndex =
    (h.graph (h.function this).theCfg).vertexIdState + 1

theorem LinkInv.init {h : Heap} {this : FunctionPtr} {l : List VertexPtr}
    {s : CreateState} (hs : StatementsAdded h this l s) :
    LinkInv h this l [] id s.heap where
  consistent := hs.consistent
  encloses := hs.encloses
  confined := hs.confined
  function := hs.function
  nextVertex_le := Nat.le_of_eq hs.nextVertex.symm
  statement_old v _ := hs.statement v
  linked v hv := absurd hv List.not_mem_nil
  kept _ _ := rfl
  injOn := Set.injOn_id _
  vertices := by rw [Finset.image_id, hs.vertices, Heap.originals]
  arcs := by
    have hmap : Arc.map id = id := funext Arc.map_id
    rw [hs.arcs_eq, hmap, List.map_id, Heap.flowArcs, List.flatMap_nil,
      List.append_nil]
  unmarked := hs.unmarked
  owner v hv := hs.owner v (by rw [hs.vertices]; exact hv)
  owner_notMem v hv := hs.owner_notMem v (by rw [hs.vertices]; exact hv)
  indexed := by
    refine hs.indexed.subset ?_
    rintro v (hv | ⟨hle, hlt⟩)
    · rw [Finset.mem_coe, hs.vertices]
      exact hv
    · rw [hs.nextVertex] at hlt
      exact absurd hlt (Nat.not_lt.mpr hle)
  entryIndex := hs.entryIndex
  exitIndex := hs.exitIndex

namespace LinkInv

variable {h k : Heap} {this : FunctionPtr} {l pre : List VertexPtr}
  {ρ : VertexPtr → VertexPtr}

/-- Renamed vertices are allocated. -/
theorem lt_nextVertex (hi : LinkInv h this l pre ρ k) (hf : h.Fresh this l)
    {v : VertexPtr} (hv : v ∈ h.originals l) : ρ v < k.nextVertex := by
  by_cases hpre : v ∈ pre
  · cases hnew : h.replacement l v with
    | some new => exact (hi.linked v hpre new hnew).2.1
    | none =>
        rw [hi.kept v fun _ => hnew]
        exact Nat.lt_of_lt_of_le (hf.lt_of_mem_originals hv) hi.nextVertex_le
  · rw [hi.kept v fun hmem => absurd hmem hpre]
    exact Nat.lt_of_lt_of_le (hf.lt_of_mem_originals hv) hi.nextVertex_le

/-- Jump targets stay where they are. -/
theorem map_labelMapOf (hi : LinkInv h this l pre ρ k) {name : String}
    {t : VertexPtr} (ht : h.labelMapOf l name = some t) : ρ t = t := by
  refine hi.kept t fun _ => ?_
  cases hnew : h.replacement l t with
  | none => rfl
  | some new =>
      have hflow := Heap.endsBasicBlock_of_replacement hnew
      rw [Heap.endsBasicBlock_of_labelMapOf ht] at hflow
      exact absurd hflow (by decide)

end LinkInv

/-- A statement that cannot be linked leaves everything as it is. -/
theorem LinkInv.skip {h k : Heap} {this : FunctionPtr} {l pre : List VertexPtr}
    {ρ : VertexPtr → VertexPtr} {v : VertexPtr}
    (hi : LinkInv h this l pre ρ k) (hnone : h.replacement l v = none) :
    LinkInv h this l (pre ++ [v]) ρ k :=
  { hi with
    linked := fun w hw new hnew => by
      rcases List.mem_append.mp hw with hw | hw
      · exact hi.linked w hw new hnew
      · rw [List.mem_singleton.mp hw, hnone] at hnew
        exact absurd hnew (by simp)
    kept := fun w hw => hi.kept w fun hmem => hw (List.mem_append_left _ hmem)
    arcs := by
      have hjump : h.jumpArcs l v = [] := by
        rw [Heap.jumpArcs, Heap.linkArcs_eq_nil _ hnone]
        rfl
      rw [hi.arcs, Heap.flowArcs, Heap.flowArcs, List.flatMap_append,
        List.flatMap_singleton, hjump, List.append_nil] }

/-- The heap of one successful round, before the vertex is replaced. -/
private def jumpsAdded (h : Heap) (l : List VertexPtr) (cfg : GraphPtr)
    (k : Heap) (v : VertexPtr) : Heap :=
  k.addOutArcs cfg v (Heap.linkArcs (h.labelMapOf l) (h.statementOf v))

section jumpsAdded

variable {h k : Heap} {this : FunctionPtr} {l pre : List VertexPtr}
  {ρ : VertexPtr → VertexPtr} {v : VertexPtr} (hf : h.Fresh this l)
  (hi : LinkInv h this l pre ρ k) (hv : v ∈ l)

include hi

private theorem linkTargets_bound :
    ∀ arc ∈ Heap.linkArcs (h.labelMapOf l) (h.statementOf v),
      arc.2 ∈ h.originals l ∧ ρ arc.2 = arc.2 := by
  intro arc harc
  obtain ⟨name, hname⟩ := Heap.mem_linkArcs harc
  exact ⟨Heap.mem_originals_of_labelMapOf hname, hi.map_labelMapOf hname⟩

include hf

private theorem linkTargets_alloc :
    ∀ arc ∈ Heap.linkArcs (h.labelMapOf l) (h.statementOf v),
      arc.2 ≠ null ∧ arc.2 < k.nextVertex := by
  intro arc harc
  obtain ⟨hmem, _⟩ := linkTargets_bound hi arc harc
  exact ⟨hf.ne_null_of_owned (hf.owned_of_mem_originals hmem),
    Nat.lt_of_lt_of_le (hf.lt_of_mem_originals hmem) hi.nextVertex_le⟩

include hv

private theorem lt_nextVertex_of_mem : v < k.nextVertex :=
  Nat.lt_of_lt_of_le (Nat.lt_add_right 2 (hf.lt_nextVertex v hv))
    hi.nextVertex_le

private theorem jumpsAdded_consistent :
    (jumpsAdded h l (h.function this).theCfg k v).Consistent :=
  hi.consistent.addOutArcs _ v (hf.ne_null v hv)
    (lt_nextVertex_of_mem hf hi hv) (linkTargets_alloc hf hi)

private theorem jumpsAdded_encloses :
    (jumpsAdded h l (h.function this).theCfg k v).Encloses
      (h.function this).theCfg (h.owned l) :=
  hi.encloses.addOutArcs _ v (.inl hv) fun arc harc =>
    hf.owned_of_mem_originals (linkTargets_bound hi arc harc).1

/-- The new arcs, too, are renamed arcs of the list: the statement being linked
and its targets have not been replaced. -/
private theorem jumpsAdded_arcs (hkept : ρ v = v) :
    (jumpsAdded h l (h.function this).theCfg k v).arcs (h.function this).theCfg =
      ((h.flowArcs l (pre ++ [v])).map (Arc.map ρ) : List Arc) := by
  have hjump : (h.jumpArcs l v).map (Arc.map ρ) = h.jumpArcs l v := by
    rw [Heap.jumpArcs, arcsFrom, List.map_map]
    refine List.map_congr_left fun arc harc => ?_
    simp only [Function.comp_apply, Arc.map, hkept,
      (linkTargets_bound hi arc harc).2]
  have hflow : (h.flowArcs l (pre ++ [v])).map (Arc.map ρ) =
      (h.flowArcs l pre).map (Arc.map ρ) ++ h.jumpArcs l v := by
    have hsplit : h.flowArcs l (pre ++ [v]) =
        h.flowArcs l pre ++ h.jumpArcs l v := by
      rw [Heap.flowArcs, Heap.flowArcs, List.flatMap_append,
        List.flatMap_singleton, ← List.append_assoc]
    rw [hsplit, List.map_append, hjump]
  rw [jumpsAdded, hi.consistent.arcs_addOutArcs _ v (hf.ne_null v hv)
    (lt_nextVertex_of_mem hf hi hv) (linkTargets_alloc hf hi), hi.arcs, hflow,
    ← Multiset.coe_add]
  rfl

end jumpsAdded

/-- The heap of one successful round. -/
private def statementLinked (h : Heap) (l : List VertexPtr) (cfg : GraphPtr)
    (k : Heap) (v : VertexPtr) (new : Statement) : Heap :=
  (((jumpsAdded h l cfg k v).newVertex new
    ((jumpsAdded h l cfg k v).vertex v).location).2).vertexReplaced cfg v
      k.nextVertex

/-- A statement that can be linked is replaced by a vertex made on the spot. -/
private theorem LinkInv.replace {h k : Heap} {this : FunctionPtr}
    {l pre : List VertexPtr} {ρ : VertexPtr → VertexPtr} {v : VertexPtr}
    {new : Statement} (hf : h.Fresh this l) (hi : LinkInv h this l pre ρ k)
    (hv : v ∈ l) (hpre : v ∉ pre) (hnew : h.replacement l v = some new) :
    LinkInv h this l (pre ++ [v]) (renameVertex v k.nextVertex ∘ ρ)
      (statementLinked h l (h.function this).theCfg k v new) := by
  have hvOrig : v ∈ h.originals l := Heap.mem_originals.mpr (.inr (.inr hv))
  have hvlt := lt_nextVertex_of_mem hf hi hv
  have hne : v ≠ k.nextVertex := Nat.ne_of_lt hvlt
  have hkept : ρ v = v := hi.kept v fun hmem => absurd hmem hpre
  -- No other vertex has been renamed to `v`.
  have hother : ∀ u ∈ h.originals l, u ≠ v → ρ u ≠ v := by
    intro u hu hune heq
    exact hune (hi.injOn hu hvOrig (heq.trans hkept.symm))
  have hfresh : ∀ u ∈ h.originals l, ρ u ≠ k.nextVertex := fun u hu =>
    Nat.ne_of_lt (hi.lt_nextVertex hf hu)
  -- The heap with the new vertex object.
  have hc₁ := jumpsAdded_consistent hf hi hv
  have henc₁ := jumpsAdded_encloses hf hi hv
  have harcs₁ := jumpsAdded_arcs hf hi hv hkept
  have hnext₁ : (jumpsAdded h l (h.function this).theCfg k v).nextVertex =
      k.nextVertex := Heap.addOutArcs_nextVertex _ _ _ _
  obtain ⟨k₂, hk₂⟩ : ∃ k₂, k₂ = ((jumpsAdded h l (h.function this).theCfg k
      v).newVertex new ((jumpsAdded h l (h.function this).theCfg k v).vertex
        v).location).2 := ⟨_, rfl⟩
  have hc₂ : k₂.Consistent := hk₂ ▸ hc₁.newVertex _ _
  have hnext₂ : k₂.nextVertex = k.nextVertex + 1 := by
    rw [hk₂, ← hnext₁]
    rfl
  have hout₂ : (k₂.vertex k.nextVertex).outEdges = ∅ := by
    rw [hk₂, hc₁.newVertex_outEdges,
      hc₁.outEdges_eq_empty (Nat.le_of_eq hnext₁)]
  have hin₂ : (k₂.vertex k.nextVertex).inEdges = ∅ := by
    rw [hk₂, hc₁.newVertex_inEdges,
      hc₁.inEdges_eq_empty (Nat.le_of_eq hnext₁)]
  have hstatement₂ : ∀ w, (k₂.vertex w).statement =
      if w = k.nextVertex then new else (k.vertex w).statement := by
    intro w
    rw [hk₂, Heap.newVertex_statement, hnext₁, jumpsAdded,
      Heap.addOutArcs_statement]
  have hvertices₂ : (k₂.graph (h.function this).theCfg).vertices =
      (h.originals l).image ρ := by
    rw [← hi.vertices, hk₂]
    exact Heap.addOutArcs_vertices _ _ _ _ _
  have harcs₂ : k₂.arcs (h.function this).theCfg =
      ((h.flowArcs l (pre ++ [v])).map (Arc.map ρ) : List Arc) := by
    rw [← harcs₁]
    exact Heap.arcs_congr (by rw [hk₂]; rfl) (by rw [hk₂]; rfl)
  have henc₂ : k₂.Encloses (h.function this).theCfg (h.owned l) :=
    henc₁.congr (by rw [hk₂]; rfl) (by rw [hk₂]; rfl)
  have hconf₂ : h.Confined (h.function this).theCfg (h.owned l) k₂ :=
    (hi.confined.addOutArcs _ v (.inl hv) _).congr (by rw [hk₂]; rfl)
      (fun _ _ => by rw [hk₂]; rfl)
      (fun _ _ => by rw [hk₂, Heap.newVertex_vertexIndex]; rfl)
      (by rw [hk₂]; rfl)
  have hunmarked₂ : ∀ e ∈ (k₂.graph (h.function this).theCfg).edges,
      (k₂.edge e).isBackEdge = false := by
    rw [hk₂]
    exact Heap.addOutArcs_unmarked _ v _ hi.unmarked
  have howner₂ : ∀ w, (k₂.vertex w).owningFunction =
      (k.vertex w).owningFunction := by
    intro w
    rw [hk₂, Heap.newVertex_owningFunction, jumpsAdded,
      Heap.addOutArcs_owningFunction]
  have hindex₂ : ∀ w, (k₂.vertex w).vertexIndex = (k.vertex w).vertexIndex := by
    intro w
    rw [hk₂, Heap.newVertex_vertexIndex, jumpsAdded,
      Heap.addOutArcs_vertexIndex]
  have hindexed₂ : k₂.Indexed (h.function this).theCfg
      (h.indexedVertices l k) := by
    refine hi.indexed.congr (fun w _ => hindex₂ w) (Nat.le_of_eq ?_)
    rw [hk₂]
    exact (Heap.addOutArcs_vertexIdState _ _ _ _ _).symm
  have hfresh' : ∀ u ∈ h.originals l, u ≠ k.nextVertex := fun u hu =>
    Nat.ne_of_lt (Nat.lt_of_lt_of_le (hf.lt_of_mem_originals hu)
      hi.nextVertex_le)
  have hnotIndexed : k.nextVertex ∉ h.indexedVertices l k := by
    rintro (hmem | ⟨_, hlt⟩)
    · exact hfresh' _ hmem rfl
    · exact Nat.lt_irrefl _ hlt
  have hnull : k.nextVertex ≠ null :=
    Nat.ne_of_gt hi.consistent.null_lt_nextVertex
  rw [statementLinked, ← hk₂]
  exact
    { consistent := hc₂.vertexReplaced _ (hf.ne_null v hv) hnull
        (by rw [hnext₂]; exact Nat.lt_succ_self _) hne hout₂ hin₂
      encloses := henc₂.vertexReplaced hc₂ (hf.ne_null v hv) (.inl hv)
        (.inr (Nat.le_trans (Nat.le_add_right _ 2) hi.nextVertex_le))
      confined := hconf₂.vertexReplaced hc₂ (hf.ne_null v hv) (.inl hv)
        (.inr (Nat.le_trans (Nat.le_add_right _ 2) hi.nextVertex_le))
      function := by
        rw [Heap.vertexReplaced_function, hk₂]
        exact (Heap.addOutArcs_function _ _ _ _).trans hi.function
      nextVertex_le := by
        rw [Heap.vertexReplaced_nextVertex, hnext₂]
        exact Nat.le_succ_of_le hi.nextVertex_le
      statement_old := fun w hw => by
        rw [Heap.vertexReplaced_statement, hstatement₂,
          if_neg (Nat.ne_of_lt (Nat.lt_of_lt_of_le hw hi.nextVertex_le)),
          hi.statement_old w hw]
      linked := fun w hw new' hnew' => by
        simp only [Function.comp_apply, Heap.vertexReplaced_nextVertex, hnext₂,
          Heap.vertexReplaced_statement, hstatement₂]
        rcases List.mem_append.mp hw with hw | hw
        · obtain ⟨hge, hlt, hst⟩ := hi.linked w hw new' hnew'
          have hρ : ρ w ≠ v := by
            have hvlt' := hf.lt_of_mem_originals hvOrig
            exact Nat.ne_of_gt (Nat.lt_of_lt_of_le hvlt' hge)
          rw [renameVertex_of_ne _ hρ, if_neg (Nat.ne_of_lt hlt)]
          exact ⟨hge, Nat.lt_succ_of_lt hlt, hst⟩
        · rw [List.mem_singleton.mp hw, hnew] at hnew'
          rw [List.mem_singleton.mp hw, hkept, renameVertex_self, if_pos rfl]
          exact ⟨hi.nextVertex_le, Nat.lt_succ_self _, Option.some.inj hnew'⟩
      kept := fun w hw => by
        have hwv : w ≠ v := by
          intro heq
          rw [heq, hnew] at hw
          exact absurd (hw (by simp)) (by simp)
        have hρ : ρ w = w :=
          hi.kept w fun hmem => hw (List.mem_append_left _ hmem)
        rw [Function.comp_apply, hρ, renameVertex_of_ne _ hwv]
      injOn := by
        intro u hu w hw heq
        have hu' := hfresh u hu
        have hw' := hfresh w hw
        simp only [Function.comp_apply, renameVertex] at heq
        refine hi.injOn hu hw ?_
        split_ifs at heq with h₁ h₂ h₂
        · rw [h₁, h₂]
        · exact absurd heq.symm hw'
        · exact absurd heq hu'
        · exact heq
      vertices := by
        rw [Heap.vertexReplaced_graph, if_pos rfl]
        simp only [hvertices₂]
        exact image_renameVertex hvOrig hkept hne
      arcs := by
        rw [hc₂.arcs_vertexReplaced _ _ (hf.ne_null v hv), harcs₂,
          Multiset.map_coe, List.map_map]
        rfl
      unmarked := fun e he => by
        rw [Heap.vertexReplaced_edges] at he
        rw [Heap.vertexReplaced_isBackEdge]
        exact hunmarked₂ e he
      owner := fun w hw => by
        rw [Heap.vertexReplaced_owningFunction, howner₂]
        exact hi.owner w hw
      owner_notMem := fun w hw => by
        rw [Heap.vertexReplaced_owningFunction, howner₂]
        exact hi.owner_notMem w hw
      indexed := by
        refine (hindexed₂.vertexReplaced hnotIndexed).subset ?_
        rintro w (hw | ⟨hle, hlt⟩)
        · exact .inr (.inl hw)
        · rw [Heap.vertexReplaced_nextVertex, hnext₂] at hlt
          rcases Nat.lt_succ_iff_lt_or_eq.mp hlt with hlt | rfl
          · exact .inr (.inr ⟨hle, hlt⟩)
          · exact .inl rfl
      entryIndex := by
        rw [Heap.vertexReplaced_vertexIndex, hindex₂, hi.entryIndex, if_neg]
        exact hfresh' _ (Heap.mem_originals.mpr (.inl rfl))
      exitIndex := by
        rw [Heap.vertexReplaced_vertexIndex, hindex₂, hi.exitIndex, if_neg]
        exact hfresh' _ (Heap.mem_originals.mpr (.inr (.inl rfl))) }

/-- One round of the loop.  The renaming changes at the statement being linked
only, and sends it to what `ResolveLinks` returns. -/
theorem linkStatement_inv {h k : Heap} {this : FunctionPtr}
    {l pre post : List VertexPtr} {ρ : VertexPtr → VertexPtr} {v : VertexPtr}
    (hf : h.Fresh this l) (hl : l.filter h.endsBasicBlock = pre ++ v :: post)
    (hi : LinkInv h this l pre ρ k) :
    ∃ k', Heap.linkStatement (h.function this).theCfg (h.labelMapOf l) k v =
        .ok k' ∧
      ∃ ρ', LinkInv h this l (pre ++ [v]) ρ' k' ∧
        (∀ u ∈ h.originals l, u ≠ v → ρ' u = ρ u) ∧
        ∀ new, h.replacement l v = some new →
          (k.resolveLinks (h.function this).theCfg v (h.labelMapOf l)).1 =
            some (ρ' v) := by
  have hmem : v ∈ l.filter h.endsBasicBlock := by simp [hl]
  have hv : v ∈ l := (List.mem_filter.mp hmem).1
  have hpre : v ∉ pre := by
    have hnodup := hf.nodup.filter h.endsBasicBlock
    rw [hl, List.nodup_append] at hnodup
    intro hmem
    exact hnodup.2.2 v hmem v List.mem_cons_self rfl
  have hst : (k.vertex v).statement = h.statementOf v :=
    hi.statement_old v (Nat.lt_add_right 2 (hf.lt_nextVertex v hv))
  unfold Heap.linkStatement
  rw [Heap.resolveLinks_eq, hst]
  cases hnew : h.replacement l v with
  | none =>
      have hnew' : Heap.linkedStatement (h.labelMapOf l) (h.statementOf v) =
        none := hnew
      simp only [hnew', Heap.linkArcs_eq_nil _ hnew', Heap.addOutArcs_nil]
      exact ⟨k, rfl, ρ, hi.skip hnew, fun _ _ _ => rfl,
        fun new hsome => absurd hsome (by simp)⟩
  | some new =>
      have hnew' : Heap.linkedStatement (h.labelMapOf l) (h.statementOf v) =
        some new := hnew
      have hnext : (jumpsAdded h l (h.function this).theCfg k v).nextVertex =
          k.nextVertex := Heap.addOutArcs_nextVertex _ _ _ _
      have hnotMem : k.nextVertex ∉ (((jumpsAdded h l (h.function this).theCfg k
          v).newVertex new ((jumpsAdded h l (h.function this).theCfg k
            v).vertex v).location).2.graph (h.function this).theCfg).vertices := by
        have hvertices : (((jumpsAdded h l (h.function this).theCfg k
            v).newVertex new ((jumpsAdded h l (h.function this).theCfg k
              v).vertex v).location).2.graph (h.function this).theCfg).vertices =
            (h.originals l).image ρ := by
          rw [← hi.vertices]
          exact Heap.addOutArcs_vertices _ _ _ _ _
        rw [hvertices, Finset.mem_image]
        rintro ⟨u, hu, heq⟩
        exact Nat.ne_of_lt (hi.lt_nextVertex hf hu) heq
      have hvOrig : v ∈ h.originals l := Heap.mem_originals.mpr (.inr (.inr hv))
      have hkept : ρ v = v := hi.kept v fun hmem => absurd hmem hpre
      refine ⟨_, ?_, _, hi.replace hf hv hpre hnew, fun u hu hne => ?_,
        fun new' _ => ?_⟩
      · simp only [hnew', Heap.newLinked]
        exact (congrArg (fun p => Heap.replaceVertex _ _ v p) hnext).trans
          (Heap.replaceVertex_eq_ok hnotMem)
      · -- No other statement has been renamed to `v`.
        apply renameVertex_of_ne
        intro heq
        exact hne (hi.injOn hu hvOrig (heq.trans hkept.symm))
      · show _ = some (renameVertex v k.nextVertex (ρ v))
        rw [hkept, renameVertex_self, ← hnext]
        simp only [hnew', Heap.newLinked]
        rfl

/-- The loop that starts from `s` comes to `v` in some round, and
`replacement_statement` is what `ResolveLinks` then returns for it. -/
def CreateState.Replaces (this : FunctionPtr) (s : CreateState)
    (v replacementStatement : VertexPtr) : Prop :=
  ∃ pre post k,
    s.listOfUnlinkedFlowControlStatements = pre ++ v :: post ∧
    pre.foldlM (Heap.linkStatement (s.heap.function this).theCfg s.labelMap)
      s.heap = .ok k ∧
    (k.resolveLinks (s.heap.function this).theCfg v s.labelMap).1 =
      some replacementStatement

/-- After the loop `ρ` names what each linked statement was replaced by. -/
theorem StatementsAdded.linkStatements_spec {h : Heap} {this : FunctionPtr}
    {l : List VertexPtr} {s : CreateState} (hf : h.Fresh this l)
    (hs : StatementsAdded h this l s) :
    ∃ k ρ, s.linkStatements this = .ok k ∧
      LinkInv h this l (l.filter h.endsBasicBlock) ρ k ∧
      ∀ v ∈ l, ∀ new, h.replacement l v = some new →
        s.Replaces this v (ρ v) := by
  obtain ⟨k, hloop, ρ, hi, hprefix, hreplaces⟩ := foldlM_invariant
    (Heap.linkStatement (h.function this).theCfg (h.labelMapOf l))
    (fun pre k => ∃ ρ, LinkInv h this l pre ρ k ∧
      pre.foldlM (Heap.linkStatement (h.function this).theCfg (h.labelMapOf l))
        s.heap = .ok k ∧
      ∀ v ∈ pre, ∀ new, h.replacement l v = some new → s.Replaces this v (ρ v))
    (l.filter h.endsBasicBlock) s.heap
    ⟨id, LinkInv.init hs, rfl, fun v hv => absurd hv List.not_mem_nil⟩
    (fun pre v post k hl hP => by
      obtain ⟨ρ, hi, hprefix, hreplaces⟩ := hP
      obtain ⟨k', hlink, ρ', hi', hother, hself⟩ := linkStatement_inv hf hl hi
      refine ⟨k', hlink, ρ', hi', ?_, fun u hu new hnew => ?_⟩
      · rw [foldlM_append_singleton _ hprefix]
        exact hlink
      · have hu' : u ∈ l.filter h.endsBasicBlock := by
          rw [hl, List.append_cons]
          exact List.mem_append_left _ hu
        by_cases huv : u = v
        · subst huv
          refine ⟨pre, post, k, ?_, ?_, ?_⟩
          · rw [hs.unlinked, hl]
          · rw [hs.theCfg, hs.labelMap]
            exact hprefix
          · rw [hs.theCfg, hs.labelMap]
            exact hself new hnew
        · have hpre : u ∈ pre := by
            rcases List.mem_append.mp hu with hpre | hsingle
            · exact hpre
            · exact absurd (List.mem_singleton.mp hsingle) huv
          have horig : u ∈ h.originals l := Heap.mem_originals.mpr
            (.inr (.inr (List.mem_filter.mp hu').1))
          rw [hother u horig huv]
          exact hreplaces u hpre new hnew)
  refine ⟨k, ρ, ?_, hi, fun v hv new hnew => hreplaces v ?_ new hnew⟩
  · rw [CreateState.linkStatements, hs.theCfg, hs.labelMap, hs.unlinked]
    exact hloop
  · exact List.mem_filter.mpr ⟨hv, Heap.endsBasicBlock_of_replacement hnew⟩

/-- The graph after the linking loop: the flow of the statement list, each
statement standing at the vertex `ρ` names for it. -/
theorem linkedFlow_spec {h : Heap} {this : FunctionPtr} {l : List VertexPtr}
    (hf : h.Fresh this l) :
    ∃ s ρ, h.linkedFlow this l = .ok s ∧
      LinkInv h this l (l.filter h.endsBasicBlock) ρ s.heap ∧
      s.listOfLeaderInfo = leaderInfos h.endsBasicBlock (h.entryPtr :: l) ∧
      s.listOfStatementsWithNoInEdgeYet =
        s.listOfLeaderInfo.map (·.leader) := by
  obtain ⟨s, hadd, hs⟩ := addStatements_spec hf
  obtain ⟨k, ρ, hloop, hi, _⟩ := hs.linkStatements_spec hf
  refine ⟨{ s with heap := k }, ρ, ?_, hi, hs.leaderInfo, hs.noInEdgeYet⟩
  unfold Heap.linkedFlow
  rw [hadd]
  simp only [bind, Except.bind, hloop, pure, Except.pure]

end CoFlo.Ports
