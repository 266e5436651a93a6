import CoFlo.Ports.LinkStatements
import CoFlo.Ports.TranslationUnit

/-!
# The reference control flow of a statement list

What a statement list means as a flow of control can be said without any
vertex or edge object: execution starts at the first statement, runs from
statement to statement, follows jumps to the labels they name and ends after
the last one.  `ReferenceFlow` states this for a graph, given which vertex
stands for which place of the list; `linkedFlow_referenceFlow` proves it of
the graph the linking loop of `CreateControlFlowGraph` leaves behind.
-/

namespace CoFlo.Ports

/-- A place in the flow of a statement list. -/
inductive Place where
  | entry
  | statement (i : Nat)
  | exit
  deriving DecidableEq, Repr

/-- The place reached by falling through to position `i` of a list of `n`
statements. -/
def Place.next (n i : Nat) : Place :=
  if i < n then .statement i else .exit

/-- The places of a list of `n` statements. -/
def Place.InRange (n : Nat) : Place → Prop
  | .statement i => i < n
  | _ => True

/-- The labels a `GotoUnlinked`, an `IfUnlinked` or the cases of a
`SwitchUnlinked` name. -/
def Statement.linkTargets : Statement → List String
  | .gotoUnlinked linkTargetName => [linkTargetName]
  | .ifUnlinked _ ifTrue ifFalse => [ifTrue, ifFalse]
  | .switchUnlinked caseList => caseList
  | _ => []

/-- Every label that is jumped to is defined in the list. -/
def LabelsDefined (statements : List Statement) : Prop :=
  ∀ st ∈ statements, ∀ name ∈ st.linkTargets, .label name ∈ statements

/-- The graph `g` of the heap `k` is the flow of `statements`, with `place`
saying which vertex of the graph stands for which place. -/
structure ReferenceFlow (statements : List Statement)
    (place : Place → VertexPtr) (k : Heap) (g : GraphPtr) : Prop where
  vertices : ∀ v, v ∈ (k.graph g).vertices ↔
    v = place .entry ∨ v = place .exit ∨
      ∃ i, i < statements.length ∧ v = place (.statement i)
  edges : ∀ e ∈ (k.graph g).edges,
    (k.edge e).source ∈ (k.graph g).vertices ∧
      (k.edge e).target ∈ (k.graph g).vertices
  outEdges : ∀ v ∈ (k.graph g).vertices, ∀ e,
    e ∈ (k.vertex v).outEdges ↔
      e ∈ (k.graph g).edges ∧ (k.edge e).source = v
  entry : k.outArcs (place .entry) =
    {(.fallthrough, place (.next statements.length 0))}
  exit : k.outArcs (place .exit) = 0
  fallthrough : ∀ i st, statements[i]? = some st →
    st.isFlowControlUnlinked = false →
      k.outArcs (place (.statement i)) =
          {(.fallthrough, place (.next statements.length (i + 1)))} ∧
        (k.vertex (place (.statement i))).statement = st
  goto : ∀ i name, statements[i]? = some (.gotoUnlinked name) →
    ∃ j, statements[j]? = some (.label name) ∧
      k.outArcs (place (.statement i)) =
        {(.fallthrough, place (.statement j))} ∧
      (k.vertex (place (.statement i))).statement = .gotoStatement
  return_ : ∀ i var, statements[i]? = some (.returnUnlinked var) →
    ∃ target, (target = .exit ∧ .label "EXIT" ∉ statements ∨
        ∃ j, target = .statement j ∧ statements[j]? = some (.label "EXIT")) ∧
      k.outArcs (place (.statement i)) = {(.fallthrough, place target)} ∧
      (k.vertex (place (.statement i))).statement = .gotoStatement
  if_ : ∀ i condition nameTrue nameFalse,
    statements[i]? = some (.ifUnlinked condition nameTrue nameFalse) →
    ∃ j j', statements[j]? = some (.label nameTrue) ∧
      statements[j']? = some (.label nameFalse) ∧
      k.outArcs (place (.statement i)) =
        {(.ifTrue, place (.statement j)), (.ifFalse, place (.statement j'))} ∧
      (k.vertex (place (.statement i))).statement = .ifStatement condition
  switch_ : ∀ i caseList, statements[i]? = some (.switchUnlinked caseList) →
    ∃ targets : List Nat,
      List.Forall₂ (fun name j => statements[j]? = some (.label name))
        caseList targets ∧
      k.outArcs (place (.statement i)) =
        (targets.map fun j => (.fallthrough, place (.statement j)) :
          List (EdgeType × VertexPtr)) ∧
      (k.vertex (place (.statement i))).statement =
        if caseList = [] then .switchUnlinked [] else .switchStatement
  case_ : ∀ i name, statements[i]? = some (.caseUnlinked name) →
    k.outArcs (place (.statement i)) = 0

/-! ## The out-arcs of one vertex of the list -/

theorem mem_fallthroughArcs {flow : VertexPtr → Bool} {chain : List VertexPtr}
    {a : Arc} (ha : a ∈ fallthroughArcs flow chain) :
    a.source ∈ chain ∧ a.target ∈ chain.tail := by
  induction chain with
  | nil => exact absurd ha List.not_mem_nil
  | cons v rest ih =>
      cases rest with
      | nil => exact absurd ha List.not_mem_nil
      | cons w rest =>
          simp only [fallthroughArcs, List.mem_append] at ha
          rcases ha with ha | ha
          · split_ifs at ha
            · exact absurd ha List.not_mem_nil
            · rw [List.mem_singleton.mp ha]
              simp
          · obtain ⟨hsource, htarget⟩ := ih ha
            exact ⟨List.mem_cons_of_mem _ hsource,
              List.mem_cons_of_mem _ htarget⟩

/-- Along a chain without repetitions every vertex has at most the fallthrough
to its successor. -/
theorem fallthroughArcs_filter (flow : VertexPtr → Bool)
    {chain : List VertexPtr} (hnodup : chain.Nodup) {i : Nat} {v : VertexPtr}
    (hv : chain[i]? = some v) :
    (fallthroughArcs flow chain).filter (·.source = v) =
      match chain[i + 1]? with
      | some w => if flow v then [] else [⟨v, .fallthrough, w⟩]
      | none => [] := by
  induction chain generalizing i with
  | nil => simp at hv
  | cons a rest ih =>
      cases rest with
      | nil => simp [fallthroughArcs]
      | cons b rest =>
          rw [List.nodup_cons] at hnodup
          have hnotSource : ∀ x ∈ fallthroughArcs flow (b :: rest),
              x.source ≠ a := by
            intro x hx heq
            exact hnodup.1 (heq ▸ (mem_fallthroughArcs hx).1)
          rw [fallthroughArcs, List.filter_append]
          cases i with
          | zero =>
              obtain rfl : a = v := by simpa using hv
              have hnone : (fallthroughArcs flow (b :: rest)).filter
                  (·.source = a) = [] := by
                rw [List.filter_eq_nil_iff]
                intro x hx
                simpa using hnotSource x hx
              rw [hnone, List.append_nil]
              cases flow a <;> simp
          | succ i =>
              have hv' : (b :: rest)[i]? = some v := by simpa using hv
              have hne : a ≠ v := by
                rintro rfl
                exact hnodup.1 (List.mem_of_getElem? hv')
              have hhead : (if flow a then [] else
                  [(⟨a, .fallthrough, b⟩ : Arc)]).filter (·.source = v) = [] := by
                cases flow a <;> simp [hne]
              rw [hhead, List.nil_append, ih hnodup.2 hv']
              rfl

/-- The out-arcs that the jumps of a list of statements give to one vertex. -/
theorem flatMap_jumpArcs_filter {h : Heap} {l linked : List VertexPtr}
    (hnodup : linked.Nodup) (v : VertexPtr) :
    (linked.flatMap (h.jumpArcs l)).filter (·.source = v) =
      if v ∈ linked then h.jumpArcs l v else [] := by
  have hself : (h.jumpArcs l v).filter (·.source = v) = h.jumpArcs l v := by
    rw [List.filter_eq_self]
    intro x hx
    simp only [Heap.jumpArcs, arcsFrom, List.mem_map] at hx
    obtain ⟨arc, _, rfl⟩ := hx
    simp
  have hother : ∀ w, w ≠ v → (h.jumpArcs l w).filter (·.source = v) = [] := by
    intro w hw
    rw [List.filter_eq_nil_iff]
    intro x hx
    simp only [Heap.jumpArcs, arcsFrom, List.mem_map] at hx
    obtain ⟨arc, _, rfl⟩ := hx
    simpa using hw
  induction linked with
  | nil => simp
  | cons w linked ih =>
      rw [List.nodup_cons] at hnodup
      rw [List.flatMap_cons, List.filter_append, ih hnodup.2]
      by_cases hw : w = v
      · subst hw
        rw [hself, if_neg hnodup.1, if_pos List.mem_cons_self, List.append_nil]
      · rw [hother w hw, List.nil_append]
        simp [Ne.symm hw]

/-- The ends of the arcs of a statement list are ENTRY, EXIT and statements of
the list. -/
theorem mem_flowArcs {h : Heap} {l linked : List VertexPtr}
    (hlinked : ∀ v ∈ linked, v ∈ l) {a : Arc} (ha : a ∈ h.flowArcs l linked) :
    a.source ∈ h.originals l ∧ a.target ∈ h.originals l := by
  have hchain : ∀ v, v ∈ h.entryPtr :: l ++ [h.exitPtr] →
      v ∈ h.originals l := by
    intro v hv
    rw [Heap.mem_originals]
    simp only [List.cons_append, List.mem_cons, List.mem_append,
      List.not_mem_nil, or_false] at hv
    tauto
  rcases List.mem_append.mp ha with ha | ha
  · obtain ⟨hsource, htarget⟩ := mem_fallthroughArcs ha
    exact ⟨hchain _ hsource, hchain _ (List.mem_of_mem_tail htarget)⟩
  · obtain ⟨v, hv, hmem⟩ := List.mem_flatMap.mp ha
    simp only [Heap.jumpArcs, arcsFrom, List.mem_map] at hmem
    obtain ⟨arc, harc, rfl⟩ := hmem
    obtain ⟨name, hname⟩ := Heap.mem_linkArcs harc
    exact ⟨Heap.mem_originals.mpr (.inr (.inr (hlinked v hv))),
      Heap.mem_originals_of_labelMapOf hname⟩

namespace LinkInv

variable {h k : Heap} {this : FunctionPtr} {l pre : List VertexPtr}
  {ρ : VertexPtr → VertexPtr}

theorem map_owned (hf : h.Fresh this l) (hi : LinkInv h this l pre ρ k)
    {v : VertexPtr} (hv : v ∈ h.originals l) : ρ v ∈ h.owned l := by
  by_cases hpre : v ∈ pre → h.replacement l v = none
  · rw [hi.kept v hpre]
    exact hf.owned_of_mem_originals hv
  · rw [Classical.not_imp] at hpre
    obtain ⟨new, hnew⟩ := Option.ne_none_iff_exists'.mp hpre.2
    exact .inr (Nat.le_trans (Nat.le_add_right _ 2)
      (hi.linked v hpre.1 new hnew).1)

/-- The out-arcs of the vertex that stands for `v`. -/
theorem outArcs_eq (hf : h.Fresh this l) (hi : LinkInv h this l pre ρ k)
    (hpre : ∀ v ∈ pre, v ∈ l) {v : VertexPtr} (hv : v ∈ h.originals l) :
    k.outArcs (ρ v) =
      (((h.flowArcs l pre).filter (·.source = v)).map fun a =>
        (a.edgeType, ρ a.target) : List (EdgeType × VertexPtr)) := by
  have howned := hi.map_owned hf hv
  rw [hi.consistent.outArcs_eq hi.encloses (hf.ne_null_of_owned howned) howned,
    hi.arcs, Multiset.filter_coe, Multiset.map_coe, List.filter_map,
    List.map_map]
  have hfilter : (h.flowArcs l pre).filter
        ((fun a : Arc => decide (a.source = ρ v)) ∘ Arc.map ρ) =
      (h.flowArcs l pre).filter (·.source = v) := by
    refine List.filter_congr fun a ha => ?_
    have hsource := (mem_flowArcs hpre ha).1
    simp only [Function.comp_apply, Arc.map]
    exact decide_eq_decide.mpr (hi.injOn.eq_iff hsource hv)
  rw [hfilter]
  rfl

end LinkInv

/-! ## Reading the chain -/

section chain

variable {h : Heap} {this : FunctionPtr} {l : List VertexPtr}

theorem chain_nodup (hf : h.Fresh this l) :
    (h.entryPtr :: l ++ [h.exitPtr]).Nodup := by
  rw [List.nodup_append, List.nodup_cons]
  refine ⟨⟨fun hmem => hf.ne_entryPtr hmem rfl, hf.nodup⟩,
    List.nodup_singleton _, ?_⟩
  intro a ha b hb heq
  rw [List.mem_singleton.mp hb] at heq
  rcases List.mem_cons.mp ha with ha | ha
  · exact h.entryPtr_ne_exitPtr (ha.symm.trans heq)
  · exact hf.ne_exitPtr ha heq

/-- The out-arcs of a statement that is not the last vertex of the chain. -/
theorem flowArcs_filter_of_getElem? (hf : h.Fresh this l) {i : Nat}
    {v w : VertexPtr} (hv : (h.entryPtr :: l ++ [h.exitPtr])[i]? = some v)
    (hw : (h.entryPtr :: l ++ [h.exitPtr])[i + 1]? = some w) :
    (h.flowArcs l (l.filter h.endsBasicBlock)).filter (·.source = v) =
      if h.endsBasicBlock v then
        if v ∈ l then h.jumpArcs l v else []
      else [⟨v, .fallthrough, w⟩] := by
  have hchain := fallthroughArcs_filter h.endsBasicBlock
    (chain_nodup hf) hv
  rw [hw] at hchain
  rw [Heap.flowArcs, List.filter_append, hchain,
    flatMap_jumpArcs_filter (hf.nodup.filter _)]
  simp only [List.mem_filter]
  by_cases hflow : h.endsBasicBlock v <;> simp [hflow]

end chain

/-! ## Labels -/

theorem addLabels_of_notMem {statement : VertexPtr → Statement} {m : LabelMap}
    {l : List VertexPtr} {name : String}
    (hname : ∀ v ∈ l, statement v ≠ .label name) :
    addLabels statement m l name = m name := by
  induction l generalizing m with
  | nil => rfl
  | cons v l ih =>
      have hv := hname v List.mem_cons_self
      rw [addLabels, List.foldl_cons]
      refine (ih fun w hw => hname w (List.mem_cons_of_mem _ hw)).trans ?_
      cases hst : (statement v).labelIdentifier with
      | none => simp only [LabelMap.addLabel, hst]
      | some identifier =>
          have hne : name ≠ identifier := by
            rintro rfl
            refine hv ?_
            cases hv' : statement v <;> simp_all [Statement.labelIdentifier]
          simp only [LabelMap.addLabel, hst, LabelMap.set,
            Function.update_of_ne hne]

theorem addLabels_of_mem {statement : VertexPtr → Statement} {m : LabelMap}
    {l : List VertexPtr} {name : String}
    (hname : ∃ v ∈ l, statement v = .label name) :
    ∃ t ∈ l, statement t = .label name ∧
      addLabels statement m l name = some t := by
  induction l generalizing m with
  | nil => obtain ⟨v, hv, _⟩ := hname; exact absurd hv List.not_mem_nil
  | cons w l ih =>
      by_cases hrest : ∃ v ∈ l, statement v = .label name
      · obtain ⟨t, ht, hst, hmap⟩ := ih (m := m.addLabel (statement w) w) hrest
        exact ⟨t, List.mem_cons_of_mem _ ht, hst, hmap⟩
      · obtain ⟨v, hv, hst⟩ := hname
        rcases List.mem_cons.mp hv with rfl | hv
        · refine ⟨v, List.mem_cons_self, hst, ?_⟩
          rw [addLabels, List.foldl_cons]
          refine (addLabels_of_notMem fun u hu hlabel =>
            hrest ⟨u, hu, hlabel⟩).trans ?_
          simp [hst, LabelMap.addLabel, Statement.labelIdentifier,
            LabelMap.set]
        · exact absurd ⟨v, hv, hst⟩ hrest

section labels

variable {h : Heap} {this : FunctionPtr} {l : List VertexPtr}

/-- The statements of a list, as the parser made them. -/
def Heap.statements (h : Heap) (l : List VertexPtr) : List Statement :=
  l.map fun v => (h.vertex v).statement

theorem getElem?_statements (hf : h.Fresh this l) {i : Nat} {v : VertexPtr}
    (hv : l[i]? = some v) :
    (h.statements l)[i]? = some (h.statementOf v) := by
  have hmem := List.mem_of_getElem? hv
  rw [Heap.statements, List.getElem?_map, hv,
    Heap.statementOf_of_ne (hf.ne_entryPtr hmem) (hf.ne_exitPtr hmem)]
  rfl

theorem getElem?_of_statements (hf : h.Fresh this l) {i : Nat} {st : Statement}
    (hst : (h.statements l)[i]? = some st) :
    ∃ v, l[i]? = some v ∧ h.statementOf v = st := by
  rw [Heap.statements, List.getElem?_map] at hst
  obtain ⟨v, hv, heq⟩ := Option.map_eq_some_iff.mp hst
  have hmem := List.mem_of_getElem? hv
  exact ⟨v, hv, (Heap.statementOf_of_ne (hf.ne_entryPtr hmem)
    (hf.ne_exitPtr hmem)).trans heq⟩

theorem mem_statements_iff (hf : h.Fresh this l) {st : Statement} :
    st ∈ h.statements l ↔ ∃ v ∈ l, h.statementOf v = st := by
  rw [Heap.statements, List.mem_map]
  refine exists_congr fun v => and_congr_right fun hv => ?_
  rw [Heap.statementOf_of_ne (hf.ne_entryPtr hv) (hf.ne_exitPtr hv)]

/-- A label that is defined in the list is looked up to one of its
definitions. -/
theorem labelMapOf_of_mem (hf : h.Fresh this l) {name : String}
    (hname : Statement.label name ∈ h.statements l) :
    ∃ (j : Nat) (t : VertexPtr),
      (h.statements l)[j]? = some (Statement.label name) ∧ l[j]? = some t ∧
        h.labelMapOf l name = some t := by
  obtain ⟨t, ht, hst, hmap⟩ := addLabels_of_mem
    (m := LabelMap.set (fun _ => none) "EXIT" h.exitPtr)
    ((mem_statements_iff hf).mp hname)
  obtain ⟨j, hj⟩ := List.getElem?_of_mem ht
  exact ⟨j, t, by rw [getElem?_statements hf hj, hst], hj, hmap⟩

/-- `"EXIT"` is always in the map. -/
theorem labelMapOf_exit (hf : h.Fresh this l) :
    (h.labelMapOf l "EXIT" = some h.exitPtr ∧
        Statement.label "EXIT" ∉ h.statements l) ∨
      ∃ (j : Nat) (t : VertexPtr),
        (h.statements l)[j]? = some (Statement.label "EXIT") ∧ l[j]? = some t ∧
        h.labelMapOf l "EXIT" = some t := by
  by_cases hname : Statement.label "EXIT" ∈ h.statements l
  · exact .inr (labelMapOf_of_mem hf hname)
  · refine .inl ⟨?_, hname⟩
    rw [mem_statements_iff hf] at hname
    refine (addLabels_of_notMem fun v hv hst => hname ⟨v, hv, hst⟩).trans ?_
    rw [LabelMap.set, Function.update_self]

end labels

/-! ## The linked graph is the reference flow -/

/-- The vertex for a place, when `ρ` names the vertex for each statement. -/
def Heap.placeOf (h : Heap) (l : List VertexPtr) (ρ : VertexPtr → VertexPtr) :
    Place → VertexPtr
  | .entry => h.entryPtr
  | .exit => h.exitPtr
  | .statement i => (l[i]?).elim null ρ

namespace LinkInv

variable {h k : Heap} {this : FunctionPtr} {l pre : List VertexPtr}
  {ρ : VertexPtr → VertexPtr}

theorem map_entryPtr (hi : LinkInv h this l pre ρ k) :
    ρ h.entryPtr = h.entryPtr := by
  refine hi.kept _ fun _ => ?_
  rw [Heap.replacement, Heap.statementOf_entryPtr]
  rfl

theorem map_exitPtr (hi : LinkInv h this l pre ρ k) :
    ρ h.exitPtr = h.exitPtr := by
  refine hi.kept _ fun _ => ?_
  rw [Heap.replacement, Heap.statementOf_exitPtr]
  rfl

/-- The vertex after position `i` of the chain stands for the next place. -/
theorem exists_next (hi : LinkInv h this l pre ρ k) {i : Nat}
    (hle : i ≤ l.length) :
    ∃ w, (h.entryPtr :: l ++ [h.exitPtr])[i + 1]? = some w ∧
      ρ w = h.placeOf l ρ (.next (h.statements l).length i) := by
  have hlength : (h.statements l).length = l.length := List.length_map _
  rw [List.cons_append, List.getElem?_cons_succ, hlength]
  by_cases hlt : i < l.length
  · refine ⟨l[i], ?_, ?_⟩
    · rw [List.getElem?_append_left hlt, List.getElem?_eq_getElem hlt]
    · rw [Place.next, if_pos hlt, Heap.placeOf, List.getElem?_eq_getElem hlt]
      rfl
  · obtain rfl : i = l.length := Nat.le_antisymm hle (Nat.not_lt.mp hlt)
    refine ⟨h.exitPtr, by simp, ?_⟩
    rw [Place.next, if_neg (Nat.lt_irrefl _), hi.map_exitPtr]
    rfl

theorem outArcs_entry (hf : h.Fresh this l)
    (hi : LinkInv h this l (l.filter h.endsBasicBlock) ρ k) :
    k.outArcs h.entryPtr =
      {(.fallthrough, h.placeOf l ρ (.next (h.statements l).length 0))} := by
  obtain ⟨w, hw, hρw⟩ := hi.exists_next (Nat.zero_le _)
  have hout := hi.outArcs_eq hf (fun v hv => (List.mem_filter.mp hv).1)
    (Heap.mem_originals.mpr (.inl rfl))
  have hflow : h.endsBasicBlock h.entryPtr = false := by
    rw [Heap.endsBasicBlock, Heap.statementOf_entryPtr]
    rfl
  rw [hi.map_entryPtr, flowArcs_filter_of_getElem? hf (i := 0) rfl hw,
    hflow] at hout
  rw [hout, ← hρw]
  rfl

theorem outArcs_exit (hf : h.Fresh this l)
    (hi : LinkInv h this l (l.filter h.endsBasicBlock) ρ k) :
    k.outArcs h.exitPtr = 0 := by
  have hout := hi.outArcs_eq hf (fun v hv => (List.mem_filter.mp hv).1)
    (Heap.mem_originals.mpr (.inr (.inl rfl)))
  have hlast : (h.entryPtr :: l ++ [h.exitPtr])[l.length + 1]? =
      some h.exitPtr := by simp
  have hpast : (h.entryPtr :: l ++ [h.exitPtr])[l.length + 1 + 1]? = none := by
    simp
  have hchain := fallthroughArcs_filter h.endsBasicBlock
    (chain_nodup hf) hlast
  rw [hpast] at hchain
  have hnotMem : h.exitPtr ∉ l.filter h.endsBasicBlock := fun hmem =>
    hf.ne_exitPtr (List.mem_filter.mp hmem).1 rfl
  rw [hi.map_exitPtr, Heap.flowArcs, List.filter_append, hchain,
    flatMap_jumpArcs_filter (hf.nodup.filter _), if_neg hnotMem] at hout
  exact hout

theorem outArcs_fallthrough (hf : h.Fresh this l)
    (hi : LinkInv h this l (l.filter h.endsBasicBlock) ρ k) {i : Nat}
    {v : VertexPtr} (hv : l[i]? = some v) (hflow : h.endsBasicBlock v = false) :
    k.outArcs (ρ v) =
      {(.fallthrough,
        h.placeOf l ρ (.next (h.statements l).length (i + 1)))} := by
  have hlt : i < l.length := (List.getElem?_eq_some_iff.mp hv).1
  obtain ⟨w, hw, hρw⟩ := hi.exists_next (i := i + 1) hlt
  have hout := hi.outArcs_eq hf (fun v hv => (List.mem_filter.mp hv).1)
    (Heap.mem_originals.mpr (.inr (.inr (List.mem_of_getElem? hv))))
  have hv' : (h.entryPtr :: l ++ [h.exitPtr])[i + 1]? = some v := by
    rw [List.cons_append, List.getElem?_cons_succ,
      List.getElem?_append_left hlt, hv]
  rw [flowArcs_filter_of_getElem? hf hv' hw, hflow] at hout
  rw [hout, ← hρw]
  rfl

/-- A `FlowControlUnlinked` has the jumps its labels say, and nothing else. -/
theorem outArcs_jump (hf : h.Fresh this l)
    (hi : LinkInv h this l (l.filter h.endsBasicBlock) ρ k) {v : VertexPtr}
    (hv : v ∈ l) (hflow : h.endsBasicBlock v = true) :
    k.outArcs (ρ v) =
      (Heap.linkArcs (h.labelMapOf l) (h.statementOf v) :
        Multiset (EdgeType × VertexPtr)) := by
  obtain ⟨i, hi'⟩ := List.getElem?_of_mem hv
  have hlt : i < l.length := (List.getElem?_eq_some_iff.mp hi').1
  obtain ⟨w, hw, _⟩ := hi.exists_next (i := i + 1) hlt
  have hout := hi.outArcs_eq hf (fun v hv => (List.mem_filter.mp hv).1)
    (Heap.mem_originals.mpr (.inr (.inr hv)))
  have hv' : (h.entryPtr :: l ++ [h.exitPtr])[i + 1]? = some v := by
    rw [List.cons_append, List.getElem?_cons_succ,
      List.getElem?_append_left hlt, hi']
  rw [flowArcs_filter_of_getElem? hf hv' hw, if_pos hflow, if_pos hv] at hout
  rw [hout, Heap.jumpArcs, arcsFrom, List.map_map]
  refine congrArg _ ((List.map_congr_left fun arc harc => ?_).trans
    (List.map_id _))
  obtain ⟨name, hname⟩ := Heap.mem_linkArcs harc
  simp only [Function.comp_apply, hi.map_labelMapOf hname, id]

/-- The statement that stands in the graph for a statement of the list. -/
theorem statement_eq (hf : h.Fresh this l)
    (hi : LinkInv h this l (l.filter h.endsBasicBlock) ρ k) {v : VertexPtr}
    (hv : v ∈ l) :
    (k.vertex (ρ v)).statement =
      (h.replacement l v).getD (h.statementOf v) := by
  cases hnew : h.replacement l v with
  | some new =>
      have hmem : v ∈ l.filter h.endsBasicBlock :=
        List.mem_filter.mpr ⟨hv, Heap.endsBasicBlock_of_replacement hnew⟩
      exact (hi.linked v hmem new hnew).2.2
  | none =>
      rw [hi.kept v fun _ => hnew]
      exact hi.statement_old v (Nat.lt_add_right 2 (hf.lt_nextVertex v hv))

/-- A jump target stands at its own place. -/
theorem placeOf_labelMapOf (hi : LinkInv h this l pre ρ k) {j : Nat}
    {t : VertexPtr} {name : String} (hj : l[j]? = some t)
    (ht : h.labelMapOf l name = some t) :
    h.placeOf l ρ (.statement j) = t := by
  rw [Heap.placeOf, hj]
  exact hi.map_labelMapOf ht

/-- The cases of a switch, looked up one by one. -/
theorem exists_caseTargets (hf : h.Fresh this l)
    (hi : LinkInv h this l pre ρ k) {caseList : List String}
    (hdef : ∀ name ∈ caseList, Statement.label name ∈ h.statements l) :
    ∃ targets : List Nat,
      List.Forall₂ (fun name j =>
        (h.statements l)[j]? = some (Statement.label name)) caseList targets ∧
      Heap.caseArcs (h.labelMapOf l) caseList =
        targets.map fun j =>
          (.fallthrough, h.placeOf l ρ (.statement j)) := by
  induction caseList with
  | nil => exact ⟨[], .nil, rfl⟩
  | cons name rest ih =>
      obtain ⟨targets, hforall, harcs⟩ :=
        ih fun n hn => hdef n (List.mem_cons_of_mem _ hn)
      obtain ⟨j, t, hst, hj, hmap⟩ :=
        labelMapOf_of_mem hf (hdef name List.mem_cons_self)
      refine ⟨j :: targets, .cons hst hforall, ?_⟩
      rw [List.map_cons, ← harcs, hi.placeOf_labelMapOf hj hmap]
      simp [Heap.caseArcs, hmap]

section spec

variable (hf : h.Fresh this l)
  (hi : LinkInv h this l (l.filter h.endsBasicBlock) ρ k)

include hi

theorem mem_vertices_iff (v : VertexPtr) :
    v ∈ (k.graph (h.function this).theCfg).vertices ↔
      v = h.placeOf l ρ .entry ∨ v = h.placeOf l ρ .exit ∨
        ∃ i, i < (h.statements l).length ∧ v = h.placeOf l ρ (.statement i) := by
  have hlength : (h.statements l).length = l.length := List.length_map _
  rw [hi.vertices, Finset.mem_image, hlength]
  constructor
  · rintro ⟨u, hu, rfl⟩
    rcases Heap.mem_originals.mp hu with rfl | rfl | hu
    · exact .inl hi.map_entryPtr
    · exact .inr (.inl hi.map_exitPtr)
    · obtain ⟨i, hget⟩ := List.getElem?_of_mem hu
      refine .inr (.inr ⟨i, (List.getElem?_eq_some_iff.mp hget).1, ?_⟩)
      rw [Heap.placeOf, hget]
      rfl
  · rintro (rfl | rfl | ⟨i, hlt, rfl⟩)
    · exact ⟨_, Heap.mem_originals.mpr (.inl rfl), hi.map_entryPtr⟩
    · exact ⟨_, Heap.mem_originals.mpr (.inr (.inl rfl)), hi.map_exitPtr⟩
    · refine ⟨l[i], Heap.mem_originals.mpr
        (.inr (.inr (List.getElem_mem hlt))), ?_⟩
      rw [Heap.placeOf, List.getElem?_eq_getElem hlt]
      rfl

theorem edge_ends_mem {e : EdgePtr}
    (he : e ∈ (k.graph (h.function this).theCfg).edges) :
    (k.edge e).source ∈ (k.graph (h.function this).theCfg).vertices ∧
      (k.edge e).target ∈ (k.graph (h.function this).theCfg).vertices := by
  have harc : k.arc e ∈ k.arcs (h.function this).theCfg :=
    Multiset.mem_map_of_mem _ he
  rw [hi.arcs, Multiset.mem_coe, List.mem_map] at harc
  obtain ⟨a, ha, heq⟩ := harc
  obtain ⟨hsource, htarget⟩ :=
    mem_flowArcs (fun v hv => (List.mem_filter.mp hv).1) ha
  have hends : (k.edge e).source = ρ a.source ∧
      (k.edge e).target = ρ a.target :=
    ⟨(congrArg Arc.source heq).symm, (congrArg Arc.target heq).symm⟩
  rw [hi.vertices, hends.1, hends.2]
  exact ⟨Finset.mem_image_of_mem _ hsource, Finset.mem_image_of_mem _ htarget⟩

include hf

theorem mem_outEdges_iff {v : VertexPtr}
    (hv : v ∈ (k.graph (h.function this).theCfg).vertices) (e : EdgePtr) :
    e ∈ (k.vertex v).outEdges ↔
      e ∈ (k.graph (h.function this).theCfg).edges ∧ (k.edge e).source = v := by
  rw [hi.vertices, Finset.mem_image] at hv
  obtain ⟨u, hu, rfl⟩ := hv
  have howned := hi.map_owned hf hu
  rw [hi.consistent.mem_outEdges, hi.encloses.mem_edges_source]
  constructor
  · rintro ⟨hsource, _⟩
    exact ⟨hsource ▸ howned, hsource⟩
  · rintro ⟨_, hsource⟩
    exact ⟨hsource, hf.ne_null_of_owned howned⟩

theorem fallthrough_spec {i : Nat} {st : Statement}
    (hst : (h.statements l)[i]? = some st)
    (hflow : st.isFlowControlUnlinked = false) :
    k.outArcs (h.placeOf l ρ (.statement i)) =
        {(.fallthrough,
          h.placeOf l ρ (.next (h.statements l).length (i + 1)))} ∧
      (k.vertex (h.placeOf l ρ (.statement i))).statement = st := by
  obtain ⟨v, hv, rfl⟩ := getElem?_of_statements hf hst
  have hnone : h.replacement l v = none := by
    cases hnew : h.replacement l v with
    | none => rfl
    | some new =>
        have hends := Heap.endsBasicBlock_of_replacement hnew
        rw [Heap.endsBasicBlock, hflow] at hends
        exact absurd hends (by decide)
  have hplace : h.placeOf l ρ (.statement i) = ρ v := by
    rw [Heap.placeOf, hv]
    rfl
  rw [hplace]
  refine ⟨hi.outArcs_fallthrough hf hv hflow, ?_⟩
  rw [hi.statement_eq hf (List.mem_of_getElem? hv), hnone]
  rfl

/-- The out-arcs and the statement at the place of a flow control statement. -/
theorem jump_spec {i : Nat} {st : Statement}
    (hst : (h.statements l)[i]? = some st)
    (hflow : st.isFlowControlUnlinked = true) :
    k.outArcs (h.placeOf l ρ (.statement i)) =
        (Heap.linkArcs (h.labelMapOf l) st :
          Multiset (EdgeType × VertexPtr)) ∧
      (k.vertex (h.placeOf l ρ (.statement i))).statement =
        (Heap.linkedStatement (h.labelMapOf l) st).getD st := by
  obtain ⟨v, hv, rfl⟩ := getElem?_of_statements hf hst
  have hmem := List.mem_of_getElem? hv
  have hplace : h.placeOf l ρ (.statement i) = ρ v := by
    rw [Heap.placeOf, hv]
    rfl
  rw [hplace]
  exact ⟨hi.outArcs_jump hf hmem hflow, hi.statement_eq hf hmem⟩

theorem return_spec {i : Nat} {var : String}
    (hst : (h.statements l)[i]? = some (.returnUnlinked var)) :
    ∃ target, (target = .exit ∧ Statement.label "EXIT" ∉ h.statements l ∨
        ∃ j, target = .statement j ∧
          (h.statements l)[j]? = some (Statement.label "EXIT")) ∧
      k.outArcs (h.placeOf l ρ (.statement i)) =
        {(.fallthrough, h.placeOf l ρ target)} ∧
      (k.vertex (h.placeOf l ρ (.statement i))).statement =
        .gotoStatement := by
  obtain ⟨hout, hstatement⟩ := hi.jump_spec hf hst rfl
  rw [hout, hstatement]
  rcases labelMapOf_exit hf with ⟨hmap, hnone⟩ | ⟨j, t, hj, hlj, hmap⟩
  · refine ⟨.exit, .inl ⟨rfl, hnone⟩, ?_, ?_⟩
    · simp [Heap.linkArcs, Heap.caseArcs, hmap, Heap.placeOf]
    · simp [Heap.linkedStatement, hmap]
  · refine ⟨.statement j, .inr ⟨j, rfl, hj⟩, ?_, ?_⟩
    · rw [hi.placeOf_labelMapOf hlj hmap]
      simp [Heap.linkArcs, Heap.caseArcs, hmap]
    · simp [Heap.linkedStatement, hmap]

variable (hdef : LabelsDefined (h.statements l))

include hdef

theorem goto_spec {i : Nat} {name : String}
    (hst : (h.statements l)[i]? = some (.gotoUnlinked name)) :
    ∃ j, (h.statements l)[j]? = some (.label name) ∧
      k.outArcs (h.placeOf l ρ (.statement i)) =
        {(.fallthrough, h.placeOf l ρ (.statement j))} ∧
      (k.vertex (h.placeOf l ρ (.statement i))).statement =
        .gotoStatement := by
  obtain ⟨hout, hstatement⟩ := hi.jump_spec hf hst rfl
  obtain ⟨j, t, hj, hlj, hmap⟩ := labelMapOf_of_mem hf
    (hdef _ (List.mem_of_getElem? hst) name (by simp [Statement.linkTargets]))
  refine ⟨j, hj, ?_, ?_⟩
  · rw [hout, hi.placeOf_labelMapOf hlj hmap]
    simp [Heap.linkArcs, Heap.caseArcs, hmap]
  · rw [hstatement]
    simp [Heap.linkedStatement, hmap]

theorem if_spec {i : Nat} {condition nameTrue nameFalse : String}
    (hst : (h.statements l)[i]? =
      some (.ifUnlinked condition nameTrue nameFalse)) :
    ∃ j j', (h.statements l)[j]? = some (.label nameTrue) ∧
      (h.statements l)[j']? = some (.label nameFalse) ∧
      k.outArcs (h.placeOf l ρ (.statement i)) =
        {(.ifTrue, h.placeOf l ρ (.statement j)),
          (.ifFalse, h.placeOf l ρ (.statement j'))} ∧
      (k.vertex (h.placeOf l ρ (.statement i))).statement =
        .ifStatement condition := by
  obtain ⟨hout, hstatement⟩ := hi.jump_spec hf hst rfl
  have hmem := List.mem_of_getElem? hst
  obtain ⟨j, t, hj, hlj, hmap⟩ := labelMapOf_of_mem hf
    (hdef _ hmem nameTrue (by simp [Statement.linkTargets]))
  obtain ⟨j', t', hj', hlj', hmap'⟩ := labelMapOf_of_mem hf
    (hdef _ hmem nameFalse (by simp [Statement.linkTargets]))
  refine ⟨j, j', hj, hj', ?_, ?_⟩
  · rw [hout, hi.placeOf_labelMapOf hlj hmap, hi.placeOf_labelMapOf hlj' hmap']
    simp only [Heap.linkArcs, hmap, hmap']
    rfl
  · rw [hstatement]
    simp [Heap.linkedStatement, hmap, hmap']

theorem switch_spec {i : Nat} {caseList : List String}
    (hst : (h.statements l)[i]? = some (.switchUnlinked caseList)) :
    ∃ targets : List Nat,
      List.Forall₂ (fun name j =>
        (h.statements l)[j]? = some (Statement.label name)) caseList targets ∧
      k.outArcs (h.placeOf l ρ (.statement i)) =
        (targets.map fun j => (.fallthrough, h.placeOf l ρ (.statement j)) :
          List (EdgeType × VertexPtr)) ∧
      (k.vertex (h.placeOf l ρ (.statement i))).statement =
        if caseList = [] then .switchUnlinked [] else .switchStatement := by
  obtain ⟨hout, hstatement⟩ := hi.jump_spec hf hst rfl
  obtain ⟨targets, hforall, harcs⟩ := hi.exists_caseTargets hf
    (hdef _ (List.mem_of_getElem? hst))
  refine ⟨targets, hforall, ?_, ?_⟩
  · rw [hout, ← harcs]
    rfl
  · have hlength : (caseList.filterMap (h.labelMapOf l)).length =
        caseList.length := by
      have heq := congrArg List.length harcs
      rw [List.length_map, ← hforall.length_eq, Heap.caseArcs,
        List.length_map] at heq
      exact heq
    rw [hstatement]
    cases caseList with
    | nil => rfl
    | cons name rest =>
        have hne : ((name :: rest).filterMap (h.labelMapOf l)).isEmpty = false := by
          rw [List.isEmpty_eq_false_iff, ← List.length_pos_iff, hlength]
          exact Nat.succ_pos _
        simp only [Heap.linkedStatement, hne]
        rfl

theorem referenceFlow :
    ReferenceFlow (h.statements l) (h.placeOf l ρ) k
      (h.function this).theCfg where
  vertices := hi.mem_vertices_iff
  edges _ he := hi.edge_ends_mem he
  outEdges _ hv := hi.mem_outEdges_iff hf hv
  entry := hi.outArcs_entry hf
  exit := hi.outArcs_exit hf
  fallthrough _ _ hst hflow := hi.fallthrough_spec hf hst hflow
  goto _ _ hst := hi.goto_spec hf hdef hst
  return_ _ _ hst := hi.return_spec hf hst
  if_ _ _ _ _ hst := hi.if_spec hf hdef hst
  switch_ _ _ hst := hi.switch_spec hf hdef hst
  case_ _ _ hst := (hi.jump_spec hf hst rfl).1

end spec

end LinkInv

/-- Different places have different vertices. -/
theorem LinkInv.placeOf_injective {h k : Heap} {this : FunctionPtr}
    {l pre : List VertexPtr} {ρ : VertexPtr → VertexPtr}
    (hf : h.Fresh this l) (hi : LinkInv h this l pre ρ k) {p q : Place}
    (hp : p.InRange l.length) (hq : q.InRange l.length)
    (heq : h.placeOf l ρ p = h.placeOf l ρ q) : p = q := by
  -- The vertex a place was created with.
  have horigin : ∀ {p : Place}, p.InRange l.length →
      h.placeOf l ρ p = ρ (h.placeOf l id p) ∧
        h.placeOf l id p ∈ h.originals l := by
    intro p hp
    cases p with
    | entry =>
        exact ⟨hi.map_entryPtr.symm, Heap.mem_originals.mpr (.inl rfl)⟩
    | exit =>
        exact ⟨hi.map_exitPtr.symm, Heap.mem_originals.mpr (.inr (.inl rfl))⟩
    | statement i =>
        simp only [Heap.placeOf, List.getElem?_eq_getElem hp, Option.elim]
        exact ⟨rfl, Heap.mem_originals.mpr (.inr (.inr (List.getElem_mem hp)))⟩
  obtain ⟨hρp, hmemp⟩ := horigin hp
  obtain ⟨hρq, hmemq⟩ := horigin hq
  rw [hρp, hρq] at heq
  have hid := hi.injOn hmemp hmemq heq
  cases p with
  | entry =>
      cases q with
      | entry => rfl
      | exit => exact absurd hid h.entryPtr_ne_exitPtr
      | statement j =>
          simp only [Heap.placeOf, List.getElem?_eq_getElem hq] at hid
          exact absurd hid.symm (hf.ne_entryPtr (List.getElem_mem hq))
  | exit =>
      cases q with
      | entry => exact absurd hid.symm h.entryPtr_ne_exitPtr
      | exit => rfl
      | statement j =>
          simp only [Heap.placeOf, List.getElem?_eq_getElem hq] at hid
          exact absurd hid.symm (hf.ne_exitPtr (List.getElem_mem hq))
  | statement i =>
      simp only [Heap.placeOf, List.getElem?_eq_getElem hp] at hid
      cases q with
      | entry => exact absurd hid (hf.ne_entryPtr (List.getElem_mem hp))
      | exit => exact absurd hid (hf.ne_exitPtr (List.getElem_mem hp))
      | statement j =>
          simp only [List.getElem?_eq_getElem hq] at hid
          exact congrArg _ ((List.Nodup.getElem_inj_iff hf.nodup).mp hid)

/-- Running `CreateControlFlowGraph` up to the end of the linking loop gives a
graph that is the reference flow of the list.  The vertices for ENTRY and EXIT
are the ones the function remembers, a statement that is no flow control
statement is its own vertex, and different places have different vertices. -/
def LinksToReferenceFlow (h : Heap) (this : FunctionPtr)
    (l : List VertexPtr) : Prop :=
  ∃ s place, h.linkedFlow this l = .ok s ∧
    place .entry = (s.heap.function this).entryVertexDesc ∧
    place .exit = (s.heap.function this).exitVertexDesc ∧
    (∀ i v, l[i]? = some v →
      (h.vertex v).statement.isFlowControlUnlinked = false →
        place (.statement i) = v) ∧
    (∀ p q, p.InRange l.length → q.InRange l.length → place p = place q →
      p = q) ∧
    ReferenceFlow (h.statements l) place s.heap (h.function this).theCfg

/-- Statements whose labels are defined are linked to their reference flow. -/
theorem linkedFlow_referenceFlow {h : Heap} {this : FunctionPtr}
    {l : List VertexPtr} (hf : h.Fresh this l)
    (hdef : LabelsDefined (h.statements l)) : LinksToReferenceFlow h this l := by
  obtain ⟨s, ρ, hrun, hi, _⟩ := linkedFlow_spec hf
  refine ⟨s, h.placeOf l ρ, hrun, ?_, ?_, ?_,
    fun p q hp hq heq => hi.placeOf_injective hf hp hq heq,
    hi.referenceFlow hf hdef⟩
  · rw [hi.function, Function.update_self]
    rfl
  · rw [hi.function, Function.update_self]
    rfl
  · intro i v hv hflow
    have hmem := List.mem_of_getElem? hv
    rw [← Heap.statementOf_of_ne (hf.ne_entryPtr hmem) (hf.ne_exitPtr hmem)]
      at hflow
    rw [Heap.placeOf, hv]
    refine hi.kept v fun hpre => ?_
    have hends := (List.mem_filter.mp hpre).2
    rw [Heap.endsBasicBlock, hflow] at hends
    exact absurd hends (by decide)

/-- Jumps forward, backward, to the next statement, and a switch with a
repeated case. -/
def jumpyStatements : List Statement :=
  [.label "L", .noOp, .ifUnlinked "c" "M" "L", .label "M", .gotoUnlinked "M",
    .returnUnlinked "", .switchUnlinked ["L", "M", "L"]]

theorem linkedFlow_referenceFlow_jumpy :
    LinksToReferenceFlow (Heap.singleFunction jumpyStatements).2 1
      (Heap.singleFunction jumpyStatements).1 :=
  linkedFlow_referenceFlow (Heap.singleFunction_fresh _) (by
    unfold LabelsDefined
    decide)

end CoFlo.Ports
