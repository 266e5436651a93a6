import CoFlo.Ports.AcyclicFlow
import CoFlo.Ports.FlowShape
import CoFlo.Verified.SearchTrace

/-!
# The other out-edge of a decision

`FindDifferentOutEdge` is called for a decision statement on the way back from
the source of a back edge to its target, and takes for granted that there is
another out-edge.  A `Switch` with a single case has none
(`createControlFlowGraph_findsOutEdge_iff`).

Where the out-edges are there, `FixupBackEdges` does what it should: it marks
the self edges and the edges to ancestors in the search tree, and cuts nothing
off (`fixupBackEdges_cutsNothingOff_iff`).
-/

namespace CoFlo.Ports

open CoFlo.Verified CoFlo.Verified.DepthFirstSearch Relation

namespace Heap

/-! ## Loops without another out-edge -/

section narrow

variable (h : Heap) (order : IterationOrder) (roots : List VertexPtr)

/-- Some back edge of the search closes a loop in which the last decision
statement before its source has a single out-edge.  The tree path to the source
is `p ++ d :: q`, and `d` is the out-edge of the decision. -/
def NarrowLoop (e d : EdgePtr) : Prop :=
  ∃ r p q, e ∈ (h.vertex (h.edge e).source).outEdges ∧
    (h.edge e).source ≠ (h.edge e).target ∧
      SearchPath (h.incidence order) roots r (p ++ d :: q) (h.edge e).source ∧
        (h.edge e).target ∈ walkVertices (h.incidence order) r p ∧
          (h.vertex (h.edge d).source).statement.isDecisionStatement = true ∧
            (∀ c ∈ q,
              (h.vertex (h.edge c).source).statement.isDecisionStatement = false) ∧
              (h.vertex (h.edge d).source).outEdges = {d}

variable {h order roots}

theorem findDifferentOutEdge_eq_error_iff {d : EdgePtr}
    (hd : d ∈ (h.vertex (h.edge d).source).outEdges) :
    h.findDifferentOutEdge order d = .error .endDereference ↔
      (h.vertex (h.edge d).source).outEdges = {d} := by
  unfold findDifferentOutEdge
  split
  · rename_i other hfind
    refine iff_of_false (by simp) fun hsingle => ?_
    have hmem := List.mem_of_find?_eq_some hfind
    have hne := List.find?_some hfind
    rw [SetOrder.mem_enum, hsingle, Finset.mem_singleton] at hmem
    exact of_decide_eq_true hne hmem
  · rename_i hfind
    refine iff_of_true rfl (Finset.eq_singleton_iff_unique_mem.mpr ⟨hd, ?_⟩)
    intro c hc
    have hnone := List.find?_eq_none.mp hfind c
      ((order.outEdges.mem_enum _).mpr hc)
    simpa using hnone

/-- The walk back goes wrong at the first decision it comes to. -/
theorem wayOut_eq_error_iff {v : VertexPtr} {up : List EdgePtr} :
    h.wayOut order v up = .error .endDereference ↔
      ∃ q d p, up = q ++ d :: p ∧
        (∀ c ∈ q, (h.vertex (h.edge c).source).statement.isDecisionStatement =
          false ∧ (h.edge c).source ≠ v) ∧
        (h.vertex (h.edge d).source).statement.isDecisionStatement = true ∧
          h.findDifferentOutEdge order d = .error .endDereference := by
  induction up with
  | nil => simp [wayOut]
  | cons e up ih =>
      simp only [wayOut]
      constructor
      · intro herror
        split_ifs at herror with hdecision hv
        · refine ⟨[], e, up, rfl, fun c hc => absurd hc List.not_mem_nil,
            hdecision, ?_⟩
          cases hfind : h.findDifferentOutEdge order e with
          | error fault =>
              rw [hfind] at herror
              exact herror
          | ok d =>
              rw [hfind] at herror
              exact absurd herror (by simp [Except.map])
        · obtain ⟨q, d, p, rfl, hq, hd⟩ := ih.mp herror
          refine ⟨e :: q, d, p, rfl, fun c hc => ?_, hd⟩
          rcases List.mem_cons.mp hc with rfl | hc
          · exact ⟨by simpa using hdecision, hv⟩
          · exact hq c hc
      · rintro ⟨q, d, p, hup, hq, hdecision, hfind⟩
        cases q with
        | nil =>
            obtain ⟨rfl, rfl⟩ := List.cons.inj hup
            rw [if_pos hdecision, hfind]
            rfl
        | cons c q =>
            obtain ⟨rfl, rfl⟩ := List.cons.inj hup
            obtain ⟨hc, hv⟩ := hq e List.mem_cons_self
            rw [if_neg (by rw [hc]; decide), if_neg hv]
            exact ih.mpr ⟨q, d, p, rfl,
              fun c' hc' => hq c' (List.mem_cons_of_mem _ hc'), hdecision, hfind⟩

/-- On a simple walk, a vertex is left before the edge `d` exactly when no
later edge leaves it and the walk does not end there. -/
theorem Consistent.mem_walkVertices_iff (hc : h.Consistent) {r u v : VertexPtr}
    {p q : List EdgePtr} {d : EdgePtr}
    (hwalk : SimpleWalk (h.incidence order) r (p ++ d :: q) u) (hne : v ≠ u)
    (hv : v ∈ walkVertices (h.incidence order) r (p ++ d :: q)) :
    v ∈ walkVertices (h.incidence order) r p ↔ ∀ c ∈ q, (h.edge c).source ≠ v := by
  have hnodup := hwalk.2
  rw [walkVertices_append] at hnodup hv
  -- The targets of `d` and of the edges of `q` but the last are the sources
  -- of the edges of `q`.
  have hsources : ∀ (q : List EdgePtr) (d : EdgePtr) (w : VertexPtr),
      IsWalk (h.incidence order) w (d :: q) u →
        (d :: q).map (h.incidence order).target =
          q.map (fun c => (h.edge c).source) ++ [u] := by
    intro q
    induction q with
    | nil =>
        intro d w hd
        have hdu : (h.incidence order).target d = u := hd.2
        rw [List.map_cons, hdu]
        rfl
    | cons c q ih =>
        intro d w hd
        have hcsource := ((hc.mem_incidence_out order _ c).mp hd.2.1).1
        rw [List.map_cons, ih c _ hd.2, List.map_cons, hcsource]
        rfl
  obtain ⟨w, _, hq⟩ := isWalk_append_iff.mp hwalk.1
  rw [hsources q d w hq] at hnodup hv
  constructor
  · rintro hmem c hcq rfl
    refine (List.nodup_append.mp hnodup).2.2 _ hmem _ ?_ rfl
    exact List.mem_append_left _ (List.mem_map_of_mem hcq)
  · intro hnone
    refine (List.mem_append.mp hv).resolve_right fun hmem => ?_
    rcases List.mem_append.mp hmem with hmem | hmem
    · obtain ⟨c, hcq, hcv⟩ := List.mem_map.mp hmem
      exact hnone c hcq hcv
    · exact hne (List.mem_singleton.mp hmem)

/-- `FixupBackEdges` finds no way out of a loop exactly when there is a narrow
one. -/
theorem Consistent.noWayOut_iff (hc : h.Consistent) :
    h.NoWayOut order roots ↔ ∃ e d, h.NarrowLoop order roots e d := by
  constructor
  · rintro ⟨e, ⟨u, r', p', hout, hpath', hmem⟩, r, path, hpath, hresult⟩
    obtain ⟨hsource, hu⟩ := (hc.mem_incidence_out order u e).mp hout
    subst hsource
    obtain ⟨rfl, rfl⟩ := hpath.unique hpath'
    split_ifs at hresult with hself
    obtain ⟨q, d, p, hup, hq, hdecision, hfind⟩ :=
      wayOut_eq_error_iff.mp hresult.symm
    obtain rfl : path = p.reverse ++ d :: q.reverse := by
      rw [← List.reverse_reverse path, hup, List.reverse_append,
        List.reverse_cons, List.append_assoc]
      rfl
    obtain ⟨_, _, _, _, hsimple, _⟩ := id hpath
    obtain ⟨w, _, hd⟩ := isWalk_append_iff.mp hsimple.1
    obtain ⟨hdsource, hw⟩ := (hc.mem_incidence_out order w d).mp hd.1
    have hdout : d ∈ (h.vertex (h.edge d).source).outEdges :=
      (hc.mem_outEdges _ d).mpr ⟨rfl, hdsource ▸ hw⟩
    refine ⟨e, d, r, p.reverse, q.reverse, (hc.mem_outEdges _ e).mpr ⟨rfl, hu⟩,
      hself, hpath, ?_, hdecision, fun c hcq => ?_,
      (findDifferentOutEdge_eq_error_iff hdout).mp hfind⟩
    · refine (hc.mem_walkVertices_iff hsimple (fun heq => hself heq.symm)
        hmem).mpr fun c hcq => ?_
      exact (hq c (List.mem_reverse.mp hcq)).2
    · exact (hq c (List.mem_reverse.mp hcq)).1
  · rintro ⟨e, d, r, p, q, hout, hself, hpath, hmem, hdecision, hq, hsingle⟩
    have hmem' : (h.edge e).target ∈
        walkVertices (h.incidence order) r (p ++ d :: q) := by
      rw [walkVertices_append]
      exact List.mem_append_left _ hmem
    have hdout : d ∈ (h.vertex (h.edge d).source).outEdges := by
      rw [hsingle]
      exact Finset.mem_singleton_self d
    obtain ⟨_, _, _, _, hsimple, _⟩ := id hpath
    have hleft := (hc.mem_walkVertices_iff hsimple (fun heq => hself heq.symm)
      hmem').mp hmem
    refine ⟨e, ⟨_, r, _, (order.outEdges.mem_enum _).mpr hout, hpath, hmem'⟩, r, _,
      hpath, ?_⟩
    rw [if_neg hself, eq_comm, wayOut_eq_error_iff]
    refine ⟨q.reverse, d, p.reverse, ?_, fun c hcq => ?_, hdecision,
      (findDifferentOutEdge_eq_error_iff hdout).mpr hsingle⟩
    · rw [List.reverse_append, List.reverse_cons, List.append_assoc]
      rfl
    · have hcq' := List.mem_reverse.mp hcq
      exact ⟨hq c hcq', hleft c hcq'⟩

end narrow

end Heap

/-! ## Decisions with a single out-edge -/

/-- The statements that are, or are linked to, a decision statement with a
single out-edge: a `SwitchUnlinked` with one case.  An `If` or a `Switch` that
stands in the list already linked just falls through. -/
def Statement.hasOneWayOut : Statement → Bool
  | .switchUnlinked [_] => true
  | .ifStatement _ | .switchStatement => true
  | _ => false

theorem length_filterMap_eq {m : LabelMap} {names : List String}
    (hnames : ∀ name ∈ names, (m name).isSome = true) :
    (names.filterMap m).length = names.length := by
  induction names with
  | nil => rfl
  | cons name rest ih =>
      obtain ⟨t, ht⟩ :=
        Option.isSome_iff_exists.mp (hnames name List.mem_cons_self)
      rw [List.filterMap_cons_some ht, List.length_cons, List.length_cons,
        ih fun name' hname => hnames name' (List.mem_cons_of_mem name hname)]

/-- What is linked to another decision statement has two out-edges or more. -/
theorem Heap.two_le_length_linkArcs {m : LabelMap} {st new : Statement}
    (hnew : linkedStatement m st = some new)
    (hdecision : new.isDecisionStatement = true)
    (hlabels : ∀ name ∈ st.linkTargets, (m name).isSome = true)
    (hways : st.hasOneWayOut = false) : 2 ≤ (linkArcs m st).length := by
  cases st with
  | ifUnlinked condition ifTrue ifFalse =>
      cases htrue : m ifTrue <;> cases hfalse : m ifFalse <;>
        simp_all [linkArcs, linkedStatement]
  | switchUnlinked caseList =>
      have hlength : (linkArcs m (.switchUnlinked caseList)).length =
          caseList.length := by
        rw [linkArcs, caseArcs, List.length_map]
        exact length_filterMap_eq hlabels
      rw [hlength]
      cases caseList with
      | nil => exact absurd hnew (by simp [linkedStatement])
      | cons name rest =>
          cases rest with
          | nil => exact absurd hways (by simp [Statement.hasOneWayOut])
          | cons name' rest =>
              rw [List.length_cons, List.length_cons]
              omega
  | gotoUnlinked linkTargetName =>
      obtain ⟨_, _, rfl⟩ := Option.map_eq_some_iff.mp hnew
      exact absurd hdecision (by decide)
  | returnUnlinked returnVarName =>
      obtain ⟨_, _, rfl⟩ := Option.map_eq_some_iff.mp hnew
      exact absurd hdecision (by decide)
  | _ => exact absurd hnew (by simp [linkedStatement])

namespace FlowConnected

variable {h k : Heap} {this : FunctionPtr} {l : List VertexPtr}
  {ρ : VertexPtr → VertexPtr} (hf : h.Fresh this l)
  (hk : FlowConnected h this l ρ k)

include hf hk

/-- The arcs of the list are out-edges of the linked graph. -/
theorem length_jumpArcs_le {v : VertexPtr} (hv : v ∈ l)
    (hends : h.endsBasicBlock v = true) :
    (h.jumpArcs l v).length ≤ k.outDegree (ρ v) := by
  have hmem : v ∈ h.originals l := Heap.mem_originals.mpr (.inr (.inr hv))
  have howned := hk.map_owned hf hmem
  have hcount : ((h.linkedArcs l).map (Arc.map ρ)).countP (·.source = ρ v) =
      (h.jumpArcs l v).length := by
    rw [← linkedArcs_filter_of_endsBasicBlock hf hv hends,
      ← List.countP_eq_length_filter, List.countP_map]
    refine List.countP_congr fun a ha => ?_
    rw [Function.comp_apply, decide_eq_true_iff, decide_eq_true_iff]
    exact hk.injOn.eq_iff (linkedArcs_mem ha).1 hmem
  rw [← Heap.card_outArcs, hk.consistent.outArcs_eq hk.encloses
    (hf.ne_null_of_owned howned) howned, Multiset.card_map,
    ← Multiset.countP_eq_card_filter, hk.arcs, Multiset.coe_countP,
    List.countP_append, List.countP_append, hcount]
  omega

/-- A decision statement with a single out-edge comes from a statement that
promises no more. -/
theorem exists_hasOneWayOut (hdef : LabelsDefined (h.statements l))
    {d : EdgePtr} (hd : d ∈ (k.graph (h.function this).theCfg).edges)
    (hdecision :
      (k.vertex (k.edge d).source).statement.isDecisionStatement = true)
    (hsingle : k.outDegree (k.edge d).source = 1) :
    ∃ v ∈ l, ρ v = (k.edge d).source ∧ (h.statementOf v).hasOneWayOut = true := by
  have harc : k.arc d ∈ k.arcs (h.function this).theCfg :=
    Multiset.mem_map_of_mem _ hd
  rw [hk.arcs, Multiset.mem_coe, List.mem_append, List.mem_append,
    List.mem_map] at harc
  rcases harc with (⟨a, ha, heq⟩ | ha) | ha
  · have hmem := (linkedArcs_mem ha).1
    have hsource : ρ a.source = (k.edge d).source := congrArg Arc.source heq
    rw [← hsource] at hdecision hsingle ⊢
    rw [hk.statement_map hf hmem, Heap.linkedStatementOf] at hdecision
    rcases Heap.mem_originals.mp hmem with hentry | hexit | hv
    · rw [hentry, Heap.replacement, Heap.statementOf_entryPtr] at hdecision
      exact absurd hdecision Bool.false_ne_true
    · rw [hexit, Heap.replacement, Heap.statementOf_exitPtr] at hdecision
      exact absurd hdecision Bool.false_ne_true
    · refine ⟨a.source, hv, rfl, ?_⟩
      cases hnew : h.replacement l a.source with
      | none =>
          rw [hnew, Option.getD_none] at hdecision
          cases hst : h.statementOf a.source <;>
            simp_all [Statement.isDecisionStatement, Statement.hasOneWayOut]
      | some new =>
          rw [hnew, Option.getD_some] at hdecision
          by_contra hways
          have hlabels : ∀ name ∈ (h.statementOf a.source).linkTargets,
              (h.labelMapOf l name).isSome = true := by
            intro name hname
            have hst := (mem_statements_iff hf).mpr ⟨_, hv, rfl⟩
            obtain ⟨_, t, _, _, hmap⟩ :=
              labelMapOf_of_mem hf (hdef _ hst name hname)
            rw [hmap]
            rfl
          have htwo := Heap.two_le_length_linkArcs hnew hdecision hlabels
            (Bool.not_eq_true _ ▸ hways)
          have hle := hk.length_jumpArcs_le hf hv
            (Heap.endsBasicBlock_of_replacement hnew)
          rw [Heap.jumpArcs, arcsFrom, List.length_map] at hle
          omega
  · -- An Impossible edge leads from a statement as it was in the list.
    obtain ⟨p, hp, heq⟩ := List.mem_map.mp ha
    obtain ⟨hmem, hends⟩ := immediatePredecessor_mem (List.mem_of_mem_filter hp)
    have hsource : p.immediatePredecessor = (k.edge d).source :=
      congrArg Arc.source heq
    rw [← hsource, hk.statement_old _ (hf.lt_of_mem_originals
      (Heap.mem_originals.mpr (.inr (.inr hmem))))] at hdecision
    rw [Heap.endsBasicBlock] at hends
    cases hst : h.statementOf p.immediatePredecessor <;>
      simp_all [Statement.isDecisionStatement, Statement.isFlowControlUnlinked]
  · have hshape := hk.flowShape hf
    rcases List.mem_cons.mp ha with heq | ha
    · have hsource : (k.edge d).source = h.entryPtr := congrArg Arc.source heq
      rw [hsource, hshape.entry_statement] at hdecision
      exact absurd hdecision Bool.false_ne_true
    · have hsource : (k.edge d).source = h.exitPtr :=
        congrArg Arc.source (List.mem_singleton.mp ha)
      rw [hsource, hshape.exit_statement] at hdecision
      exact absurd hdecision Bool.false_ne_true

/-- The decision of a narrow loop is in the list. -/
theorem hasOneWayOut_of_narrowLoop (hdef : LabelsDefined (h.statements l))
    {order : IterationOrder} {e d : EdgePtr}
    (hloop : k.NarrowLoop order
      (k.searchRoots order (h.function this).theCfg h.entryPtr) e d) :
    ∃ v ∈ l, ρ v = (k.edge d).source ∧ (h.statementOf v).hasOneWayOut = true := by
  obtain ⟨r, p, q, _, _, hpath, _, hdecision, _, hsingle⟩ := hloop
  obtain ⟨pre, post, hroots, _, hleast⟩ := hpath
  obtain ⟨w, hp, hd⟩ := isWalk_append_iff.mp hleast.1.1
  have hr : r ∈ h.owned l := hk.roots_owned hf order r (by simp [hroots])
  have hw := hk.consistent.mem_of_isWalk hk.encloses hr hp
  have hsource := ((hk.consistent.mem_incidence_out order w d).mp hd.1).1
  refine hk.exists_hasOneWayOut hf hdef ?_ hdecision ?_
  · exact (hk.encloses.mem_edges_source d).mpr (hsource ▸ hw)
  · rw [Heap.outDegree, hsingle, Finset.card_singleton]

end FlowConnected

/-- With all labels defined, `FindDifferentOutEdge` runs off the out-edges of a
decision statement exactly when some loop is left through a statement of the
list that has one way out only. -/
theorem createControlFlowGraph_findsOutEdge_iff {h : Heap} {this : FunctionPtr}
    {l : List VertexPtr} (hf : h.Fresh this l)
    (hdef : LabelsDefined (h.statements l))
    (fixupOrder removalOrder : IterationOrder) :
    ∃ k ρ, h.connectedFlow this l = .ok k ∧ FlowConnected h this l ρ k ∧
      ((∀ k', h.createControlFlowGraph fixupOrder removalOrder this l ≠
          .error ⟨.endDereference, k'⟩) ↔
        ¬ ∃ e d, k.NarrowLoop fixupOrder (k.searchRoots fixupOrder
            (h.function this).theCfg h.entryPtr) e d ∧
          ∃ v ∈ l, ρ v = (k.edge d).source ∧
            (h.statementOf v).hasOneWayOut = true) := by
  obtain ⟨k, ρ, hrun, hk⟩ := connectedFlow_spec hf
  refine ⟨k, ρ, hrun, hk, ?_⟩
  have hloop : k.NoWayOut fixupOrder _ ↔ ∃ e d, k.NarrowLoop fixupOrder
      (k.searchRoots fixupOrder (h.function this).theCfg h.entryPtr) e d :=
    hk.consistent.noWayOut_iff
  rcases createControlFlowGraph_spec hf hrun hk fixupOrder removalOrder with
    ⟨hno, herror⟩ | ⟨hno, _, _, h', hok, _⟩
  · obtain ⟨e, d, hed⟩ := hloop.mp hno
    exact iff_of_false (fun hnever => hnever k herror) fun hnone =>
      hnone ⟨e, d, hed, hk.hasOneWayOut_of_narrowLoop hf hdef hed⟩
  · refine iff_of_true (fun k' => by simp [hok]) ?_
    rintro ⟨e, d, hed, _⟩
    exact hno (hloop.mpr ⟨e, d, hed⟩)

/-- An endless loop over a `switch` with a single case. -/
def switchLoop : List Statement :=
  [.label "L", .switchUnlinked ["A"], .label "A", .gotoUnlinked "L"]

/-- `FixupBackEdges` goes wrong on the graph of `switchLoop`. -/
theorem switchLoop_flow :
    ∃ k : Heap, (Heap.singleFunction switchLoop).2.connectedFlow 1
        (Heap.singleFunction switchLoop).1 = .ok k ∧
      k.Consistent ∧ k.Encloses 1 (k.graph 1).vertices ∧
        (∀ e ∈ (k.graph 1).edges, (k.edge e).isBackEdge = false) ∧
          (k.function 1).theCfg = 1 ∧ (k.function 1).entryVertexDesc = 5 ∧
            ∃ thrown, k.fixupBackEdges .ascending 1 5 = .error thrown ∧
              thrown.fault = .endDereference := by
  obtain ⟨k, ρ, hrun, hk⟩ :=
    connectedFlow_spec (Heap.singleFunction_fresh switchLoop)
  have hcheck : ((Heap.singleFunction switchLoop).2.connectedFlow 1
      (Heap.singleFunction switchLoop).1).Holds fun k =>
      (∀ e ∈ (k.graph 1).edges, (k.edge e).source ∈ (k.graph 1).vertices ∧
        (k.edge e).target ∈ (k.graph 1).vertices) ∧
      ((k.function 1).theCfg = 1 ∧ (k.function 1).entryVertexDesc = 5) ∧
      ((k.fixupBackEdges .ascending 1 5).mapError Thrown.fault).map
        (fun _ => ()) = .error .endDereference := by
    decide +kernel
  obtain ⟨_, hok, hends, hfunction, herror⟩ := hcheck
  obtain rfl := Except.ok.inj (hrun.symm.trans hok)
  refine ⟨k, hrun, hk.consistent, hk.encloses.subset
    (hk.vertices_subset (Heap.singleFunction_fresh _)) hends, hk.unmarked,
    hfunction.1, hfunction.2, ?_⟩
  cases hfix : k.fixupBackEdges .ascending 1 5 with
  | ok h' => simp [hfix, Except.mapError, Except.map] at herror
  | error thrown =>
      refine ⟨thrown, rfl, ?_⟩
      simpa [hfix, Except.mapError, Except.map] using herror

theorem createControlFlowGraph_switchLoop :
    (Heap.singleFunction switchLoop).2.Fresh 1
        (Heap.singleFunction switchLoop).1 ∧
      LabelsDefined switchLoop ∧
        ∃ k, (Heap.singleFunction switchLoop).2.createControlFlowGraph
          .ascending .ascending 1 (Heap.singleFunction switchLoop).1 =
            .error ⟨.endDereference, k⟩ := by
  refine ⟨Heap.singleFunction_fresh _, by unfold LabelsDefined; decide, ?_⟩
  obtain ⟨k, hrun, _, _, _, hcfg, hentry, ⟨fault, k'⟩, hfix, hfault⟩ :=
    switchLoop_flow
  obtain rfl : fault = .endDereference := hfault
  refine ⟨k', ?_⟩
  unfold Heap.createControlFlowGraph
  rw [hrun]
  simp only [bind, Except.bind, hcfg, hentry, hfix]

/-- A loop that is left through one of the two cases of a `switch`. -/
def switchedLoop : List Statement :=
  [.label "L", .switchUnlinked ["A", "B"], .label "A", .gotoUnlinked "L", .label "B"]

/-- The `switch` of `switchedLoop` has two ways out. -/
theorem createControlFlowGraph_findsOutEdge_iff_switchedLoop :
    LabelsDefined switchedLoop ∧
      (∀ v ∈ (Heap.singleFunction switchedLoop).1,
        ((Heap.singleFunction switchedLoop).2.statementOf v).hasOneWayOut = false) ∧
      ∀ k', (Heap.singleFunction switchedLoop).2.createControlFlowGraph
        .ascending .ascending 1 (Heap.singleFunction switchedLoop).1 ≠
          .error ⟨.endDereference, k'⟩ := by
  have hdef : LabelsDefined switchedLoop := by
    unfold LabelsDefined
    decide
  have hways : ∀ v ∈ (Heap.singleFunction switchedLoop).1,
      ((Heap.singleFunction switchedLoop).2.statementOf v).hasOneWayOut = false := by
    decide
  obtain ⟨k, ρ, _, _, hiff⟩ := createControlFlowGraph_findsOutEdge_iff
    (Heap.singleFunction_fresh switchedLoop) hdef .ascending .ascending
  refine ⟨hdef, hways, hiff.mpr ?_⟩
  rintro ⟨e, d, _, v, hv, _, hone⟩
  rw [hways v hv] at hone
  exact Bool.false_ne_true hone

/-! ## Nothing is cut off -/

namespace Heap

section cutsNothingOff

variable (h : Heap) (order : IterationOrder) (g : GraphPtr) (entry : VertexPtr)

/-- Along a tree edge of the search `FixupBackEdges` makes. -/
def SearchTreeStep (u v : VertexPtr) : Prop :=
  TreeStep (h.incidence order)
    (h.depthFirstSearch order (h.searchRoots order g entry)) u v

/-- `h'` has the edges of `h`.  Marked are the self edges and the edges to an
ancestor, and the other edges lead wherever all of them led. -/
structure CutsNothingOff (h' : Heap) : Prop where
  kept : ∀ e ∈ (h.graph g).edges, e ∈ (h'.graph g).edges ∧
    ∃ isBackEdge, h'.edge e = { h.edge e with isBackEdge }
  marked : ∀ e ∈ (h'.graph g).edges, (h'.edge e).isBackEdge = true ↔
    e ∈ (h.graph g).edges ∧ ((h.edge e).target = (h.edge e).source ∨
      TransGen (h.SearchTreeStep order g entry) (h.edge e).target
        (h.edge e).source)
  reaches : ∀ v, ReflTransGen (h.EdgeStep g) entry v →
    ReflTransGen (h'.UnmarkedStep g) entry v

variable {h order g entry}

/-- The back edges of the search are the edges to ancestors. -/
theorem Consistent.isBackEdge_iff (hc : h.Consistent)
    (hM : h.Encloses g (h.graph g).vertices) {e : EdgePtr}
    (he : e ∈ (h.graph g).edges) :
    IsBackEdge (h.incidence order) (h.searchRoots order g entry) e ↔
      (h.edge e).target = (h.edge e).source ∨
        TransGen (h.SearchTreeStep order g entry) (h.edge e).target
          (h.edge e).source := by
  obtain ⟨hstack, hroots⟩ :=
    hc.depthFirstSearch_finished order (h.searchRoots order g entry)
  have hinv := Inv.of_reaches (hc.incidence_proper order)
    (reaches_depthFirstSearch order h (h.searchRoots order g entry))
  have hroot : (h.edge e).source ∈ h.searchRoots order g entry :=
    List.mem_cons_of_mem _
      ((order.vertices.mem_enum _).mpr ((hM.mem_edges_source e).mp he))
  exact hinv.isBackEdge_iff_ancestor (hc.incidence_proper order)
    (hc.searchUniverse order _) hstack hroots ⟨_, hroot, [], rfl⟩
    ((hc.mem_incidence_out order _ e).mpr ⟨rfl, hc.edges_attached g e he⟩)

/-- A walk along forward edges of the search. -/
theorem Consistent.reflTransGen_forwardStep (hc : h.Consistent)
    {M : Set VertexPtr} (hM : h.Encloses g M)
    (hunmarked : ∀ e ∈ (h.graph g).edges, (h.edge e).isBackEdge = false)
    {roots : List VertexPtr} {u v : VertexPtr} {p : List EdgePtr}
    (hu : u ∈ M) (hwalk : IsWalk (h.incidence order) u p v)
    (hforward : ∀ e ∈ p, IsForwardEdge (h.incidence order) roots e) :
    ReflTransGen (h.ForwardStep order g roots) u v := by
  induction p generalizing u with
  | nil =>
      have huv : u = v := hwalk
      rw [huv]
  | cons e p ih =>
      obtain ⟨hsource, _⟩ := (hc.mem_incidence_out order u e).mp hwalk.1
      have he : e ∈ (h.graph g).edges :=
        (hM.mem_edges_source e).mpr (hsource ▸ hu)
      have hback := (hforward e List.mem_cons_self).not_isBackEdge
        (hc.incidence_proper order)
      have hrest := ih ((hM.mem_edges_target e).mp he) hwalk.2
        fun d hd => hforward d (List.mem_cons_of_mem e hd)
      exact hrest.head ⟨e, he, hsource, rfl, hunmarked e he, hback⟩

/-- The tree path to a vertex leads along edges the search does not mark. -/
theorem Consistent.reaches_forwardStep (hc : h.Consistent)
    {M : Set VertexPtr} (hM : h.Encloses g M)
    (hunmarked : ∀ e ∈ (h.graph g).edges, (h.edge e).isBackEdge = false)
    {v : VertexPtr} (hv : ReflTransGen (h.EdgeStep g) entry v) :
    ReflTransGen (h.ForwardStep order g (h.searchRoots order g entry)) entry
      v := by
  obtain ⟨d, hd⟩ := hc.isWalk_of_reflTransGen order hv
  obtain ⟨r, p, hpath, hforward⟩ := exists_searchPath (hc.incidence_proper order)
    (hc.searchUniverse order (h.searchRoots order g entry))
    ⟨entry, List.mem_cons_self, d, hd⟩
  obtain rfl := hpath.root_eq hd
  obtain ⟨_, _, _, _, hleast⟩ := hpath
  rcases hv.cases_head with heq | ⟨w, ⟨e, he, hsource, _⟩, _⟩
  · rw [heq]
  · exact hc.reflTransGen_forwardStep hM hunmarked
      (hsource ▸ (hM.mem_edges_source e).mp he) hleast.1.1 hforward

theorem FixedUp.cutsNothingOff {h' : Heap} (hc : h.Consistent)
    (hM : h.Encloses g (h.graph g).vertices)
    (hunmarked : ∀ e ∈ (h.graph g).edges, (h.edge e).isBackEdge = false)
    (hfix : FixedUp h order g (h.searchRoots order g entry) h') :
    h.CutsNothingOff order g entry h' where
  kept e he := by
    obtain ⟨isBackEdge, hedge, _⟩ :=
      hfix.old e (hc.lt_nextEdge (hc.edges_attached g e he))
    exact ⟨(hfix.mem_edges g e).mpr (.inl he), isBackEdge, hedge⟩
  marked e he := by
    rcases (hfix.mem_edges g e).mp he with hold | ⟨_, hle, hlt⟩
    · obtain ⟨isBackEdge, hedge, hiff⟩ :=
        hfix.old e (hc.lt_nextEdge (hc.edges_attached g e hold))
      rw [hedge, ← hc.isBackEdge_iff hM hold]
      simp only [hiff, hunmarked e hold, hold, Bool.false_eq_true, false_or,
        true_and]
    · -- The new edges are not marked.
      obtain ⟨s, t, _, hedge⟩ := hfix.new e hle hlt
      rw [hedge]
      refine iff_of_false (by simp) fun hmarked => ?_
      have hlt' := hc.lt_nextEdge (hc.edges_attached g e hmarked.1)
      exact absurd hlt' (Nat.not_lt.mpr hle)
  reaches v hv := by
    have hforward : ReflTransGen
        (h.ForwardStep order g (h.searchRoots order g entry)) entry v :=
      hc.reaches_forwardStep hM hunmarked hv
    refine ReflTransGen.mono (fun u w hstep => ?_) _ _ hforward
    exact (hfix.unmarkedStep_iff hc u w).mpr (.inl hstep)

end cutsNothingOff

end Heap

/-- `FixupBackEdges` marks what it should and cuts nothing off, unless it comes
to a decision statement with a single out-edge on its way back along a loop. -/
theorem fixupBackEdges_cutsNothingOff_iff {h : Heap} (hc : h.Consistent)
    {g : GraphPtr} (hM : h.Encloses g (h.graph g).vertices)
    (hunmarked : ∀ e ∈ (h.graph g).edges, (h.edge e).isBackEdge = false)
    (entry : VertexPtr) (order : IterationOrder) :
    (h.fixupBackEdges order g entry).Holds
        (fun h' => h.CutsNothingOff order g entry h') ↔
      ¬ ∃ e d, h.NarrowLoop order (h.searchRoots order g entry) e d := by
  rw [← hc.noWayOut_iff]
  rcases hc.fixupBackEdges_spec order g entry with
    ⟨hno, hrun⟩ | ⟨hno, h', hrun, hfix⟩
  · rw [hrun]
    exact iff_of_false Result.not_holds_error fun hcond => hcond hno
  · rw [hrun, Result.holds_ok]
    exact iff_of_true (hfix.cutsNothingOff hc hM hunmarked) hno

theorem fixupBackEdges_switchLoop :
    ∃ (h : Heap) (g : GraphPtr) (entry : VertexPtr) (order : IterationOrder),
      h.Consistent ∧ h.Encloses g (h.graph g).vertices ∧
        (∀ e ∈ (h.graph g).edges, (h.edge e).isBackEdge = false) ∧
          ¬ (h.fixupBackEdges order g entry).Holds (fun h' =>
            h.CutsNothingOff order g entry h') := by
  obtain ⟨k, _, hc, hM, hunmarked, _, _, thrown, hfix, _⟩ := switchLoop_flow
  refine ⟨k, 1, 5, .ascending, hc, hM, hunmarked, ?_⟩
  rw [hfix]
  exact Result.not_holds_error

theorem fixupBackEdges_cutsNothingOff_iff_whileLoop :
    ∃ h : Heap, (Heap.singleFunction whileLoop).2.connectedFlow 1
        (Heap.singleFunction whileLoop).1 = .ok h ∧
      (¬ ∃ e d, h.NarrowLoop .ascending (h.searchRoots .ascending 1 7) e d) ∧
      (h.fixupBackEdges .ascending 1 7).Holds
        (fun h' => h.CutsNothingOff .ascending 1 7 h') := by
  obtain ⟨k, _, hrun, -, hc, hM, hno, _⟩ := whileLoop_flow
  obtain ⟨k', _, hrun', hk⟩ := connectedFlow_spec (Heap.singleFunction_fresh whileLoop)
  obtain rfl := Except.ok.inj (hrun.symm.trans hrun')
  rw [hc.noWayOut_iff] at hno
  exact ⟨k, hrun, hno,
    (fixupBackEdges_cutsNothingOff_iff hc hM hk.unmarked 7 .ascending).mpr hno⟩

end CoFlo.Ports
