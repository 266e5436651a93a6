import CoFlo.Ports.MatchedCalls
import CoFlo.Ports.ReachabilitySearch

/-!
# What `RunRule` finds

A run of `RunRule` that ends has either found the sink, and then
`m_predecessors` is a path of the program from ENTRY of the source to ENTRY of
the sink, or it has not, and then the list is empty and no path without a
return leads to the sink.
-/

namespace CoFlo.Ports

open CoFlo.Verified CoFlo.Verified.StepMachine
open CoFlo.Verified.ContextSearch (Kind Frame Step Aligned Grounded Discovered
  Threaded tip)
open Relation (ReflTransGen)

open ReachabilityVisitor (flow kind mem_outEdgeList Simulates SearchState Found
  searchStart searchStart_of_eq_false simulates_start searchState_of_reaches
  stack_eq_nil_of_step_eq_none step_simulates)

namespace RuleReachability

/-! ## Looking for ENTRY of the sink -/

/-- Along an edge of the program that neither is closed nor returns from a
call. -/
def ForwardStep (h : Heap) (u v : VertexPtr) : Prop :=
  ∃ e ∈ (h.vertex u).outEdges, (h.edge e).edgeType.isImpossible = false ∧
    (h.edge e).isBackEdge = false ∧ (h.edge e).edgeType.isReturn = false ∧
      (h.edge e).target = v

instance (h : Heap) (u v : VertexPtr) : Decidable (ForwardStep h u v) :=
  inferInstanceAs (Decidable (∃ e ∈ (h.vertex u).outEdges,
    (h.edge e).edgeType.isImpossible = false ∧ (h.edge e).isBackEdge = false ∧
      (h.edge e).edgeType.isReturn = false ∧ (h.edge e).target = v))

theorem searchStart_of_ne {functions : List FunctionPtr}
    {home : VertexPtr → FunctionPtr} {h : Heap}
    (hp : ProgramFlow functions home h) (o : SetOrder)
    {source sink : FunctionPtr} (hsource : source ∈ functions)
    (hsink : sink ∈ functions) (hne : source ≠ sink) :
    searchStart h o source (pred h sink) =
      ContextSearch.init (flow h o) (h.function source).entryVertexDesc := by
  have hentry : pred h sink (h.function source).entryVertexDesc = false := by
    refine decide_eq_false fun heq => hne ?_
    rw [← hp.home_entry hsource, heq, hp.home_entry hsink]
  exact searchStart_of_eq_false hentry

/-! ## A violation is a path -/

/-- A path of the program from ENTRY of the source to ENTRY of the sink, behind
the self edge `RunRule` puts in front. -/
structure ViolatingPath (h : Heap) (functions : List FunctionPtr)
    (source sink : FunctionPtr) (path : List EdgePtr) : Prop where
  ne_nil : path ≠ []
  mem_edges : ∀ e ∈ path, ∃ g ∈ functions, e ∈ (h.graph g).edges
  head : ∀ e, path.head? = some e →
    (h.edge e).source = (h.function source).entryVertexDesc
  chain : ((h.function source).entryVertexSelfEdge :: path).IsChain
    fun d e => (h.edge e).source = (h.edge d).target
  followed : ∀ e ∈ path, (h.edge e).edgeType.isImpossible = false ∧
    (h.edge e).isBackEdge = false
  last : ∀ e, path.getLast? = some e →
    (h.edge e).target = (h.function sink).entryVertexDesc ∧
      ∃ c g params, (h.edge e).source = c ∧
        (h.edge e).edgeType = .functionCall c g ∧
        (h.vertex c).statement = .functionCallResolved sink params

section path

variable {functions : List FunctionPtr} {home : VertexPtr → FunctionPtr}
  {h : Heap} (hp : ProgramFlow functions home h) {o : SetOrder}

include hp

omit hp in
/-- An edge that is let through. -/
theorem followed_of_kind {e : EdgePtr} (hkind : kind h e ≠ .closed) :
    (h.edge e).edgeType.isImpossible = false ∧
      (h.edge e).isBackEdge = false := by
  unfold kind at hkind
  split_ifs at hkind with hback
  · exact absurd rfl hkind
  · refine ⟨?_, by simpa using hback⟩
    cases htype : (h.edge e).edgeType <;>
      simp_all [EdgeType.isImpossible]

/-- The path of the search, from the first edge to the last. -/
theorem chain_of_threaded {r : VertexPtr} {fake : EdgePtr}
    (hfake : (h.edge fake).target = r) {stack : List (VertexPtr × List EdgePtr)}
    {path : List EdgePtr} (hthread : Threaded (flow h o) r stack path) :
    (fake :: path.reverse).IsChain
        (fun d e => (h.edge e).source = (h.edge d).target) ∧
      (∀ e, (fake :: path.reverse).getLast? = some e →
        (h.edge e).target = tip (flow h o) r path) ∧
      ∀ e ∈ path, (h.edge e).source ≠ null ∧ kind h e ≠ .closed := by
  induction hthread with
  | root _ =>
      refine ⟨List.isChain_singleton _, fun e he => ?_, fun e he => ?_⟩
      · have heq : fake = e := Option.some.inj he
        rw [← heq, hfake]
        rfl
      · exact absurd he List.not_mem_nil
  | @edge u rem rem' rest e path hthread hout hkind _ ih =>
      obtain ⟨hchain, hlast, hmem⟩ := ih
      obtain ⟨hesource, hu⟩ := (mem_outEdgeList hp.consistent).mp hout
      refine ⟨?_, fun d hd => ?_, fun d hd => ?_⟩
      · rw [List.reverse_cons, ← List.cons_append]
        refine List.isChain_append.mpr ⟨hchain, List.isChain_singleton _, ?_⟩
        intro d hd d' hd'
        have hd'e : e = d' := by simpa using hd'
        rw [← hd'e, hlast d hd, hesource]
        exact hthread.top.1
      · rw [List.reverse_cons, ← List.cons_append, List.getLast?_concat] at hd
        rw [← Option.some.inj hd]
        rfl
      · rcases List.mem_cons.mp hd with rfl | hd
        · exact ⟨hesource ▸ hu, hkind⟩
        · exact hmem d hd

/-- An edge to ENTRY of a function that is let through calls the function. -/
theorem call_of_target {sink : FunctionPtr} (hsink : sink ∈ functions)
    {e : EdgePtr} (he : (h.edge e).source ≠ null) (hkind : kind h e ≠ .closed)
    (htarget : (h.edge e).target = (h.function sink).entryVertexDesc) :
    ∃ c g params, (h.edge e).source = c ∧
      (h.edge e).edgeType = .functionCall c g ∧
      (h.vertex c).statement = .functionCallResolved sink params := by
  have hfollowed := followed_of_kind hkind
  rcases hp.edgeType e he with hintra | hcall | hreturn
  · -- The self edge is the only edge of the function itself to its ENTRY.
    have hhome := hp.home_eq_home e he hintra
    rw [htarget, hp.home_entry hsink] at hhome
    have hself := hp.enter e he hintra (by rw [← hhome]; exact htarget)
    rw [← hhome] at hself
    have hback : (h.edge e).isBackEdge = true := by
      rw [hself, hp.entrySelf sink hsink]
    rw [hfollowed.2] at hback
    exact absurd hback (by decide)
  · cases htype : (h.edge e).edgeType with
    | functionCall c g =>
        obtain ⟨hc, _, params, hst, htarget'⟩ := hp.callEdge e c g he htype
        have hhome := hp.home_source e he
        rw [hc] at hhome
        have hg := (hp.resolved c g params hhome hst).1
        have hsinkg : sink = g := by
          rw [← hp.home_entry hsink, ← htarget, htarget', hp.home_entry hg]
        exact ⟨c, g, params, hc, rfl, hsinkg ▸ hst⟩
    | _ =>
        rw [htype] at hcall
        exact Bool.noConfusion hcall
  · cases htype : (h.edge e).edgeType with
    | returnEdge c =>
        obtain ⟨hc, _, f, params, d, hst, _, hd, htarget'⟩ :=
          hp.returnEdge e c he htype
        -- A fallthrough edge does not lead to ENTRY.
        obtain ⟨hdsource, hdtype⟩ := (hd d).mpr rfl
        have hd0 : (h.edge d).source ≠ null :=
          hdsource ▸ (hp.allocated c hc).1
        have hintra : (h.edge d).edgeType.isIntraprocedural = true := by
          cases htype' : (h.edge d).edgeType <;> rw [htype'] at hdtype <;>
            first | rfl | exact Bool.noConfusion hdtype
        rw [htarget] at htarget'
        have hhome := hp.home_eq_home d hd0 hintra
        rw [← htarget', hp.home_entry hsink] at hhome
        have hself := hp.enter d hd0 hintra (by rw [← hhome]; exact htarget'.symm)
        rw [← hhome] at hself
        have hcentry : c = (h.function sink).entryVertexDesc := by
          rw [← hdsource, hself, hp.entrySelf sink hsink]
        rw [hcentry, hp.entryStatement hsink] at hst
        exact absurd hst (by simp)
    | _ =>
        rw [htype] at hreturn
        exact Bool.noConfusion hreturn

variable {source sink : FunctionPtr} (hsource : source ∈ functions)
  (hsink : sink ∈ functions)

include hsource hsink

theorem violatingPath_of_found {t : State}
    {b : ContextSearch.State VertexPtr EdgePtr}
    (haligned : Aligned (flow h o) (h.function source).entryVertexDesc b)
    (hfound : Found h o (pred h sink) (h.function source).entryVertexSelfEdge
      (h.function source).entryVertexDesc t b) :
    ViolatingPath h functions source sink b.path.reverse := by
  have hthread : Threaded (flow h o) (h.function source).entryVertexDesc b.stack
      b.path := haligned.resolve_left fun hnil => hfound.stack hnil.1
  have hself : (h.edge (h.function source).entryVertexSelfEdge).target =
      (h.function source).entryVertexDesc := by rw [hp.entrySelf source hsource]
  obtain ⟨hchain, hlast, hmem⟩ := chain_of_threaded hp hself hthread
  have hne : b.path.reverse ≠ [] := by
    rw [ne_eq, List.reverse_eq_nil_iff]
    exact hfound.ne_nil
  refine ⟨hne, fun e he => ?_, fun e he => ?_, hchain, fun e he => ?_,
    fun e he => ?_⟩
  · have he0 := (hmem e (List.mem_reverse.mp he)).1
    exact ⟨_, hp.home_source e he0,
      (hp.mem_edges _ (hp.home_source e he0) e).mpr ⟨he0, rfl⟩⟩
  · cases hpath : b.path.reverse with
    | nil => exact absurd hpath hne
    | cons d path =>
        rw [hpath] at he hchain
        rw [← Option.some.inj he, ← hself]
        exact (List.isChain_cons_cons.mp hchain).1
  · exact followed_of_kind (hmem e (List.mem_reverse.mp he)).2
  · have hetarget := hlast e (by
      rw [List.getLast?_cons, he]
      rfl)
    rw [of_decide_eq_true hfound.tip] at hetarget
    have hemem := hmem e (List.mem_reverse.mp (List.mem_of_getLast? he))
    exact ⟨hetarget, call_of_target hp hsink hemem.1 hemem.2 hetarget⟩

end path

/-- What `RunRule` reports is a path of the program to the sink, and the list
is empty when the traversal ends without finding it. -/
theorem runRule_sound {p : Program} (hp : LinkedProgram p)
    {source sink : FunctionPtr} (hsource : source ∈ p.functions)
    (hsink : sink ∈ p.functions) (o : SetOrder) {t : State}
    (ht : Reaches (step p.heap o sink) (start p.heap o source sink) t)
    (hend : step p.heap o sink t = none) :
    (t.stop = none ∧ t.visitor = []) ∨
      t.stop = some .returned ∧ violation t = true ∧
        ∃ path, t.visitor =
            (p.heap.function source).entryVertexSelfEdge :: path ∧
          ViolatingPath p.heap p.functions source sink path := by
  obtain ⟨home, hflow, _⟩ := hp.flow
  have howner := hp.owningFunction_entry hsource
  cases searchState_of_reaches hflow hsource howner ht with
  | searching a _ hsim _ _ =>
      have hstack := stack_eq_nil_of_step_eq_none hsim hend
      refine .inl ⟨hsim.stop, ?_⟩
      rw [hsim.visitor, if_pos hstack]
  | found b _ haligned hfound =>
      refine .inr ⟨hfound.stop, ?_, _, hfound.visitor,
        violatingPath_of_found hflow hsource hsink haligned hfound⟩
      unfold violation
      rw [hfound.visitor]
      rfl

/-- A function that calls two others, one after the other. -/
def twoCalls : List FunctionInfo :=
  [⟨"f.c", "f", [(.functionCallUnresolved "g" "", .unknown),
    (.functionCallUnresolved "s" "", .unknown)]⟩,
   ⟨"f.c", "g", []⟩, ⟨"f.c", "s", []⟩]

/-- The run that looks for the second one ends after seven steps. -/
theorem twoCalls_run :
    ∃ p t, LinkedProgram p ∧ p.functions = [1, 2, 3] ∧
      Reaches (step p.heap .descending 3) (start p.heap .descending 1 3) t ∧
      step p.heap .descending 3 t = none ∧ t.visitor = [4, 1, 12, 6, 13, 14] ∧
      ReflTransGen (ForwardStep p.heap) (p.heap.function 1).entryVertexDesc
        (p.heap.function 3).entryVertexDesc := by
  have hcheck : (Program.parse blankMemory .ascending twoCalls).Holds fun p =>
      p.functions = [1, 2, 3] ∧
        (step p.heap .descending 3 (run (step p.heap .descending 3) 7
          (start p.heap .descending 1 3))).isNone = true ∧
        (run (step p.heap .descending 3) 7
          (start p.heap .descending 1 3)).visitor = [4, 1, 12, 6, 13, 14] ∧
        ForwardStep p.heap (p.heap.function 1).entryVertexDesc 9 ∧
        ForwardStep p.heap 9 10 ∧
        ForwardStep p.heap 10 (p.heap.function 3).entryVertexDesc := by
    decide +kernel
  obtain ⟨p, hrun, hfunctions, hend, hvisitor, hfirst, hsecond, hthird⟩ := hcheck
  exact ⟨p, _, linkedProgram_of_parse (by decide) hrun, hfunctions,
    reaches_run 7 _, Option.isNone_iff_eq_none.mp hend, hvisitor,
    ((ReflTransGen.single hfirst).tail hsecond).tail hthird⟩

theorem runRule_sound_twoCalls :
    ∃ p t, LinkedProgram p ∧
      Reaches (step p.heap .descending 3) (start p.heap .descending 1 3) t ∧
      t.visitor = [4, 1, 12, 6, 13, 14] ∧
      ((t.stop = none ∧ t.visitor = []) ∨
        t.stop = some .returned ∧ violation t = true ∧
          ∃ path, t.visitor =
              (p.heap.function 1).entryVertexSelfEdge :: path ∧
            ViolatingPath p.heap p.functions 1 3 path) := by
  obtain ⟨p, t, hp, hfunctions, ht, hend, hvisitor, _⟩ := twoCalls_run
  exact ⟨p, t, hp, ht, hvisitor, runRule_sound hp (by rw [hfunctions]; decide)
    (by rw [hfunctions]; decide) .descending ht hend⟩

/-! ## Nothing is missed -/

theorem ForwardStep.opens {functions : List FunctionPtr}
    {home : VertexPtr → FunctionPtr} {h : Heap}
    (hp : ProgramFlow functions home h) (o : SetOrder) {u v : VertexPtr}
    (huv : ForwardStep h u v) :
    ∃ e ∈ (flow h o).out u, ContextSearch.Opens (flow h o) e ∧
      (flow h o).target e = v := by
  obtain ⟨e, hout, himpossible, hback, hreturn, htarget⟩ := huv
  have he := (hp.consistent.mem_outEdges u e).mp hout
  refine ⟨e, (o.mem_enum _).mpr hout, ?_, htarget⟩
  show kind h e = .plain ∨ ∃ c, kind h e = .call c
  unfold kind
  rw [hback, if_neg Bool.false_ne_true]
  have hcase := hp.edgeType e (he.1 ▸ he.2)
  cases htype : (h.edge e).edgeType with
  | functionCall c g => exact .inr ⟨c, rfl⟩
  | impossible =>
      rw [htype] at himpossible
      exact absurd himpossible (by decide)
  | returnEdge c =>
      rw [htype] at hreturn
      exact absurd hreturn (by simp [EdgeType.isReturn])
  | functionCallBypass =>
      rw [htype] at hcase
      exact absurd hcase (by decide)
  | _ => exact .inl rfl

/-- The search goes on, or has ended, without having discovered the sink. -/
def Unfound (h : Heap) (o : SetOrder) (source sink : FunctionPtr) (t : State) :
    Prop :=
  ∃ a D, Simulates (h.function source).entryVertexSelfEdge t a ∧
    Aligned (flow h o) (h.function source).entryVertexDesc a ∧
      Grounded a.frames ∧ Discovered (flow h o) D a ∧
        (h.function source).entryVertexDesc ∈ D ∧
          (h.function sink).entryVertexDesc ∉ D

theorem unfound_start {functions : List FunctionPtr}
    {home : VertexPtr → FunctionPtr} {h : Heap}
    (hp : ProgramFlow functions home h) {o : SetOrder}
    {source sink : FunctionPtr} (hsource : source ∈ functions)
    (howner : (h.vertex (h.function source).entryVertexDesc).owningFunction =
      source) (hsink : sink ∈ functions) (hne : source ≠ sink) :
    Unfound h o source sink (start h o source sink) := by
  have hsim : Simulates _ (start h o source sink) _ :=
    simulates_start hp hsource howner
  rw [searchStart_of_ne hp o hsource hsink hne] at hsim
  refine ⟨_, _, hsim, ContextSearch.aligned_init _, rfl,
    ContextSearch.discovered_init _, rfl, fun heq => hne ?_⟩
  rw [← hp.home_entry hsource, ← Set.mem_singleton_iff.mp heq,
    hp.home_entry hsink]

theorem Unfound.preserved {functions : List FunctionPtr}
    {home : VertexPtr → FunctionPtr} {h : Heap}
    (hp : ProgramFlow functions home h) {o : SetOrder}
    {source sink : FunctionPtr} {t u : State} (ht : Unfound h o source sink t)
    (hstep : step h o sink t = some u) :
    Unfound h o source sink u ∨ u.stop = some .returned := by
  obtain ⟨a, D, hsim, haligned, hgrounded, hdiscovered, hentry, hsinkD⟩ := ht
  have havoids : ∀ i ∈ a.stack, pred h sink i.1 = false := fun i hi =>
    decide_eq_false fun heq => hsinkD (heq ▸ hdiscovered.stack i hi)
  obtain ⟨b, hb, hcase⟩ := step_simulates hp hsim haligned hgrounded hstep
  rcases hcase with ⟨hsim', havoids'⟩ | hfound
  · refine .inl ⟨b, _, hsim', haligned.preserved hb,
      ContextSearch.grounded_preserved hgrounded hb,
      hdiscovered.preserved hb hgrounded, .inl hentry, ?_⟩
    rintro (hmem | htop)
    · exact hsinkD hmem
    · obtain ⟨i, hi, htop'⟩ := Option.map_eq_some_iff.mp htop
      exact of_decide_eq_false (havoids' havoids i (List.mem_of_head? hi)) htop'
  · exact .inr hfound.stop

/-- A run that ends has found a sink that can be reached. -/
theorem runRule_complete {p : Program} (hp : LinkedProgram p)
    {source sink : FunctionPtr} (hsource : source ∈ p.functions)
    (hsink : sink ∈ p.functions) (hne : source ≠ sink) (o : SetOrder) {t : State}
    (ht : Reaches (step p.heap o sink) (start p.heap o source sink) t)
    (hend : step p.heap o sink t = none)
    (hreach : ReflTransGen (ForwardStep p.heap)
      (p.heap.function source).entryVertexDesc
      (p.heap.function sink).entryVertexDesc) :
    violation t = true := by
  obtain ⟨home, hflow, _⟩ := hp.flow
  have howner := hp.owningFunction_entry hsource
  have hrun : Unfound p.heap o source sink t ∨ t.stop = some .returned := by
    refine ht.invariant (P := fun t => Unfound p.heap o source sink t ∨
      t.stop = some .returned) ?_
      (.inl (unfound_start hflow hsource howner hsink hne))
    intro s u hs hstep
    rcases hs with hs | hs
    · exact hs.preserved hflow hstep
    · unfold step ReachabilityVisitor.step ControlFlowGraphTraversalDFS.step at hstep
      rw [hs] at hstep
      exact absurd hstep (by simp)
  rcases runRule_sound hp hsource hsink o ht hend with ⟨hstop, _⟩ | hfound
  · have hunfound := hrun.resolve_right (by rw [hstop]; simp)
    obtain ⟨a, D, hsim, _, _, hdiscovered, hentry, hsinkD⟩ := hunfound
    have hstack := stack_eq_nil_of_step_eq_none hsim hend
    -- Everything that can be reached has been discovered.
    have hall : ∀ v, ReflTransGen (ForwardStep p.heap)
        (p.heap.function source).entryVertexDesc v → v ∈ D := by
      intro v hv
      induction hv with
      | refl => exact hentry
      | tail _ huv ih =>
          obtain ⟨e, hout, hopens, htarget⟩ := huv.opens hflow o
          rw [← htarget]
          exact hdiscovered.closed hstack ih hout hopens
    exact absurd (hall _ hreach) hsinkD
  · exact hfound.2.1

theorem runRule_complete_twoCalls :
    ∃ p t, LinkedProgram p ∧
      Reaches (step p.heap .descending 3) (start p.heap .descending 1 3) t ∧
      violation t = true := by
  obtain ⟨p, t, hp, hfunctions, ht, hend, _, hreach⟩ := twoCalls_run
  exact ⟨p, t, hp, ht, runRule_complete hp (by rw [hfunctions]; decide)
    (by rw [hfunctions]; decide) (by decide) .descending ht hend hreach⟩

end RuleReachability

end CoFlo.Ports
