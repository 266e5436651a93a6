import CoFlo.Ports.ViolatingPath
import CoFlo.Verified.RealizableSearch

/-!
# The violating path is realizable

`SkipEdge` lets a `Return` edge through by the call of the top frame.  In the
list of edges `RunRule` reports, every `Return` edge nevertheless closes the
`FunctionCall` edge that was opened last: the functions of a linked program
are the procedures of `Verified.RealizableSearch`.
-/

namespace CoFlo.Ports

open CoFlo.Verified CoFlo.Verified.StepMachine
open CoFlo.Verified.ContextSearch (Kind Aligned Threaded Procedures Realizable
  openCalls)

open ReachabilityVisitor (flow kind mem_outEdgeList searchStart
  searchState_of_reaches stack_eq_nil_of_step_eq_none)

namespace RuleReachability

/-- The function a call calls. -/
def callee (h : Heap) (c : VertexPtr) : FunctionPtr :=
  (h.vertex c).statement.calledFunction.getD null

/-- A path read from its first edge to its last, `FunctionCall` edges as opening
and `Return` edges as closing brackets.  `calls` are the `FunctionCall` edges
that are open, the last one first. -/
def ClosesCalls (h : Heap) : List EdgePtr → List EdgePtr → Prop
  | _, [] => True
  | calls, e :: path =>
      match (h.edge e).edgeType with
      | .functionCall _ _ => ClosesCalls h (e :: calls) path
      | .returnEdge functionCall =>
          match calls with
          | [] => False
          | d :: calls =>
              (h.edge d).source = functionCall ∧ ClosesCalls h calls path
      | _ => ClosesCalls h calls path

/-! ## The kinds of edges -/

section kinds

variable {h : Heap} {e : EdgePtr} {c : VertexPtr}

theorem edgeType_of_kind_call (he : kind h e = .call c) :
    ∃ g, (h.edge e).edgeType = .functionCall c g := by
  unfold kind at he
  split_ifs at he
  cases htype : (h.edge e).edgeType <;> rw [htype] at he <;> simp at he
  rename_i c' g
  exact ⟨g, by rw [he]⟩

theorem edgeType_of_kind_ret (he : kind h e = .ret c) :
    (h.edge e).edgeType = .returnEdge c := by
  unfold kind at he
  split_ifs at he
  cases htype : (h.edge e).edgeType <;> rw [htype] at he <;> simp at he
  rw [he]

theorem edgeType_of_kind_plain (he : kind h e = .plain) :
    (h.edge e).edgeType.isFunctionCall = false ∧
      (h.edge e).edgeType.isReturn = false := by
  unfold kind at he
  split_ifs at he
  cases htype : (h.edge e).edgeType <;> rw [htype] at he <;>
    first | exact ⟨rfl, rfl⟩ | simp at he

theorem kind_of_returnEdge (hback : (h.edge e).isBackEdge = false)
    (he : (h.edge e).edgeType = .returnEdge c) : kind h e = .ret c := by
  unfold kind
  rw [hback, if_neg Bool.false_ne_true, he]

end kinds

/-! ## Functions are procedures -/

section procedures

variable {functions : List FunctionPtr} {home : VertexPtr → FunctionPtr}
  {h : Heap} (hp : ProgramFlow functions home h)
  (hlinked : CallsLinked functions home h) (o : SetOrder)

include hp hlinked

/-- The functions of a linked program call and return as procedures do. -/
theorem procedures :
    Procedures (flow h o) home (fun f => (h.function f).entryVertexDesc)
      (fun f => (h.function f).exitVertexDesc) (callee h) := by
  have hout : ∀ {u : VertexPtr} {e : EdgePtr}, e ∈ (flow h o).out u →
      (h.edge e).source = u ∧ u ≠ null ∧ (h.edge e).source ≠ null := by
    intro u e he
    obtain ⟨hsource, hu⟩ := (mem_outEdgeList hp.consistent).mp he
    exact ⟨hsource, hu, hsource ▸ hu⟩
  -- The statement of a call names its function.
  have hcallee : ∀ {c : VertexPtr} {f : FunctionPtr} {params : String},
      (h.vertex c).statement = .functionCallResolved f params → callee h c = f := by
    intro c f params hst
    rw [callee, hst]
    rfl
  have hret : ∀ {u : VertexPtr} {e : EdgePtr} {c : VertexPtr},
      e ∈ (flow h o).out u → (flow h o).kind e = .ret c →
        u = (h.function (callee h c)).exitVertexDesc ∧ home u = callee h c ∧
          home ((flow h o).target e) = home c := by
    intro u e c he hkind
    obtain ⟨hsource, _, hattached⟩ := hout he
    obtain ⟨hc, _, f, params, d, hst, hexit, hd, htarget⟩ :=
      hp.returnEdge e c hattached (edgeType_of_kind_ret hkind)
    have hf := (hp.resolved c f params hc hst).1
    obtain ⟨hdsource, hdtype⟩ := (hd d).mpr rfl
    have hintra : (h.edge d).edgeType.isIntraprocedural = true := by
      cases htype : (h.edge d).edgeType <;> rw [htype] at hdtype <;>
        first | rfl | exact Bool.noConfusion hdtype
    rw [hcallee hst]
    refine ⟨hsource.symm.trans hexit, ?_, ?_⟩
    · rw [← hsource, hexit, hp.home_exit hf]
    · show home (h.edge e).target = home c
      rw [htarget, hp.home_eq_home d (hdsource ▸ (hp.allocated c hc).1) hintra,
        hdsource]
  exact
    { plain := fun u e he hkind => by
        obtain ⟨hsource, _, hattached⟩ := hout he
        obtain ⟨hcall, hreturn⟩ := edgeType_of_kind_plain hkind
        have hintra : (h.edge e).edgeType.isIntraprocedural = true := by
          simpa [hcall, hreturn] using hp.edgeType e hattached
        show home (h.edge e).target = home u
        rw [hp.home_eq_home e hattached hintra, hsource]
      call := fun u e he c hkind => by
        obtain ⟨hsource, _, hattached⟩ := hout he
        obtain ⟨g, htype⟩ := edgeType_of_kind_call hkind
        obtain ⟨hc, _, params, hst, htarget⟩ := hp.callEdge e c g hattached htype
        have hhome := hp.home_source e hattached
        rw [hc] at hhome
        have hg := (hp.resolved c g params hhome hst).1
        rw [hcallee hst]
        refine ⟨hsource.symm.trans hc, htarget, ?_⟩
        show home (h.edge e).target = g
        rw [htarget, hp.home_entry hg]
      ret := fun u e he c hkind => hret he hkind
      leave := fun u e he c hkind d hd => by
        obtain ⟨hsource, _, hattached⟩ := hout hd
        obtain ⟨hu, hhome, _⟩ := hret he hkind
        rcases hp.edgeType d hattached with hintra | hcall | hreturn
        · -- Its self edge is a back edge.
          refine .inl ?_
          have hback := (hp.leave d hattached hintra (by
            rw [hsource, hhome]
            exact hu)).2
          show kind h d = .closed
          unfold kind
          rw [if_pos hback]
        · cases htype : (h.edge d).edgeType with
          | functionCall c' g =>
              obtain ⟨hc', _, params, hst, _⟩ := hp.callEdge d c' g hattached htype
              have hmem := hp.home_source d hattached
              have hexit := hp.exitStatement (p := home u) (by
                rw [← hsource]
                exact hmem)
              rw [hhome, ← hu, ← hsource, hc', hst] at hexit
              exact absurd hexit (by simp)
          | _ =>
              rw [htype] at hcall
              exact Bool.noConfusion hcall
        · cases htype : (h.edge d).edgeType with
          | returnEdge c' =>
              obtain ⟨_, hback, _⟩ := hp.returnEdge d c' hattached htype
              exact .inr ⟨c', kind_of_returnEdge hback htype⟩
          | _ =>
              rw [htype] at hreturn
              exact Bool.noConfusion hreturn
      exists_ret := fun u e he c hkind => by
        obtain ⟨hsource, _, hattached⟩ := hout he
        obtain ⟨g, htype⟩ := edgeType_of_kind_call hkind
        obtain ⟨hc, _, params, hst, _⟩ := hp.callEdge e c g hattached htype
        have hhome := hp.home_source e hattached
        rw [hc] at hhome
        obtain ⟨_, d, hd⟩ := hlinked c g params hhome hst
        obtain ⟨hdattached, hdtype⟩ := (hd d).mpr rfl
        obtain ⟨_, hback, f, params', _, hst', hexit, _⟩ :=
          hp.returnEdge d c hdattached hdtype
        rw [hcallee hst']
        exact ⟨d, (mem_outEdgeList hp.consistent).mpr
          ⟨hexit, hexit ▸ hdattached⟩, kind_of_returnEdge hback hdtype⟩ }

end procedures

/-! ## Reading the path from its first edge -/

section brackets

variable {functions : List FunctionPtr} {home : VertexPtr → FunctionPtr}
  {h : Heap} (hp : ProgramFlow functions home h) {o : SetOrder}

/-- The `FunctionCall` edges of the calls that are open on a path. -/
def openEdges (h : Heap) (o : SetOrder) (path : List EdgePtr) : List EdgePtr :=
  (openCalls (flow h o) path).filterMap List.head?

include hp

/-- A realizable path closes its calls. -/
theorem closesCalls_append {path : List EdgePtr}
    (hpath : ∀ e ∈ path, (h.edge e).source ≠ null ∧ kind h e ≠ .closed)
    (hreal : Realizable (flow h o) path) {rest : List EdgePtr}
    (hrest : ClosesCalls h (openEdges h o path) rest) :
    ClosesCalls h [] (path.reverse ++ rest) := by
  induction path generalizing rest with
  | nil => exact hrest
  | cons e path ih =>
      rw [List.reverse_cons, List.append_assoc, List.singleton_append]
      have hpath' := fun d hd => hpath d (List.mem_cons_of_mem e hd)
      refine ih hpath' hreal.1 ?_
      obtain ⟨_, hkind⟩ := hpath e List.mem_cons_self
      unfold ClosesCalls
      cases he : kind h e with
      | closed => exact absurd he hkind
      | plain =>
          obtain ⟨hcall, hreturn⟩ := edgeType_of_kind_plain he
          unfold openEdges at hrest ⊢
          rw [ContextSearch.openCalls_other (G := flow h o)
            (fun c hc => by rw [show (flow h o).kind e = .plain from he] at hc
                            exact absurd hc (by simp))
            (fun c hc => by rw [show (flow h o).kind e = .plain from he] at hc
                            exact absurd hc (by simp))] at hrest
          cases htype : (h.edge e).edgeType <;> simp_all [EdgeType.isFunctionCall,
            EdgeType.isReturn]
      | call c =>
          obtain ⟨g, htype⟩ := edgeType_of_kind_call he
          unfold openEdges at hrest ⊢
          rw [ContextSearch.openCalls_call (G := flow h o) he,
            List.filterMap_cons] at hrest
          rw [htype]
          exact hrest
      | ret c =>
          rw [edgeType_of_kind_ret he]
          obtain ⟨d, q, calls, hopen, hd⟩ := hreal.2 c he
          obtain ⟨g, htype⟩ := edgeType_of_kind_call hd
          have hsuffix := (ContextSearch.openCalls_eq_cons hopen).1
          have hattached := (hpath' d (hsuffix.subset List.mem_cons_self)).1
          unfold openEdges at hrest ⊢
          rw [ContextSearch.openCalls_ret (G := flow h o) he, hopen,
            List.tail_cons] at hrest
          rw [hopen]
          exact ⟨(hp.callEdge d c g hattached htype).1, hrest⟩

omit hp in
/-- Edges that neither call nor return can be left out. -/
theorem ClosesCalls.filter {keep : EdgePtr → Bool} {calls path : List EdgePtr}
    (hkeep : ∀ e ∈ path, keep e = false →
      (h.edge e).edgeType.isFunctionCall = false ∧
        (h.edge e).edgeType.isReturn = false)
    (hcloses : ClosesCalls h calls path) :
    ClosesCalls h calls (path.filter keep) := by
  induction path generalizing calls with
  | nil => exact hcloses
  | cons e path ih =>
      have ih' : ∀ calls, ClosesCalls h calls path →
          ClosesCalls h calls (path.filter keep) := fun calls =>
        ih fun d hd => hkeep d (List.mem_cons_of_mem e hd)
      unfold ClosesCalls at hcloses
      cases hk : keep e with
      | true =>
          rw [List.filter_cons_of_pos hk]
          unfold ClosesCalls
          cases htype : (h.edge e).edgeType with
          | functionCall c g =>
              rw [htype] at hcloses
              exact ih' _ hcloses
          | returnEdge c =>
              rw [htype] at hcloses
              cases calls with
              | nil => exact hcloses
              | cons d calls => exact ⟨hcloses.1, ih' _ hcloses.2⟩
          | _ =>
              rw [htype] at hcloses
              exact ih' _ hcloses
      | false =>
          rw [List.filter_cons_of_neg (by simp [hk])]
          obtain ⟨hcall, hreturn⟩ := hkeep e List.mem_cons_self hk
          cases htype : (h.edge e).edgeType <;> rw [htype] at hcall hreturn hcloses <;>
            first
              | exact ih' _ hcloses
              | exact Bool.noConfusion hcall
              | exact Bool.noConfusion hreturn

/-- An edge out of an unresolved call neither calls nor returns. -/
theorem not_call_of_leavesUnresolvedCall {e : EdgePtr}
    (he : (h.edge e).source ≠ null) (hleaves : leavesUnresolvedCall h e = true) :
    (h.edge e).edgeType.isFunctionCall = false ∧
      (h.edge e).edgeType.isReturn = false := by
  unfold leavesUnresolvedCall at hleaves
  cases htype : (h.edge e).edgeType with
  | functionCall c g =>
      obtain ⟨hc, _, params, hst, _⟩ := hp.callEdge e c g he htype
      rw [hc, hst] at hleaves
      exact Bool.noConfusion hleaves
  | returnEdge c =>
      obtain ⟨hc, _, f, params, d, hst, hexit, _⟩ := hp.returnEdge e c he htype
      rw [hexit, hp.exitStatement (hp.resolved c f params hc hst).1] at hleaves
      exact Bool.noConfusion hleaves
  | _ => exact ⟨rfl, rfl⟩

end brackets

/-! ## The reported path -/

/-- From a source that is looked for itself the search goes nowhere. -/
theorem idle_of_reaches {h : Heap} {o : SetOrder} {source : FunctionPtr}
    {inspectVertex : VertexPtr → Bool}
    (hfound : inspectVertex (h.function source).entryVertexDesc = true)
    {b : ContextSearch.State VertexPtr EdgePtr}
    (hb : Reaches (ContextSearch.step (flow h o))
      (searchStart h o source inspectVertex) b) :
    b.path = [] ∧ ∀ i ∈ b.stack, i.2 = [] := by
  refine hb.invariant (P := fun s => s.path = [] ∧ ∀ i ∈ s.stack, i.2 = []) ?_
    ⟨rfl, fun i hi => by rw [List.mem_singleton.mp hi, if_pos hfound]⟩
  intro s t hs hstep
  have hnone : ∀ {u e rem rest}, s.stack = (u, e :: rem) :: rest → False := by
    intro u e rem rest hstack
    have hnil := hs.2 (u, e :: rem) (by simp [hstack])
    exact List.cons_ne_nil _ _ hnil
  cases ContextSearch.Step.of_step hstep with
  | @finish u rest hstack =>
      refine ⟨?_, fun i hi => hs.2 i (by simp [hstack, hi])⟩
      show s.path.tail = []
      rw [hs.1, List.tail_nil]
  | skip hstack _ => exact (hnone hstack).elim
  | tree hstack _ _ => exact (hnone hstack).elim
  | cross hstack _ _ => exact (hnone hstack).elim

/-- In the list `RunRule` reports, and in what `PrintCallChain` leaves of it,
every `Return` edge closes the `FunctionCall` edge that was opened last, and
was made for the same call. -/
theorem runRule_realizable {p : Program} (hp : LinkedProgram p)
    {source sink : FunctionPtr} (hsource : source ∈ p.functions)
    (hsink : sink ∈ p.functions) (o : SetOrder) {t : State}
    (ht : Reaches (step p.heap o sink) (start p.heap o source sink) t)
    (hend : step p.heap o sink t = none) (hviolation : violation t = true) :
    ClosesCalls p.heap [] t.visitor ∧
      ClosesCalls p.heap [] (callChain p.heap t.visitor) := by
  obtain ⟨home, hflow, hlinked⟩ := hp.flow
  have howner := hp.owningFunction_entry hsource
  cases searchState_of_reaches hflow hsource howner ht with
  | searching a _ hsim _ _ =>
      have hstack := stack_eq_nil_of_step_eq_none hsim hend
      unfold violation at hviolation
      rw [hsim.visitor, if_pos hstack] at hviolation
      exact Bool.noConfusion hviolation
  | found b hreach haligned hfound =>
      have hthread := haligned.resolve_left fun hnil => hfound.stack hnil.1
      have hself := hflow.entrySelf source hsource
      obtain ⟨_, _, hmem⟩ := chain_of_threaded hflow
        (by rw [hself] : (p.heap.edge _).target = _) hthread
      have hne : source ≠ sink := by
        rintro rfl
        exact hfound.ne_nil (idle_of_reaches (decide_eq_true rfl) hreach).1
      rw [searchStart_of_ne hflow o hsource hsink hne] at hreach
      obtain ⟨n, rfl⟩ := hreach.exists_trajectory
      have hreal := ContextSearch.realizable_after (procedures hflow hlinked o)
        (r := (p.heap.function source).entryVertexDesc)
        (by rw [hflow.home_entry hsource]) n
      have hcloses : ClosesCalls p.heap [] t.visitor := by
        have hrest : ∀ calls, ClosesCalls p.heap calls [] := fun _ => trivial
        have hpath := closesCalls_append hflow hmem hreal (hrest _)
        rw [List.append_nil] at hpath
        rw [hfound.visitor]
        unfold ClosesCalls
        rw [hself]
        exact hpath
      refine ⟨hcloses, hcloses.filter fun e he hkeep => ?_⟩
      have hattached : (p.heap.edge e).source ≠ null := by
        rw [hfound.visitor] at he
        rcases List.mem_cons.mp he with rfl | he
        · rw [hself]
          exact hflow.entry_ne_null hsource
        · exact (hmem e (List.mem_reverse.mp he)).1
      exact not_call_of_leavesUnresolvedCall hflow hattached (by simpa using hkeep)

/-- The path to the second of two functions goes through the first. -/
theorem runRule_realizable_twoCalls :
    ∃ p t, LinkedProgram p ∧
      Reaches (step p.heap .descending 3) (start p.heap .descending 1 3) t ∧
      t.visitor = [4, 1, 12, 6, 13, 14] ∧ ClosesCalls p.heap [] t.visitor ∧
        ClosesCalls p.heap [] (callChain p.heap t.visitor) := by
  obtain ⟨p, t, hp, hfunctions, ht, hend, hvisitor, _⟩ := twoCalls_run
  exact ⟨p, t, hp, ht, hvisitor, runRule_realizable hp
    (by rw [hfunctions]; decide) (by rw [hfunctions]; decide) .descending ht hend
    (by rw [violation, hvisitor]; rfl)⟩

end RuleReachability

end CoFlo.Ports
