import CoFlo.Ports.ExecutedPaths
import CoFlo.Ports.TraversalEnds
import CoFlo.Verified.ReturningSearch

/-!
# Runs of the reachability constraint that end

The traversal enters a call as often as it comes to it, and pops the frame of a
call only when it comes to EXIT of the called function.  So with recursion, or
with a function that never comes to its end, it may walk on forever.  Without
either it ends (`terminates_of_acyclic`), whatever the orders of the sets are,
and then `RunRule` decides whether an execution can come from the source to the
sink (`runRule_decides`).
-/

namespace CoFlo.Ports

open CoFlo.Verified CoFlo.Verified.StepMachine Relation
open CoFlo.Verified.CallMachine (MayCall Returns callees)
open CoFlo.Verified.ContextSearch (Aligned Grounded Layered PlainStep)

namespace ReachabilityVisitor

/-! ## The traversal ends when the search does -/

section run

variable {functions : List FunctionPtr} {home : VertexPtr → FunctionPtr}
  {h : Heap} (hp : ProgramFlow functions home h) {o : SetOrder}
  {inspectVertex : VertexPtr → Bool} {source : FunctionPtr}
  (hsource : source ∈ functions)
  (howner : (h.vertex (h.function source).entryVertexDesc).owningFunction =
    source)

include hp hsource howner

theorem terminates_of_searchStart {N : Nat}
    (hend : (trajectory (ContextSearch.step (flow h o))
      (searchStart h o source inspectVertex) N).stack = []) :
    Terminates (step h o inspectVertex) (start h o inspectVertex source) := by
  have hstart : Aligned (flow h o) (h.function source).entryVertexDesc
      (searchStart h o source inspectVertex) := by
    refine .inr (.root ?_)
    split_ifs
    · exact List.nil_suffix
    · exact List.suffix_rfl
  refine terminates_of_simulation
    (R := fun s n => ∃ a, trajectory (ContextSearch.step (flow h o))
        (searchStart h o source inspectVertex) n = a ∧
      Simulates (h.function source).entryVertexSelfEdge s a ∧
        Aligned (flow h o) (h.function source).entryVertexDesc a ∧ Grounded a.frames)
    (fun n => N - n) ?_ (k := 0)
    ⟨_, rfl, simulates_start hp hsource howner, hstart, rfl⟩
  rintro s n t ⟨a, ha, hsim, haligned, hgrounded⟩ hstep
  obtain ⟨b, hb, hcase⟩ := step_simulates hp hsim haligned hgrounded hstep
  rcases hcase with ⟨hsim', -⟩ | hfound
  · have hnext := hb.step_eq
    rw [← ha] at hnext
    refine .inr ⟨n + 1, ⟨b, trajectory_succ hnext, hsim', haligned.preserved hb,
      ContextSearch.grounded_preserved hgrounded hb⟩, ?_⟩
    have hlt : n < N := by
      by_contra hle
      have hstop := (ContextSearch.step_eq_none (G := flow h o)).mpr hend
      have hsame := trajectory_of_step_eq_none (Nat.le_of_not_lt hle) hstop
      rw [hsame, hstop] at hnext
      exact absurd hnext (by simp)
    omega
  · exact .inl (step_of_stop (by simp [hfound.stop]))

/-- Looking for ENTRY of the source itself ends at once. -/
theorem terminates_of_stack_eq_nil {N : Nat}
    (hend : (ContextSearch.after (flow h o) (h.function source).entryVertexDesc
      N).stack = []) :
    Terminates (step h o inspectVertex) (start h o inspectVertex source) := by
  cases hentry : inspectVertex (h.function source).entryVertexDesc with
  | false =>
      refine terminates_of_searchStart hp hsource howner (N := N) ?_
      rw [searchStart_of_eq_false hentry]
      exact hend
  | true =>
      refine terminates_of_searchStart hp hsource howner (N := 1) ?_
      have hstack : (searchStart h o source inspectVertex).stack =
          [((h.function source).entryVertexDesc, [])] := by
        show [(_, if inspectVertex _ then _ else _)] = _
        rw [if_pos hentry]
      have hstep := (ContextSearch.Step.finish (G := flow h o) hstack).step_eq
      exact congrArg ContextSearch.State.stack (trajectory_succ (n := 0) hstep)

end run

end ReachabilityVisitor

namespace RuleReachability

open ReachabilityVisitor (flow kind)

variable {fis : List FunctionInfo} {p : Program}

/-- What a function may come to call is not recursive and can come to its
end. -/
structure CallsEnd (fis : List FunctionInfo) (source : FunctionPtr) : Prop where
  acyclic : ∀ g, TransGen (MayCall (sourceCode fis)) source g →
    ¬ TransGen (MayCall (sourceCode fis)) g g
  exits : ∀ g, TransGen (MayCall (sourceCode fis)) source g →
    CanReach (statementsOf fis g) .entry .exit

/-! ## Levels of the functions -/

theorem calledFunctionOf_le {name : String} {f : FunctionPtr}
    (hname : calledFunctionOf fis name = some f) : f ≤ fis.length := by
  obtain ⟨i, -, rfl⟩ := Option.map_eq_some_iff.mp hname
  exact Nat.sub_le _ _

/-- Only functions of the program are called. -/
theorem mayCall_le {f g : FunctionPtr} (hcall : MayCall (sourceCode fis) f g) :
    g ≤ fis.length := by
  obtain ⟨q, -, hat⟩ := hcall
  cases q with
  | statement i =>
      obtain ⟨st, -, hg⟩ := Option.bind_eq_some_iff.mp hat
      cases st with
      | functionCallUnresolved identifier params => exact calledFunctionOf_le hg
      | _ => exact absurd hg (by simp [Statement.resolution])
  | _ => exact absurd hat (by simp [sourceCode, callAt])

theorem finite_callees (fis : List FunctionInfo) (f : FunctionPtr) :
    (callees (sourceCode fis) f).Finite := by
  refine (Set.finite_le_nat fis.length).subset fun g hg => ?_
  cases hg with
  | single hcall => exact mayCall_le hcall
  | tail _ hcall => exact mayCall_le hcall

/-- How much a function may come to call. -/
noncomputable def callLevel (fis : List FunctionInfo) (f : FunctionPtr) : Nat :=
  (callees (sourceCode fis) f).ncard

section layered

variable {home : VertexPtr → FunctionPtr}
  (hflow : ProgramFlow p.functions home p.heap) {o : SetOrder}
  {source : FunctionPtr}

include hflow

/-- A call that is entered may be called from the source. -/
theorem Explained.mayCall_callee (hp : LinkedFrom fis p) {u : VertexPtr}
    (hu : Explained fis p source u) {e : EdgePtr} (he : e ∈ (flow p.heap o).out u)
    {c : VertexPtr} (hkind : kind p.heap e = .call c) :
    ReflTransGen (MayCall (sourceCode fis)) source (home u) ∧
      MayCall (sourceCode fis) (home u) (callee p.heap c) := by
  obtain ⟨rfl, params, hst, -⟩ := callEdge_of_mem_out hflow he hkind
  exact (hu.mayCall hflow hp hst).2

/-- Calls go down when there is no recursion. -/
theorem layered_explained (hp : LinkedFrom fis p)
    (hw : ∀ f, WellLabelled (statementsOf fis f))
    (hcalls : CallsEnd fis source) :
    Layered (flow p.heap o) home (callee p.heap) (Explained fis p source)
      (callLevel fis) where
  plain := fun u e he hkind hu => hu.plainEdge hflow he hkind
  call := fun u e he c hkind hu => hu.callEdge hflow hp hw he hkind
  ret := fun u e he c hkind hc => hc.returnEdge hflow he hkind
  lower := by
    intro u e he c hkind hu
    obtain ⟨hreaches, hcall⟩ := hu.mayCall_callee hflow hp he hkind
    have hreached : TransGen (MayCall (sourceCode fis)) source (callee p.heap c) :=
      TransGen.tail' hreaches hcall
    exact hcall.ncard_callees_lt (hcalls.acyclic _ hreached) (finite_callees fis _)

/-- Inside a function the search follows every edge that is followed. -/
theorem plainStep_of_inner {f : FunctionPtr} (hf : f ∈ p.functions)
    {u v : VertexPtr} (huv : p.heap.InnerFollowedStep f u v) :
    PlainStep (flow p.heap o) u v := by
  obtain ⟨e, he, rfl, rfl, hmark, hreal, hintra⟩ := huv
  have hattached := ((hflow.mem_edges f hf e).mp he).1
  refine ⟨e, (ReachabilityVisitor.mem_outEdgeList hflow.consistent).mpr
    ⟨rfl, hattached⟩, ?_, rfl⟩
  show kind p.heap e = .plain
  unfold kind
  rw [hmark, if_neg Bool.false_ne_true]
  cases hty : (p.heap.edge e).edgeType <;> rw [hty] at hreal hintra <;>
    first | rfl | exact Bool.noConfusion hreal | exact Bool.noConfusion hintra

end layered

/-! ## Programs without recursion -/

section acyclic

variable (hp : LinkedFrom fis p) (hw : ∀ f, WellLabelled (statementsOf fis f))
  (hgoes : ∀ f, ∀ st ∈ statementsOf fis f, st.goesOn = true)
  {source : FunctionPtr} (hsource : source ∈ p.functions)
  (hcalls : CallsEnd fis source)

include hp hw hgoes hsource hcalls

/-- The search comes to its end. -/
theorem exists_stack_eq_nil (o : SetOrder) :
    ∃ n, (ContextSearch.after (flow p.heap o)
      (p.heap.function source).entryVertexDesc n).stack = [] := by
  obtain ⟨home, hflow, hlinked⟩ := hp.linkedProgram.flow
  have hL := layered_explained hflow (o := o) hp hw hcalls
  have htargets : ∀ u, ∀ e ∈ (flow p.heap o).out u,
      (flow p.heap o).target e ∈ Finset.range p.heap.nextVertex := fun _ e _ =>
    Finset.mem_range.mpr (hflow.consistent.target_lt e)
  have hexits : ∀ u, ∀ e ∈ (flow p.heap o).out u, ∀ c, (flow p.heap o).kind e = .call c →
      Explained fis p source u → ReflTransGen (PlainStep (flow p.heap o))
        (p.heap.function (callee p.heap c)).entryVertexDesc
        (p.heap.function (callee p.heap c)).exitVertexDesc := by
    intro u e he c hkind hu
    obtain ⟨hreaches, hcall⟩ := hu.mayCall_callee hflow hp he hkind
    have hg := (reaches_of_chain hp hw hgoes hsource (hreaches.tail hcall)).1
    obtain ⟨place, hl, hinside⟩ := hp.exists_flowLinked hg (hw _)
    have hexit := hcalls.exits _ (TransGen.tail' hreaches hcall)
    have hinner := hinside (hgoes _) .exit hexit hl.exit_mem
    rw [hl.entry, hl.exit] at hinner
    exact ReflTransGen.mono (fun _ _ => plainStep_of_inner hflow hg) _ _ hinner
  exact hL.ends (procedures hflow hlinked o) htargets
    (ReachabilityVisitor.length_out_le hflow.consistent o) hexits
    ⟨source, .entry, .refl, standsFor_entry hp hsource (hw source)⟩
    (by rw [hflow.home_entry hsource])

/-- The traversal ends, whatever it looks for. -/
theorem terminates_of_acyclic (o : SetOrder) (inspectVertex : VertexPtr → Bool) :
    Terminates (ReachabilityVisitor.step p.heap o inspectVertex)
      (ReachabilityVisitor.start p.heap o inspectVertex source) := by
  obtain ⟨home, hflow, -⟩ := hp.linkedProgram.flow
  obtain ⟨N, hend⟩ := exists_stack_eq_nil hp hw hgoes hsource hcalls o
  exact ReachabilityVisitor.terminates_of_stack_eq_nil hflow hsource
    (hp.linkedProgram.owningFunction_entry hsource) hend

omit hp hw hgoes hsource in
theorem CallsEnd.returns {g : FunctionPtr}
    (hg : TransGen (MayCall (sourceCode fis)) source g) : Returns (sourceCode fis) g :=
  CallMachine.returns_of_acyclic (finite_callees fis) hcalls.acyclic hcalls.exits hg

omit hp hw hgoes hsource in
/-- Whatever may be called is executed. -/
theorem executes_iff (sink : FunctionPtr) :
    Executes fis source sink ↔
      ReflTransGen (MayCall (sourceCode fis)) source sink := by
  constructor
  · rintro ⟨K, hrun⟩
    exact (CallMachine.Run.mayCall hrun).1
  · intro hreaches
    exact CallMachine.exists_run (fun g => hcalls.returns) hreaches

end acyclic

/-- Without recursion, and when every function that may be called can come to
its end, `RunRule` ends, and it reports a violation exactly when an execution
that starts in the source can come to the sink. -/
theorem runRule_decides (hp : LinkedFrom fis p)
    (hw : ∀ fi ∈ fis, WellLabelled fi.statements)
    (hgoes : ∀ fi ∈ fis, ∀ st ∈ fi.statements, st.goesOn = true)
    {source sink : FunctionPtr} (hsource : source ∈ p.functions)
    (hsink : sink ∈ p.functions) (hcalls : CallsEnd fis source) (o : SetOrder) :
    ∃ t, Reaches (step p.heap o sink) (start p.heap o source sink) t ∧
      step p.heap o sink t = none ∧
        (violation t = true ↔ source ≠ sink ∧ Executes fis source sink) := by
  obtain ⟨hw', hgoes'⟩ := statementsOf_orderly hw hgoes
  obtain ⟨t, ht, hend⟩ := terminates_of_acyclic hp hw' hgoes' hsource hcalls o
    (pred p.heap sink)
  refine ⟨t, ht, hend, ?_⟩
  rw [executes_iff hcalls]
  exact violation_iff hp hw' hgoes' hsource hsink ht hend

/-- Functions of `pollLoop` call functions behind them. -/
theorem pollLoop_lt {f g : FunctionPtr}
    (hcalls : TransGen (MayCall (sourceCode pollLoop)) f g) : f < g := by
  induction hcalls with
  | single hcall => rcases pollLoop_mayCall hcall with ⟨rfl, rfl⟩ | ⟨rfl, rfl⟩ <;> decide
  | tail _ hcall ih =>
      rcases pollLoop_mayCall hcall with ⟨rfl, rfl⟩ | ⟨rfl, rfl⟩
      · exact Nat.lt_trans ih (by decide)
      · exact Nat.lt_trans ih (by decide)

/-- The functions `poll` may call can come to their ends. -/
theorem pollLoop_canReach {g : FunctionPtr}
    (hcalls : TransGen (MayCall (sourceCode pollLoop)) 1 g) :
    CanReach (statementsOf pollLoop g) .entry .exit := by
  rcases pollLoop_callee hcalls with rfl | rfl
  · exact (ReflTransGen.single ⟨_, .entry⟩).tail ⟨_, .fallthrough rfl rfl⟩
  · exact ReflTransGen.single ⟨_, .entry⟩

theorem pollLoop_callsEnd : CallsEnd pollLoop 1 where
  acyclic _ _ hg := Nat.lt_irrefl _ (pollLoop_lt hg)
  exits _ := pollLoop_canReach

theorem runRule_decides_pollLoop :
    ∃ p t, LinkedFrom pollLoop p ∧
      Reaches (step p.heap .descending 3) (start p.heap .descending 1 3) t ∧
      step p.heap .descending 3 t = none ∧
        (violation t = true ↔ 1 ≠ 3 ∧ Executes pollLoop 1 3) := by
  obtain ⟨p, hrun, hfunctions⟩ := pollLoop_parse
  have hp : LinkedFrom pollLoop p := linkedFrom_of_parse (by decide) hrun
  have hpoll : 1 ∈ p.functions := by rw [hfunctions]; decide
  have htrap : 3 ∈ p.functions := by rw [hfunctions]; decide
  obtain ⟨t, ht⟩ := runRule_decides hp (by decide) (by decide) hpoll htrap
    pollLoop_callsEnd .descending
  exact ⟨p, t, hp, ht⟩

end RuleReachability

end CoFlo.Ports
