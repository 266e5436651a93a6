import CoFlo.Ports.CallBrackets
import CoFlo.Verified.OwnFrames

/-!
# The call stack and the path of a traversal

Whenever `Traverse` examines an out-edge, the top frame should be the one of
the call by which the path has entered the function of the edge.  `SkipEdge`
pops a frame when it lets a `Return` edge pass, and no frame comes back when
the search goes back over the edge; and a function whose EXIT does not return
leaves its frame on the stack.  What is examined then is looked up in the frame
of another call.  The vertices this can happen to are stranded
(`Verified.OwnFrames`): while they have no out-edges left, the frames are those
of the path (`inOwnContext_of_exhausted`).
-/

namespace CoFlo.Ports

open CoFlo.Verified CoFlo.Verified.StepMachine CoFlo.Verified.Detours
open CoFlo.Verified.ContextSearch (Kind Aligned Grounded Kept Exhausted openCalls callOf
  tip)

namespace ReachabilityVisitor

open RuleReachability (callee edgeType_of_kind_call edgeType_of_kind_ret
  edgeType_of_kind_plain procedures chain_of_threaded idle_of_reaches)

/-! ## The path -/

/-- The edges that have led to the vertex on top of the stack, the last one
first: all of the list but the edge that was put in front. -/
def State.path (s : State) : List EdgePtr :=
  s.visitor.tail.reverse

/-- The calls by which a path has entered functions it has not left through
their `Return` edge, the last one first. -/
def enteredCalls (h : Heap) : List EdgePtr → List VertexPtr
  | [] => []
  | e :: path =>
      match (h.edge e).edgeType with
      | .functionCall functionCall _ => functionCall :: enteredCalls h path
      | .returnEdge _ => (enteredCalls h path).tail
      | _ => enteredCalls h path

/-- The function a path from ENTRY of `source` has come to. -/
def currentFunction (h : Heap) (source : FunctionPtr) (path : List EdgePtr) :
    FunctionPtr :=
  match enteredCalls h path with
  | [] => source
  | functionCall :: _ => callee h functionCall

/-- The frames are those of the calls the path has entered, the top frame is
the one of the last of them or has no call, and `e` is an edge of the function
of this call. -/
structure InOwnContext (h : Heap) (source : FunctionPtr) (s : State) (e : EdgePtr) :
    Prop where
  top : s.callStack.callStack.head?.map (·.functionCallWhichPushedThisFrame) =
    some ((enteredCalls h s.path).headD null)
  frames : s.callStack.callStack.map (·.functionCallWhichPushedThisFrame) =
    enteredCalls h s.path ++ [null]
  edge : e ∈ (h.graph (currentFunction h source s.path)).edges

/-- The edge which is examined next is examined in its own context. -/
def ExaminesInOwnContext (h : Heap) (source : FunctionPtr) (s : State) : Prop :=
  s.stop = none → ∀ u e ei rest, s.dfsStack = ⟨u, e :: ei⟩ :: rest →
    InOwnContext h source s e

/-! ## What a step strands -/

/-- A state of the traversal, read as one of the search. -/
def contextState (s : State) : ContextSearch.State VertexPtr EdgePtr :=
  ⟨s.callStack.callStack.map contextFrame, s.dfsStack.map contextItem, s.path⟩

/-- The vertices of the stack that the next step leaves without their frame on
top of the call stack, and their out-edges still to be examined. -/
def stranded (h : Heap) (o : SetOrder) (s : State) : List (VertexPtr × List EdgePtr) :=
  ContextSearch.stranded (flow h o) (contextState s)

theorem Simulates.contextState {fake : EdgePtr} {s : State}
    {a : ContextSearch.State VertexPtr EdgePtr} {h : Heap} {o : SetOrder}
    {r : VertexPtr} (hs : Simulates fake s a) (haligned : Aligned (flow h o) r a) :
    contextState s = a := by
  have hpath : s.path = a.path := by
    unfold State.path
    rw [hs.visitor]
    split_ifs with hstack
    · rcases haligned with ⟨-, hpath⟩ | hthread
      · rw [hpath]
        rfl
      · have hlength := hthread.length_eq
        rw [hstack] at hlength
        exact absurd hlength (Nat.succ_ne_zero _).symm
    · rw [List.tail_cons, List.reverse_reverse]
  unfold ReachabilityVisitor.contextState
  rw [hs.frames, hs.stack, hpath]

theorem map_callOf_openCalls {h : Heap} {o : SetOrder} {path : List EdgePtr}
    (hpath : ∀ e ∈ path, kind h e ≠ .closed) :
    (openCalls (flow h o) path).map (callOf (flow h o)) =
      (enteredCalls h path).map some := by
  induction path with
  | nil => rfl
  | cons e path ih =>
      have ih' := ih fun d hd => hpath d (List.mem_cons_of_mem e hd)
      have hkind : (flow h o).kind e = kind h e := rfl
      unfold enteredCalls
      cases he : kind h e with
      | closed => exact absurd he (hpath e List.mem_cons_self)
      | call c =>
          obtain ⟨g, htype⟩ := edgeType_of_kind_call he
          rw [ContextSearch.openCalls_call (hkind.trans he), htype, List.map_cons,
            List.map_cons, ih']
          simp [callOf, hkind, he]
      | ret c =>
          rw [ContextSearch.openCalls_ret (hkind.trans he), edgeType_of_kind_ret he,
            List.map_tail, ih', List.map_tail]
      | plain =>
          obtain ⟨hcall, hreturn⟩ := edgeType_of_kind_plain he
          rw [ContextSearch.openCalls_other (by simp [hkind, he]) (by simp [hkind, he]), ih']
          cases htype : (h.edge e).edgeType <;> rw [htype] at hcall hreturn <;>
            first | rfl | exact Bool.noConfusion hcall | exact Bool.noConfusion hreturn

theorem map_pushing_of_calls {frames : List CallStackFrame} {calls : List VertexPtr}
    (h : (frames.map contextFrame).map ContextSearch.Frame.call =
      calls.map some ++ [none]) :
    frames.map (·.functionCallWhichPushedThisFrame) = calls ++ [null] := by
  have hpush : ∀ f : CallStackFrame,
      f.functionCallWhichPushedThisFrame = (contextFrame f).call.getD null := by
    intro f
    unfold contextFrame
    dsimp only
    split_ifs with hnull
    · exact hnull
    · rfl
  calc frames.map (·.functionCallWhichPushedThisFrame)
      = ((frames.map contextFrame).map ContextSearch.Frame.call).map
          fun c : Option VertexPtr => c.getD null := by
        rw [List.map_map, List.map_map]
        exact List.map_congr_left fun f _ => hpush f
    _ = calls ++ [null] := by
        rw [h]
        simp

/-! ## The run -/

section run

variable {functions : List FunctionPtr} {home : VertexPtr → FunctionPtr}
  {h : Heap} (hp : ProgramFlow functions home h)
  (hlinked : CallsLinked functions home h) {o : SetOrder}
  {inspectVertex : VertexPtr → Bool} {source : FunctionPtr}
  (hsource : source ∈ functions)

include hp hlinked hsource

/-- The path of the search has come to the function of the vertex on top. -/
theorem home_tip_eq_currentFunction {path : List EdgePtr}
    (hwalk : ContextSearch.Walk (flow h o) (h.function source).entryVertexDesc path)
    (hreal : ContextSearch.Realizable (flow h o) path)
    (hpath : ∀ e ∈ path, kind h e ≠ .closed) :
    home (tip (flow h o) (h.function source).entryVertexDesc path) =
      currentFunction h source path := by
  have hG := procedures hp hlinked o
  have hcalls := map_callOf_openCalls (o := o) hpath
  rw [hG.home_tip hwalk hreal]
  unfold ContextSearch.context currentFunction
  cases hopen : openCalls (flow h o) path with
  | nil =>
      rw [hopen, List.map_nil, eq_comm, List.map_eq_nil_iff] at hcalls
      rw [hcalls]
      exact hp.home_entry hsource
  | cons q rest =>
      obtain ⟨hsuffix, d, q', c, rfl, hd, -⟩ := ContextSearch.openCalls_eq_cons hopen
      have hout := (hwalk.of_suffix hsuffix).2.1
      cases hentered : enteredCalls h path with
      | nil =>
          rw [hopen, hentered] at hcalls
          exact absurd hcalls (by simp)
      | cons c' calls =>
          rw [hopen, hentered, List.map_cons, List.map_cons, List.cons_eq_cons] at hcalls
          have hc : c = c' := by
            have hcall := hcalls.1
            simp only [callOf, hd] at hcall
            exact Option.some.inj hcall
          rw [← hc]
          exact (hG.call _ d hout c hd).2.2

/-- An edge is examined in its own context when nothing of it is stranded. -/
theorem examinesInOwnContext_of_kept
    (howner : (h.vertex (h.function source).entryVertexDesc).owningFunction = source)
    {s : State}
    (hreach : Reaches (step h o inspectVertex) (start h o inspectVertex source) s)
    (hkept : s.stop = none → Kept (flow h o) (contextState s)) :
    ExaminesInOwnContext h source s := by
  intro hstop u e ei rest hstack
  cases searchState_of_reaches hp hsource howner hreach with
  | found b _ _ hfound =>
      rw [hfound.stop] at hstop
      exact absurd hstop (by simp)
  | searching a hsearch hsim haligned hgrounded =>
      have ha := hsim.contextState haligned
      have hstack' : a.stack = (u, e :: ei) :: rest.map contextItem := by
        rw [← hsim.stack, hstack]
        rfl
      have hthread : ContextSearch.Threaded (flow h o) (h.function source).entryVertexDesc
          a.stack a.path := haligned.resolve_left fun hnil => by
        rw [hstack'] at hnil
        exact absurd hnil.1 (List.cons_ne_nil _ _)
      have hself := hp.entrySelf source hsource
      have hpath := fun d hd => ((chain_of_threaded hp
        (by rw [hself] : (h.edge _).target = _) hthread).2.2 d hd).2
      have hpath' : s.path = a.path := by rw [← ha]; rfl
      have hcalls : ContextSearch.calls a = (enteredCalls h s.path).map some ++ [none] := by
        rw [hpath', ← map_callOf_openCalls (o := o) hpath, ← ha]
        rw [← ha] at hstack'
        exact (hkept hstop).followsPath hstack'
      unfold ContextSearch.calls at hcalls
      rw [← hsim.frames] at hcalls
      have hframes := map_pushing_of_calls hcalls
      refine ⟨?_, hframes, ?_⟩
      · rw [← List.head?_map, hframes]
        cases enteredCalls h s.path <;> rfl
      · have hnotFound : inspectVertex (h.function source).entryVertexDesc = false := by
          by_contra hfound
          -- Nothing would be examined at all.
          have hidle := (idle_of_reaches (Bool.not_eq_false _ ▸ hfound) hsearch).2
            (u, e :: ei) (by rw [hstack']; exact List.mem_cons_self)
          exact List.cons_ne_nil _ _ hidle
        rw [searchStart_of_eq_false hnotFound] at hsearch
        obtain ⟨n, hn⟩ := hsearch.exists_trajectory
        have hreal := ContextSearch.realizable_after (procedures hp hlinked o)
          (r := (h.function source).entryVertexDesc) (by rw [hp.home_entry hsource]) n
        rw [show ContextSearch.after (flow h o) _ n = a from hn] at hreal
        have htip := home_tip_eq_currentFunction hp hlinked hsource hthread.walk hreal hpath
        rw [hstack'] at hthread
        obtain ⟨hsourceu, hu⟩ := (mem_outEdgeList hp.consistent).mp
          (hthread.top.2.subset List.mem_cons_self)
        rw [← hthread.top.1, ← hpath', ← hsourceu] at htip
        have hattached : (h.edge e).source ≠ null := hsourceu ▸ hu
        exact (hp.mem_edges _ (htip ▸ hp.home_source e hattached) e).mpr ⟨hattached, htip⟩

omit hlinked in
/-- A step that strands no edge. -/
theorem kept_step
    (howner : (h.vertex (h.function source).entryVertexDesc).owningFunction = source)
    {s t : State}
    (hreach : Reaches (step h o inspectVertex) (start h o inspectVertex source) s)
    (hkept : s.stop = none → Kept (flow h o) (contextState s))
    (hstranded : Exhausted (stranded h o s)) (hstep : step h o inspectVertex s = some t) :
    t.stop = none → Kept (flow h o) (contextState t) := by
  intro ht
  cases searchState_of_reaches hp hsource howner hreach with
  | found b _ _ hfound =>
      unfold step ControlFlowGraphTraversalDFS.step at hstep
      rw [hfound.stop] at hstep
      exact absurd hstep (by simp)
  | searching a _ hsim haligned hgrounded =>
      obtain ⟨b, hb, hcase⟩ := step_simulates hp hsim haligned hgrounded hstep
      rcases hcase with ⟨hsim', -⟩ | hfound
      · have ha := hsim.contextState haligned
        have hkept' := hkept hsim.stop
        unfold stranded at hstranded
        rw [ha] at hkept' hstranded
        rw [hsim'.contextState (haligned.preserved hb)]
        exact hkept'.step haligned hstranded hb
      · rw [hfound.stop] at ht
        exact absurd ht (by simp)

end run

/-- As long as no step leaves out-edges stranded, every edge is examined in its
own context. -/
theorem inOwnContext_of_exhausted {p : Program} (hp : LinkedProgram p)
    {source : FunctionPtr} (hsource : source ∈ p.functions) (o : SetOrder)
    (inspectVertex : VertexPtr → Bool) (n : Nat)
    (hstranded : ∀ i < n, Exhausted (stranded p.heap o
      (trajectory (step p.heap o inspectVertex)
        (start p.heap o inspectVertex source) i))) :
    ExaminesInOwnContext p.heap source
      (trajectory (step p.heap o inspectVertex)
        (start p.heap o inspectVertex source) n) := by
  obtain ⟨home, hflow, hlinked⟩ := hp.flow
  have howner := hp.owningFunction_entry hsource
  have hsim : Simulates _ (start p.heap o inspectVertex source) _ :=
    simulates_start hflow hsource howner
  have hstart : Kept (flow p.heap o)
      (contextState (start p.heap o inspectVertex source)) := by
    refine .inr ⟨[], [], ?_, ?_, fun _ hq => absurd hq List.not_mem_nil⟩
    · unfold contextState State.path
      rw [hsim.visitor]
      rfl
    · show ((start p.heap o inspectVertex source).callStack.callStack.map contextFrame).map
        ContextSearch.Frame.call = [none]
      rw [hsim.frames]
      rfl
  have hrun : Reaches (step p.heap o inspectVertex) (start p.heap o inspectVertex source)
        (trajectory (step p.heap o inspectVertex)
          (start p.heap o inspectVertex source) n) ∧
      ((trajectory (step p.heap o inspectVertex)
          (start p.heap o inspectVertex source) n).stop = none →
        Kept (flow p.heap o) (contextState (trajectory (step p.heap o inspectVertex)
          (start p.heap o inspectVertex source) n))) :=
    trajectory_invariant
      (P := fun s => Reaches (step p.heap o inspectVertex)
          (start p.heap o inspectVertex source) s ∧
        (s.stop = none → Kept (flow p.heap o) (contextState s)))
      (C := fun s => Exhausted (stranded p.heap o s))
      (fun s t hs hC hstep =>
        ⟨.tail hs.1 hstep, kept_step hflow hsource howner hs.1 hs.2 hC hstep⟩)
      ⟨.refl, fun _ => hstart⟩ n hstranded
  exact examinesInOwnContext_of_kept hflow hlinked hsource howner hrun.1 hrun.2

/-! ## A call of a function with two branches -/

/-- `f() { g(); }` and `g() { if (c) { A: } B: }`. -/
def branchingCallee : List FunctionInfo :=
  [⟨"f.c", "f", [(.functionCallUnresolved "g" "", .unknown)]⟩,
   ⟨"f.c", "g", [(.ifUnlinked "c" "A" "B", .unknown), (.label "A", .unknown),
    (.label "B", .unknown)]⟩]

/-- After ten steps EXIT of `g` is on top of the stack. -/
theorem inOwnContext_branchingCallee :
    ∃ p, LinkedProgram p ∧ ExaminesInOwnContext p.heap 1
      (trajectory (step p.heap .ascending fun _ => false)
        (start p.heap .ascending (fun _ => false) 1) 10) := by
  have hcheck : (Program.parse blankMemory .ascending branchingCallee).Holds fun p =>
      1 ∈ p.functions ∧ ∀ i < 10, Exhausted (stranded p.heap .ascending
        (trajectory (step p.heap .ascending fun _ => false)
          (start p.heap .ascending (fun _ => false) 1) i)) := by
    decide +kernel
  obtain ⟨p, hrun, hf, hstranded⟩ := hcheck
  have hp := linkedProgram_of_parse (by decide) hrun
  exact ⟨p, hp, inOwnContext_of_exhausted hp hf .ascending _ 10 hstranded⟩

/-- The `Return` edge of EXIT of `g` leads to a vertex the search has been to.
Then the second branch of `if` is looked up in the frame of `f`, although the
path has entered `g` by the call 10 and not left it. -/
theorem branchingCallee_not_inOwnContext :
    ∃ p s, LinkedProgram p ∧ Acyclic p.Calls ∧ 1 ∈ p.functions ∧
      Reaches (step p.heap .ascending fun _ => false)
        (start p.heap .ascending (fun _ => false) 1) s ∧
      s.stop = none ∧ s.dfsStack.head? = some ⟨9, [9]⟩ ∧
      s.callStack.callStack.map (·.functionCallWhichPushedThisFrame) = [null] ∧
      enteredCalls p.heap s.path = [10] ∧
      (p.heap.vertex 10).statement = .functionCallResolved 2 "" ∧
      ¬ ExaminesInOwnContext p.heap 1 s := by
  have hcheck : (Program.parse blankMemory .ascending branchingCallee).Holds fun p =>
      1 ∈ p.functions ∧
        (∀ f ∈ p.functions, ∀ v ∈ (p.heap.graph f).vertices,
          ∀ g ∈ (p.heap.vertex v).statement.calledFunction,
            [2, 1].idxOf g < [2, 1].idxOf f) ∧
        (let s := run (step p.heap .ascending fun _ => false) 14
            (start p.heap .ascending (fun _ => false) 1);
          s.stop.isNone = true ∧ s.dfsStack.head? = some ⟨9, [9]⟩ ∧
            s.callStack.callStack.map (·.functionCallWhichPushedThisFrame) = [null] ∧
            enteredCalls p.heap s.path = [10]) ∧
        (p.heap.vertex 10).statement = .functionCallResolved 2 "" := by
    decide +kernel
  obtain ⟨p, hrun, hf, hrank, ⟨hstop, hstack, hcalls, hentered⟩, hstatement⟩ := hcheck
  have hstop := Option.isNone_iff_eq_none.mp hstop
  refine ⟨p, _, linkedProgram_of_parse (by decide) hrun,
    Acyclic.of_rank [2, 1].idxOf ?_, hf, reaches_run 14 _, hstop, hstack, hcalls,
    hentered, hstatement, fun hcontext => ?_⟩
  · rintro f g ⟨hf, v, hv, hg⟩
    exact hrank f hf v hv g hg
  · obtain ⟨rest, hrest⟩ := List.head?_eq_some_iff.mp hstack
    have htop := (hcontext hstop _ _ _ _ hrest).top
    rw [← List.head?_map, hcalls, hentered] at htop
    exact absurd htop (by decide)

end ReachabilityVisitor

end CoFlo.Ports
