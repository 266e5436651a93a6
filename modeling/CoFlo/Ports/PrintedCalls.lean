import CoFlo.Ports.PrintSteps

/-!
# The call stack of `PrintControlFlowGraph`

The frame that `start_vertex` pushes has no call, and the function it stands
for is not in the call set.  So a call of the printed function is not found to
be recursive before a call of it has a frame of its own
(`recursionDetected_iff`).  With every step the frames that are pushed for calls and
the ones that are popped add up (`PrintInv.pushedBy_append`).
-/

namespace CoFlo.Ports

open CoFlo.Verified.StepMachine

namespace PrintControlFlowGraph

/-- The vertex the next step discovers. -/
def State.discovering (h : Heap) (s : State) : Option VertexPtr :=
  if s.stop = none ∧ s.visiting = none then
    s.noRemainingInEdgesSet.head?.map fun e => (h.edge e).target
  else none

/-- The vertex whose visit the next step completes. -/
def State.completing (s : State) : Option VertexPtr :=
  if s.stop = none then
    s.visiting.bind fun x => if x.ei = [] then some x.u else none
  else none

/-- The frames, the top first. -/
def State.frames (s : State) : List CallStackFrame :=
  s.visitor.callStack.callStack

/-- The function for whose call a frame was pushed. -/
def frameTarget (h : Heap) (x : CallStackFrame) : Option FunctionPtr :=
  if x.functionCallWhichPushedThisFrame = null then none
  else (h.vertex x.functionCallWhichPushedThisFrame).statement.calledFunction

/-- The functions with a call on the stack. -/
def State.callees (h : Heap) (s : State) : List FunctionPtr :=
  s.frames.filterMap (frameTarget h)

/-- What holds as long as nothing goes wrong. -/
structure PrintInv (h : Heap) (s : State) : Prop where
  remaining : ∀ e ∈ s.noRemainingInEdgesSet, (h.edge e).source ≠ null
  visiting : ∀ x, s.visiting = some x → ∀ e ∈ x.ei, (h.edge e).source ≠ null
  frames : ∃ calls bottom, s.frames = calls ++ [bottom] ∧
    bottom.functionCallWhichPushedThisFrame = null ∧
      ∀ x ∈ calls, x.functionCallWhichPushedThisFrame ≠ null ∧
        ∃ g, (h.vertex x.functionCallWhichPushedThisFrame).statement.calledFunction
          = some g
  nodup : (s.callees h).Nodup
  mem_callSet : ∀ g, g ∈ s.visitor.callStack.callSet ↔ g ∈ s.callees h

theorem PrintInv.of_callStack {h : Heap} {s t : State} (hs : PrintInv h s)
    (hsame : t.visitor.callStack = s.visitor.callStack)
    (hremaining : ∀ e ∈ t.noRemainingInEdgesSet, (h.edge e).source ≠ null)
    (hvisiting : ∀ x, t.visiting = some x → ∀ e ∈ x.ei,
      (h.edge e).source ≠ null) : PrintInv h t where
  remaining := hremaining
  visiting := hvisiting
  frames := by
    have hframes := hs.frames
    rwa [State.frames, ← hsame] at hframes
  nodup := by
    have hnodup := hs.nodup
    rwa [State.callees, State.frames, ← hsame] at hnodup
  mem_callSet := by
    have hmem := hs.mem_callSet
    simp only [State.callees, State.frames, ← hsame] at hmem
    exact hmem

/-- The functions with a call on the stack after a push. -/
theorem callees_push {h : Heap} {s t : State} {u : VertexPtr}
    {g : FunctionPtr} {cfg : GraphPtr} (hu : u ≠ null)
    (hg : (h.vertex u).statement.calledFunction = some g)
    (hframes : t.frames = .new u cfg :: s.frames) :
    t.callees h = g :: s.callees h := by
  unfold State.callees
  rw [hframes, List.filterMap_cons_some]
  unfold frameTarget
  rw [if_neg (show (CallStackFrame.new u cfg).functionCallWhichPushedThisFrame ≠
    null from hu)]
  exact hg

section

variable {h : Heap} {o : IterationOrder} {this : FunctionPtr}
  {cfgVerbose cfgVertexIds : Bool}

/-- Pushing a frame for a call that is not recursive. -/
theorem PrintInv.push {s t : State} (hs : PrintInv h s) {u : VertexPtr}
    {g : FunctionPtr} {cfg : GraphPtr} (hu : u ≠ null)
    (hg : (h.vertex u).statement.calledFunction = some g)
    (hnew : g ∉ s.visitor.callStack.callSet)
    (hframes : t.frames = .new u cfg :: s.frames)
    (hset : t.visitor.callStack.callSet =
      insert g s.visitor.callStack.callSet)
    (hremaining : ∀ e ∈ t.noRemainingInEdgesSet, (h.edge e).source ≠ null)
    (hvisiting : ∀ x, t.visiting = some x → ∀ e ∈ x.ei,
      (h.edge e).source ≠ null) : PrintInv h t := by
  have hcallees := callees_push hu hg hframes
  obtain ⟨calls, bottom, heq, hbottom, hcalls⟩ := hs.frames
  exact
    { remaining := hremaining
      visiting := hvisiting
      frames := by
        refine ⟨.new u cfg :: calls, bottom, by rw [hframes, heq]; rfl, hbottom,
          fun x hx => ?_⟩
        rcases List.mem_cons.mp hx with rfl | hx
        · exact ⟨hu, g, hg⟩
        · exact hcalls x hx
      nodup := by
        rw [hcallees, List.nodup_cons]
        exact ⟨fun hmem => hnew ((hs.mem_callSet g).mpr hmem), hs.nodup⟩
      mem_callSet := fun g' => by
        rw [hset, Finset.mem_insert, hcallees, List.mem_cons, hs.mem_callSet] }

/-- Popping succeeds for the frame of a call only. -/
theorem PrintInv.pop {s : State} (hs : PrintInv h s) {callStack : DFSCallStack}
    (hpop : s.visitor.callStack.popCallStack h = .ok callStack) :
    ∃ x g, s.frames = x :: callStack.callStack ∧
      x.functionCallWhichPushedThisFrame ≠ null ∧
      (h.vertex x.functionCallWhichPushedThisFrame).statement.calledFunction =
        some g ∧
      callStack.callSet = s.visitor.callStack.callSet.erase g := by
  obtain ⟨calls, bottom, heq, hbottom, hcalls⟩ := hs.frames
  unfold DFSCallStack.popCallStack at hpop
  change s.visitor.callStack.callStack = _ at heq
  rw [heq] at hpop
  cases calls with
  | nil =>
      simp only [List.nil_append, if_pos hbottom] at hpop
      exact absurd hpop (by simp)
  | cons x calls =>
      obtain ⟨hx, g, hg⟩ := hcalls x List.mem_cons_self
      simp only [List.cons_append, if_neg hx, hg, Option.getD_some,
        Except.ok.injEq] at hpop
      rw [← hpop]
      exact ⟨x, g, heq, hx, hg, rfl⟩

/-- The invariant after a pop. -/
theorem PrintInv.popped {s t : State} (hs : PrintInv h s)
    (hpop : s.visitor.callStack.popCallStack h = .ok t.visitor.callStack)
    (hremaining : ∀ e ∈ t.noRemainingInEdgesSet, (h.edge e).source ≠ null)
    (hvisiting : ∀ x, t.visiting = some x → ∀ e ∈ x.ei,
      (h.edge e).source ≠ null) : PrintInv h t := by
  obtain ⟨x, g, hframes, hx, hg, hset⟩ := hs.pop hpop
  have hcallees : s.callees h = g :: t.callees h := by
    unfold State.callees
    rw [hframes, List.filterMap_cons_some]
    · rfl
    · unfold frameTarget
      rw [if_neg hx]
      exact hg
  have hnodup := hs.nodup
  rw [hcallees, List.nodup_cons] at hnodup
  obtain ⟨calls, bottom, heq, hbottom, hcalls⟩ := hs.frames
  cases calls with
  | nil =>
      rw [hframes, List.nil_append, List.cons_eq_cons] at heq
      rw [heq.1] at hx
      exact absurd hbottom hx
  | cons y calls =>
      rw [hframes, List.cons_append, List.cons_eq_cons] at heq
      exact
        { remaining := hremaining
          visiting := hvisiting
          frames := ⟨calls, bottom, heq.2, hbottom, fun z hz =>
            hcalls z (List.mem_cons_of_mem _ hz)⟩
          nodup := hnodup.2
          mem_callSet := fun g' => by
            rw [hset, Finset.mem_erase, hs.mem_callSet, hcallees, List.mem_cons]
            constructor
            · rintro ⟨hne, heq | hmem⟩
              · exact absurd heq hne
              · exact hmem
            · exact fun hmem => ⟨fun heq => hnodup.1 (heq ▸ hmem), .inr hmem⟩ }

theorem discoverVertex_ok {options : PrintOptions} {u : VertexPtr}
    {e : EdgePtr} {s t : FunctionCFGVisitor} {r : VertexReturnValue}
    (hcall : FunctionCFGVisitor.discoverVertex h o options u e s = .ok (r, t)) :
    r = .ok :=
  (congrArg Prod.fst (Except.ok.inj hcall)).symm

/-- The invariant is kept until something goes wrong. -/
theorem PrintInv.preserved (hc : h.Consistent) {s t : State} (hs : PrintInv h s)
    (hstep : step h o this cfgVerbose cfgVertexIds s = some t)
    (ht : t.stop = none) : PrintInv h t := by
  obtain ⟨-, hmoves⟩ := TopologicalVisitKahn.step_moves _ _ _ _ hstep
  cases hmoves with
  | @discover e rest r visitor hvisiting hset hcall hr =>
      have hdiscovers := FunctionCFGVisitor.discoverVertex_discovers h o _ hcall
      have hsource := hs.remaining e (hset ▸ List.mem_cons_self)
      have htarget : (h.edge e).target ≠ null :=
        fun heq => hsource ((hc.source_eq_null e).mpr heq)
      have hremaining : ∀ d ∈ rest, (h.edge d).source ≠ null :=
        fun d hd => hs.remaining d (hset ▸ List.mem_cons_of_mem _ hd)
      have hout : ∀ x, some (⟨(h.edge e).target, o.outEdges.enum
          (h.vertex (h.edge e).target).outEdges, 0, none⟩ :
            TopologicalVisitKahn.Visiting) = some x →
          ∀ d ∈ x.ei, (h.edge d).source ≠ null := by
        intro x hx d hd
        rw [← Option.some.inj hx, SetOrder.mem_enum, hc.mem_outEdges] at hd
        rw [hd.1]
        exact hd.2
      cases hg : (h.vertex (h.edge e).target).statement.calledFunction with
      | none =>
          exact hs.of_callStack (hdiscovers.noCall hg).callStack hremaining hout
      | some g =>
          by_cases hmem : g ∈ s.visitor.callStack.callSet
          · exact hs.of_callStack (hdiscovers.recursive g hg hmem).1 hremaining
              hout
          · obtain ⟨hpushed, _⟩ := hdiscovers.pushes g hg hmem
            exact hs.push htarget hg hmem (congrArg _ hpushed)
              (congrArg _ hpushed) hremaining hout
  | pass hvisiting hset hcall =>
      exact absurd (discoverVertex_ok hcall) (by decide)
  | skip hvisiting hei hcall =>
      have hout := hs.visiting _ hvisiting
      refine hs.of_callStack
        (FunctionCFGVisitor.examineEdge_sameCalls h hcall).callStack hs.remaining
        fun x hx d hd => ?_
      rw [← Option.some.inj hx] at hd
      exact hout d (by rw [hei]; exact List.mem_cons_of_mem _ hd)
  | count hvisiting hei hcall hr hid hmap =>
      have hout := hs.visiting _ hvisiting
      refine hs.of_callStack
        (FunctionCFGVisitor.examineEdge_sameCalls h hcall).callStack hs.remaining
        fun x hx d hd => ?_
      rw [← Option.some.inj hx] at hd
      exact hout d (by rw [hei]; exact List.mem_cons_of_mem _ hd)
  | push hvisiting hei hcall hr hid hmap htree =>
      have hout := hs.visiting _ hvisiting
      have hvisitor := congrArg Prod.snd (Except.ok.inj htree)
      have hsame := (FunctionCFGVisitor.examineEdge_sameCalls h hcall).callStack
      dsimp only at hvisitor
      rw [hvisitor] at hsame
      refine hs.of_callStack hsame ?_ fun x hx d hd => ?_
      · intro d hd
        rcases List.mem_cons.mp hd with rfl | hd
        · exact hout d (by rw [hei]; exact List.mem_cons_self)
        · exact hs.remaining d hd
      · rw [← Option.some.inj hx] at hd
        exact hout d (by rw [hei]; exact List.mem_cons_of_mem _ hd)
  | @complete x visitor hvisiting hei hcall =>
      have hcompletes :=
        FunctionCFGVisitor.vertexVisitComplete_completes h o _ hcall
      by_cases hexit : (h.vertex x.u).statement = .exit
      · exact hs.popped (hcompletes.pops hexit).1 hs.remaining
          fun y hy => absurd hy (by simp)
      · exact hs.of_callStack (hcompletes.same hexit).callStack hs.remaining
          fun y hy => absurd hy (by simp)
  | fault hstop => exact absurd ht hstop

end

/-! ## Runs -/

/-- The visit starts with the frame of the printed function, unless ENTRY does
not know that function. -/
theorem start_eq_of_stop {h : Heap} {o : IterationOrder} {f : FunctionPtr}
    {cfgVerbose cfgVertexIds : Bool}
    (hstop : (start h o f cfgVerbose cfgVertexIds).stop = none) :
    ∃ cfg, start h o f cfgVerbose cfgVertexIds =
      ⟨[(h.function f).entryVertexSelfEdge], .empty, none,
        { FunctionCFGVisitor.new with callStack := ⟨[.new null cfg], ∅⟩ },
        none⟩ := by
  unfold start TopologicalVisitKahn.start TopologicalVisitKahn.visit at hstop ⊢
  by_cases howner : (h.vertex (h.edge
      (h.function f).entryVertexSelfEdge).target).owningFunction = null
  · have hcall : (visitor h o f cfgVerbose cfgVertexIds).startVertex
        (h.function f).entryVertexSelfEdge .new = .error .nullDereference :=
      if_pos howner
    simp only [hcall] at hstop
    exact absurd hstop (by simp)
  · have hcall : (visitor h o f cfgVerbose cfgVertexIds).startVertex
        (h.function f).entryVertexSelfEdge .new = _ := if_neg howner
    rw [hcall]
    exact ⟨_, rfl⟩

theorem start_stop {functions : List FunctionPtr} {home : VertexPtr → FunctionPtr}
    {h : Heap} (hp : ProgramFlow functions home h) {f : FunctionPtr}
    (hf : f ∈ functions)
    (howner : (h.vertex (h.function f).entryVertexDesc).owningFunction ≠ null)
    (o : IterationOrder) (cfgVerbose cfgVertexIds : Bool) :
    (start h o f cfgVerbose cfgVertexIds).stop = none := by
  unfold start TopologicalVisitKahn.start TopologicalVisitKahn.visit
  have hcall : (visitor h o f cfgVerbose cfgVertexIds).startVertex
      (h.function f).entryVertexSelfEdge .new = _ :=
    if_neg (by rw [hp.entrySelf f hf]; exact howner)
  rw [hcall]

/-- The start of a run on a linked program. -/
theorem printInv_start {functions : List FunctionPtr}
    {home : VertexPtr → FunctionPtr} {h : Heap}
    (hp : ProgramFlow functions home h) {f : FunctionPtr} (hf : f ∈ functions)
    (o : IterationOrder) (cfgVerbose cfgVertexIds : Bool)
    (hstop : (start h o f cfgVerbose cfgVertexIds).stop = none) :
    PrintInv h (start h o f cfgVerbose cfgVertexIds) := by
  obtain ⟨cfg, hstart⟩ := start_eq_of_stop hstop
  rw [hstart]
  exact
    { remaining := fun e he => by
        rw [List.mem_singleton.mp he, hp.entrySelf f hf]
        exact hp.entry_ne_null hf
      visiting := fun x hx => absurd hx (by simp)
      frames := ⟨[], _, rfl, rfl, fun x hx => absurd hx List.not_mem_nil⟩
      nodup := List.nodup_nil
      mem_callSet := fun g => by
        constructor
        · exact fun hg => absurd hg (Finset.notMem_empty g)
        · exact fun hg => absurd hg List.not_mem_nil }

/-- The invariant holds in every state in which nothing has gone wrong. -/
theorem printInv_of_reaches {p : Program} (hp : LinkedProgram p)
    {f : FunctionPtr} (hf : f ∈ p.functions) {o : IterationOrder}
    {cfgVerbose cfgVertexIds : Bool} {s : State}
    (hs : Reaches (step p.heap o f cfgVerbose cfgVertexIds)
      (start p.heap o f cfgVerbose cfgVertexIds) s) (hstop : s.stop = none) :
    PrintInv p.heap s := by
  obtain ⟨home, hflow, _⟩ := hp.flow
  refine hs.invariant (P := fun s => s.stop = none → PrintInv p.heap s) ?_
    (printInv_start hflow hf o cfgVerbose cfgVertexIds) hstop
  intro t u ht hstep hu
  exact (ht (TopologicalVisitKahn.step_moves _ _ _ _ hstep).1).preserved
    hflow.consistent hstep hu

/-! ## Recursion -/

/-- The call discovered by the step is taken for a recursive one. -/
def TreatedAsRecursive (s t : State) : Prop :=
  t.visitor.lastDiscoveredVertexIsRecursive = true ∧ t.frames = s.frames

theorem discovering_eq_some {h : Heap} {s : State} {u : VertexPtr}
    (hu : s.discovering h = some u) :
    s.visiting = none ∧ ∃ e rest, s.noRemainingInEdgesSet = e :: rest ∧
      (h.edge e).target = u := by
  unfold State.discovering at hu
  split_ifs at hu with hcond
  refine ⟨hcond.2, ?_⟩
  cases hset : s.noRemainingInEdgesSet with
  | nil => simp [hset] at hu
  | cons e rest =>
      rw [hset] at hu
      exact ⟨e, rest, rfl, Option.some.inj hu⟩

/-- The step that discovers a vertex. -/
theorem step_of_discovering {h : Heap} {o : IterationOrder}
    {this : FunctionPtr} {cfgVerbose cfgVertexIds : Bool} {s t : State}
    (hstep : step h o this cfgVerbose cfgVertexIds s = some t) {u : VertexPtr}
    (hu : s.discovering h = some u) :
    t.stop = none ∧ FunctionCFGVisitor.Discovers h u s.visitor t.visitor := by
  obtain ⟨hvisiting, e, rest, hset, htarget⟩ := discovering_eq_some hu
  have hstop := (TopologicalVisitKahn.step_moves _ _ _ _ hstep).1
  obtain ⟨visitor', hcall⟩ : ∃ visitor', (visitor h o this cfgVerbose
      cfgVertexIds).discoverVertex u e s.visitor = .ok (.ok, visitor') :=
    ⟨_, rfl⟩
  have hnext : step h o this cfgVerbose cfgVertexIds s = some _ :=
    TopologicalVisitKahn.step_of_discover _ _ _ _ hstop hvisiting hset
  simp only [hstep, hstop, Option.some.injEq, TopologicalVisitKahn.discover,
    TopologicalVisitKahn.visit, htarget, hcall] at hnext
  rw [hnext]
  exact ⟨rfl, FunctionCFGVisitor.discoverVertex_discovers h o _ hcall⟩

/-- A call is taken for a recursive one when a call of its function is on the
stack. -/
theorem treatedAsRecursive_iff {p : Program} (hp : LinkedProgram p)
    {f : FunctionPtr} (hf : f ∈ p.functions) {o : IterationOrder}
    {cfgVerbose cfgVertexIds : Bool} {s t : State}
    (hs : Reaches (step p.heap o f cfgVerbose cfgVertexIds)
      (start p.heap o f cfgVerbose cfgVertexIds) s)
    (hstep : step p.heap o f cfgVerbose cfgVertexIds s = some t)
    {u : VertexPtr} (hu : s.discovering p.heap = some u) {g : FunctionPtr}
    (hg : (p.heap.vertex u).statement.calledFunction = some g) :
    TreatedAsRecursive s t ↔ g ∈ s.callees p.heap := by
  have hstop := (TopologicalVisitKahn.step_moves _ _ _ _ hstep).1
  have hinv := printInv_of_reaches hp hf hs hstop
  obtain ⟨_, hdiscovers⟩ := step_of_discovering hstep hu
  rw [← hinv.mem_callSet]
  constructor
  · intro hrec
    by_contra hmem
    have hflag := (hdiscovers.pushes g hg hmem).2
    rw [hrec.1] at hflag
    exact absurd hflag (by decide)
  · intro hmem
    obtain ⟨hsame, hflag⟩ := hdiscovers.recursive g hg hmem
    exact ⟨hflag, congrArg DFSCallStack.callStack hsame⟩

/-- A call of `g` is taken for a recursive one exactly when `g` is the printed
function or has a call on the stack, unless it is the printed function and has
none. -/
theorem recursionDetected_iff {p : Program} (hp : LinkedProgram p)
    {f : FunctionPtr} (hf : f ∈ p.functions) {o : IterationOrder}
    {cfgVerbose cfgVertexIds : Bool} {s t : State}
    (hs : Reaches (step p.heap o f cfgVerbose cfgVertexIds)
      (start p.heap o f cfgVerbose cfgVertexIds) s)
    (hstep : step p.heap o f cfgVerbose cfgVertexIds s = some t)
    {u : VertexPtr} (hu : s.discovering p.heap = some u) {g : FunctionPtr}
    (hg : (p.heap.vertex u).statement.calledFunction = some g) :
    (TreatedAsRecursive s t ↔ g = f ∨ g ∈ s.callees p.heap) ↔
      ¬ (g = f ∧ g ∉ s.callees p.heap) := by
  rw [treatedAsRecursive_iff hp hf hs hstep hu hg]
  by_cases hmem : g ∈ s.callees p.heap
  · simp [hmem]
  · simp [hmem]

/-- A function that calls itself. -/
def selfCall : List FunctionInfo :=
  [⟨"f.c", "f", [(.functionCallUnresolved "f" "", .unknown)]⟩]

/-- The call is discovered in the fourth step. -/
theorem selfCall_run :
    ∃ p s t, LinkedProgram p ∧ 1 ∈ p.functions ∧
      Reaches (step p.heap .ascending 1 true true)
        (start p.heap .ascending 1 true true) s ∧
      step p.heap .ascending 1 true true s = some t ∧
      s.discovering p.heap = some 4 ∧
      (p.heap.vertex 4).statement.calledFunction = some 1 ∧
      t.visitor.lastDiscoveredVertexIsRecursive = false := by
  have hcheck : (Program.parse blankMemory .ascending selfCall).Holds fun p =>
      1 ∈ p.functions ∧
      (run (step p.heap .ascending 1 true true) 4
        (start p.heap .ascending 1 true true)).discovering p.heap = some 4 ∧
      (p.heap.vertex 4).statement.calledFunction = some 1 ∧
      (step p.heap .ascending 1 true true
        (run (step p.heap .ascending 1 true true) 4
          (start p.heap .ascending 1 true true))).map
            (·.visitor.lastDiscoveredVertexIsRecursive) = some false := by
    decide +kernel
  obtain ⟨p, hrun, hf, hu, hg, hflag⟩ := hcheck
  obtain ⟨t, hstep, hflag⟩ := Option.map_eq_some_iff.mp hflag
  exact ⟨p, _, t, linkedProgram_of_parse (by decide) hrun, hf,
    reaches_run 4 _, hstep, hu, hg, hflag⟩

/-- The first call of a function to itself is not found to be recursive. -/
theorem selfCall_not_recursionDetected :
    ∃ p s t, LinkedProgram p ∧ 1 ∈ p.functions ∧
      Reaches (step p.heap .ascending 1 true true)
        (start p.heap .ascending 1 true true) s ∧
      step p.heap .ascending 1 true true s = some t ∧
      s.discovering p.heap = some 4 ∧
      (p.heap.vertex 4).statement.calledFunction = some 1 ∧
      ¬ (TreatedAsRecursive s t ↔ 1 = 1 ∨ 1 ∈ s.callees p.heap) := by
  obtain ⟨p, s, t, hp, hf, hs, hstep, hu, hg, hflag⟩ := selfCall_run
  refine ⟨p, s, t, hp, hf, hs, hstep, hu, hg, fun hiff => ?_⟩
  have hrec := (hiff.mpr (.inl rfl)).1
  rw [hflag] at hrec
  exact absurd hrec (by decide)

/-- When the call is discovered once more, its own frame is on the stack. -/
theorem recursionDetected_iff_selfCall :
    ∃ p s t, LinkedProgram p ∧ 1 ∈ p.functions ∧
      Reaches (step p.heap .ascending 1 true true)
        (start p.heap .ascending 1 true true) s ∧
      step p.heap .ascending 1 true true s = some t ∧
      s.discovering p.heap = some 4 ∧
      (p.heap.vertex 4).statement.calledFunction = some 1 ∧
      ¬ (1 = 1 ∧ 1 ∉ s.callees p.heap) ∧
      (TreatedAsRecursive s t ↔ 1 = 1 ∨ 1 ∈ s.callees p.heap) := by
  have hcheck : (Program.parse blankMemory .ascending selfCall).Holds fun p =>
      1 ∈ p.functions ∧
      (run (step p.heap .ascending 1 true true) 12
        (start p.heap .ascending 1 true true)).discovering p.heap = some 4 ∧
      (p.heap.vertex 4).statement.calledFunction = some 1 ∧
      1 ∈ (run (step p.heap .ascending 1 true true) 12
        (start p.heap .ascending 1 true true)).callees p.heap ∧
      (step p.heap .ascending 1 true true
        (run (step p.heap .ascending 1 true true) 12
          (start p.heap .ascending 1 true true))).isSome = true := by
    decide +kernel
  obtain ⟨p, hrun, hf, hu, hg, hcallee, hsome⟩ := hcheck
  obtain ⟨t, hstep⟩ := Option.isSome_iff_exists.mp hsome
  have hp := linkedProgram_of_parse (by decide) hrun
  have hknown : ¬ (1 = 1 ∧ 1 ∉ (run (step p.heap .ascending 1 true true) 12
      (start p.heap .ascending 1 true true)).callees p.heap) :=
    fun h => h.2 hcallee
  exact ⟨p, _, t, hp, hf, reaches_run 12 _, hstep, hu, hg, hknown,
    (recursionDetected_iff hp hf (reaches_run 12 _) hstep hu hg).mpr hknown⟩

/-! ## Pushes and pops -/

/-- The calls whose frames are on the stack. -/
def State.openCalls (s : State) : List VertexPtr :=
  (s.frames.map (·.functionCallWhichPushedThisFrame)).filter (· ≠ null)

/-- The call for which a step pushes a frame. -/
def pushedBy (h : Heap) (s t : State) : List VertexPtr :=
  match s.discovering h with
  | some u =>
      if (h.vertex u).statement.calledFunction ≠ none ∧
          t.visitor.lastDiscoveredVertexIsRecursive = false then [u]
      else []
  | none => []

/-- The call whose frame a step pops. -/
def poppedBy (h : Heap) (s t : State) : List VertexPtr :=
  match s.completing with
  | some u =>
      if (h.vertex u).statement = .exit ∧ t.stop = none then
        (s.frames.take 1).map (·.functionCallWhichPushedThisFrame)
      else []
  | none => []

section

variable {h : Heap} {o : IterationOrder} {this : FunctionPtr}
  {cfgVerbose cfgVertexIds : Bool}

/-- Apart from the bottom, every frame has a call. -/
theorem PrintInv.openCalls_eq {s : State} (hs : PrintInv h s) :
    ∃ calls bottom, s.frames = calls ++ [bottom] ∧
      bottom.functionCallWhichPushedThisFrame = null ∧
      s.openCalls = calls.map (·.functionCallWhichPushedThisFrame) := by
  obtain ⟨calls, bottom, hframes, hbottom, hcalls⟩ := hs.frames
  refine ⟨calls, bottom, hframes, hbottom, ?_⟩
  unfold State.openCalls
  rw [hframes, List.map_append, List.filter_append, List.filter_eq_self.mpr]
  · simp [hbottom]
  · intro c hc
    obtain ⟨x, hx, rfl⟩ := List.mem_map.mp hc
    exact decide_eq_true (hcalls x hx).1

/-- The calls on the stack after a step: what was pushed is there, what was
popped was there. -/
theorem PrintInv.pushedBy_append (hc : h.Consistent) {s t : State}
    (hs : PrintInv h s)
    (hstep : step h o this cfgVerbose cfgVertexIds s = some t)
    (ht : t.stop = none) :
    pushedBy h s t ++ s.openCalls = poppedBy h s t ++ t.openCalls := by
  obtain ⟨hstop, hmoves⟩ := TopologicalVisitKahn.step_moves _ _ _ _ hstep
  -- Neither a discovery nor the end of a visit.
  have hother : ∀ x e ei, s.visiting = some x → x.ei = e :: ei →
      t.visitor.callStack = s.visitor.callStack →
        pushedBy h s t ++ s.openCalls = poppedBy h s t ++ t.openCalls := by
    intro x e ei hvisiting hei hsame
    have hframes : t.openCalls = s.openCalls := by
      unfold State.openCalls State.frames
      rw [hsame]
    unfold pushedBy poppedBy State.discovering State.completing
    simp [hvisiting, hei, hframes]
  cases hmoves with
  | @discover e rest r visitor hvisiting hset hcall hr =>
      have hdiscovers := FunctionCFGVisitor.discoverVertex_discovers h o _ hcall
      have hu : s.discovering h = some (h.edge e).target := by
        simp [State.discovering, hstop, hvisiting, hset]
      have hpopped : ∀ t, poppedBy h s t = [] := by
        intro t
        simp [poppedBy, State.completing, hvisiting]
      rw [hpopped]
      unfold pushedBy
      simp only [hu]
      cases hg : (h.vertex (h.edge e).target).statement.calledFunction with
      | none =>
          have hsame := (hdiscovers.noCall hg).callStack
          simp [State.openCalls, State.frames, hsame]
      | some g =>
          by_cases hmem : g ∈ s.visitor.callStack.callSet
          · obtain ⟨hsame, hflag⟩ := hdiscovers.recursive g hg hmem
            simp [State.openCalls, State.frames, hsame, hflag]
          · obtain ⟨hpushed, hflag⟩ := hdiscovers.pushes g hg hmem
            have hsource := hs.remaining e (hset ▸ List.mem_cons_self)
            have htarget : (h.edge e).target ≠ null :=
              fun heq => hsource ((hc.source_eq_null e).mpr heq)
            simp [State.openCalls, State.frames, hpushed, hflag,
              CallStackFrame.new, htarget]
  | pass hvisiting hset hcall =>
      exact absurd (discoverVertex_ok hcall) (by decide)
  | skip hvisiting hei hcall =>
      exact hother _ _ _ hvisiting hei
        (FunctionCFGVisitor.examineEdge_sameCalls h hcall).callStack
  | count hvisiting hei hcall hr hid hmap =>
      exact hother _ _ _ hvisiting hei
        (FunctionCFGVisitor.examineEdge_sameCalls h hcall).callStack
  | push hvisiting hei hcall hr hid hmap htree =>
      have hsame := (FunctionCFGVisitor.examineEdge_sameCalls h hcall).callStack
      have hvisitor := congrArg Prod.snd (Except.ok.inj htree)
      dsimp only at hvisitor
      rw [hvisitor] at hsame
      exact hother _ _ _ hvisiting hei hsame
  | @complete x visitor hvisiting hei hcall =>
      have hcompletes :=
        FunctionCFGVisitor.vertexVisitComplete_completes h o _ hcall
      have hu : s.completing = some x.u := by
        simp [State.completing, hstop, hvisiting, hei]
      have hpushed : ∀ t, pushedBy h s t = [] := by
        intro t
        simp [pushedBy, State.discovering, hvisiting]
      rw [hpushed]
      unfold poppedBy
      simp only [hu]
      by_cases hexit : (h.vertex x.u).statement = .exit
      · obtain ⟨y, g, hframes, hy, _⟩ := hs.pop (hcompletes.pops hexit).1
        change s.visitor.callStack.callStack = _ at hframes
        simp [State.openCalls, hframes, hexit, hy, State.frames]
      · have hsame := (hcompletes.same hexit).callStack
        simp [State.openCalls, State.frames, hsame, hexit]
  | fault hstop' => exact absurd ht hstop'

end

end PrintControlFlowGraph

end CoFlo.Ports
