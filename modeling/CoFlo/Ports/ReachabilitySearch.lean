import CoFlo.Ports.LinkedProgram
import CoFlo.Ports.RuleReachability
import CoFlo.Verified.ContextSearch

/-!
# The traversal of `ReachabilityVisitor` is a search with a call stack

Until the visitor finds what it looks for, the traversal takes the steps of
`Verified.ContextSearch`: `SkipEdge` and `examine_edge` together let an edge
through or not, and the list of the visitor is the path of the search behind
the edge that was put in front (`Simulates`).  No step goes wrong: the frame
at the bottom of the call stack has no call, so no `Return` edge pops it, and
the list is empty only when the stack of the search is.
-/

namespace CoFlo.Ports

open CoFlo.Verified CoFlo.Verified.StepMachine
open CoFlo.Verified.ContextSearch (Kind Frame Step Aligned Grounded Discovered
  framesFor isWhite paint tip)
open CoFlo.Verified.DepthFirstSearch (Color)

namespace ReachabilityVisitor

/-- What an edge is to `SkipEdge` and `examine_edge`. -/
def kind (h : Heap) (e : EdgePtr) : Kind VertexPtr :=
  if (h.edge e).isBackEdge then .closed
  else
    match (h.edge e).edgeType with
    | .functionCall functionCall _ => .call functionCall
    | .returnEdge functionCall => .ret functionCall
    | .impossible | .functionCallBypass => .closed
    | _ => .plain

/-- The edges of the program, in the order in which they are walked. -/
def flow (h : Heap) (o : SetOrder) : ContextSearch.Incidence VertexPtr EdgePtr where
  out := h.outEdgeList o
  target e := (h.edge e).target
  kind := kind h

/-- A frame of the call stack; only the frame at the bottom is pushed without
a call. -/
def contextFrame (f : CallStackFrame) : Frame VertexPtr :=
  ⟨if f.functionCallWhichPushedThisFrame = null then none
    else some f.functionCallWhichPushedThisFrame, f.colorMap.color⟩

def contextItem (i : VertexInfo) : VertexPtr × List EdgePtr :=
  (i.vertex, i.outEdges)

/-- A state of the traversal in which nothing has been found, and the state of
the search; `fake` is the edge in front of the path. -/
structure Simulates (fake : EdgePtr) (s : State)
    (a : ContextSearch.State VertexPtr EdgePtr) : Prop where
  frames : s.callStack.callStack.map contextFrame = a.frames
  stack : s.dfsStack.map contextItem = a.stack
  visitor : s.visitor = if a.stack = [] then [] else fake :: a.path.reverse
  stop : s.stop = none

/-! ## The frames -/

theorem mem_outEdgeList {h : Heap} (hc : h.Consistent) {o : SetOrder}
    {u : VertexPtr} {e : EdgePtr} :
    e ∈ h.outEdgeList o u ↔ (h.edge e).source = u ∧ u ≠ null := by
  unfold Heap.outEdgeList
  rw [o.mem_enum, hc.mem_outEdges]

theorem contextFrame_new {c : VertexPtr} (hc : c ≠ null) (g : GraphPtr) :
    contextFrame (.new c g) = ⟨some c, fun _ => .white⟩ := by
  show Frame.mk (if c = null then none else some c) _ = _
  rw [if_neg hc]
  rfl

/-- Looking a color up does not change the map. -/
theorem contextFrame_get (f : CallStackFrame) (v : VertexPtr) :
    contextFrame { f with colorMap := (f.colorMap.get v).2 } = contextFrame f := by
  have hcolor : (f.colorMap.get v).2.color = f.colorMap.color :=
    funext fun w => ColorMap.color_get _ _ _
  simp only [contextFrame, hcolor]

theorem contextFrame_put (f : CallStackFrame) (m : ColorMap) (v : VertexPtr)
    (c : Color) (hm : m.color = f.colorMap.color) :
    contextFrame { f with colorMap := m.put v c } =
      ⟨(contextFrame f).call,
        Function.update (contextFrame f).color v c⟩ := by
  have hcolor : (m.put v c).color = Function.update f.colorMap.color v c := by
    funext w
    rw [ColorMap.color_put, Function.update_apply, hm]
  simp only [contextFrame, hcolor]

theorem contextFrame_call_eq_some {f : CallStackFrame} {c : VertexPtr}
    (hc : c ≠ null) : (contextFrame f).call = some c ↔
      f.functionCallWhichPushedThisFrame = c := by
  unfold contextFrame
  dsimp only
  split_ifs with hnull
  · rw [hnull]
    exact ⟨fun h => absurd h (by simp), fun h => absurd h.symm hc⟩
  · exact Option.some_inj

/-! ## One step -/

section step

variable {functions : List FunctionPtr} {home : VertexPtr → FunctionPtr}
  {h : Heap} (hp : ProgramFlow functions home h) {o : SetOrder}
  {inspectVertex : VertexPtr → Bool} {fake : EdgePtr} {s : State}
  {a : ContextSearch.State VertexPtr EdgePtr} {r : VertexPtr}

theorem simulates_finish (hs : Simulates fake s a) (haligned : Aligned (flow h o) r a)
    (hgrounded : Grounded a.frames) {u : VertexPtr} {rest : List VertexInfo}
    (hstack : s.dfsStack = ⟨u, []⟩ :: rest) :
    Simulates fake
      (ControlFlowGraphTraversalDFS.finish (visitor h inspectVertex) u rest s)
      ⟨paint u .black a.frames, rest.map contextItem, a.path.tail⟩ := by
  have hstack' : a.stack = (u, []) :: rest.map contextItem := by
    rw [← hs.stack, hstack]
    rfl
  have hframes := hs.frames
  cases hcall : s.callStack.callStack with
  | nil =>
      rw [hcall] at hframes
      rw [← hframes] at hgrounded
      exact absurd hgrounded (by simp [Grounded])
  | cons top frames =>
      rw [hcall, List.map_cons] at hframes
      have hvisitor := hs.visitor
      rw [hstack', if_neg (List.cons_ne_nil _ _)] at hvisitor
      unfold ControlFlowGraphTraversalDFS.finish
      simp only [hcall, ControlFlowGraphTraversalDFS.visit, visitor,
        finishVertex,
        ControlFlowGraphTraversalDFS.setColorMap, hvisitor,
        List.cons_ne_nil, if_false]
      refine ⟨?_, rfl, ?_, hs.stop⟩
      · show (contextFrame _ :: frames.map contextFrame) = _
        rw [contextFrame_put top top.colorMap u .black rfl, ← hframes]
        rfl
      · have hthread : ContextSearch.Threaded (flow h o) r
            ((u, []) :: rest.map contextItem) a.path := by
          rcases haligned with ⟨hnil, _⟩ | hthread
          · rw [hstack'] at hnil
            exact absurd hnil (List.cons_ne_nil _ _)
          · rw [← hstack']
            exact hthread
        have hlength := hthread.length_eq
        rw [List.length_cons] at hlength
        cases hpath : a.path with
        | nil =>
            rw [hpath] at hlength
            have hrest : rest.map contextItem = [] :=
              List.eq_nil_of_length_eq_zero (by simpa using hlength)
            rw [if_pos hrest]
            rfl
        | cons e path =>
            rw [hpath] at hlength
            have hrest : rest.map contextItem ≠ [] := by
              intro hnil
              rw [hnil] at hlength
              exact absurd hlength (by simp)
            rw [if_neg hrest, List.reverse_cons, List.tail_cons,
              ← List.cons_append, List.dropLast_concat]

/-- An edge that is passed over. -/
theorem simulates_advance (hs : Simulates fake s a) {u : VertexPtr}
    {e : EdgePtr} {ei : List EdgePtr} {rest : List VertexInfo}
    (hstack : s.dfsStack = ⟨u, e :: ei⟩ :: rest) :
    Simulates fake { s with dfsStack := ⟨u, ei⟩ :: rest }
      ⟨a.frames, (u, ei) :: rest.map contextItem, a.path⟩ where
  frames := hs.frames
  stack := rfl
  visitor := by
    have hvisitor := hs.visitor
    rw [← hs.stack, hstack, if_neg (by simp)] at hvisitor
    rw [hvisitor, if_neg (List.cons_ne_nil _ _)]
  stop := hs.stop

include hp

/-- An edge the search does not framesFor is passed over. -/
theorem examine_of_framesFor_eq_none (hs : Simulates fake s a)
    (hgrounded : Grounded a.frames) {u : VertexPtr} {e : EdgePtr}
    {ei : List EdgePtr} {rest : List VertexInfo}
    (hsource : (h.edge e).source ≠ null)
    (hpass : framesFor a.frames (kind h e) = none) :
    ControlFlowGraphTraversalDFS.examine (visitor h inspectVertex) h o u e ei rest s =
      { s with dfsStack := ⟨u, ei⟩ :: rest } := by
  unfold ControlFlowGraphTraversalDFS.examine
    ControlFlowGraphTraversalDFS.skipEdge
  unfold kind at hpass
  by_cases hback : (h.edge e).isBackEdge = true
  · simp only [hback, if_true]
  · rw [if_neg hback] at hpass
    simp only [hback, Bool.false_eq_true, if_false]
    cases htype : (h.edge e).edgeType with
    | returnEdge c =>
        rw [htype] at hpass
        have hc := hp.returnEdge e c hsource htype
        have hc0 := (hp.allocated c hc.1).1
        have hframes := hs.frames
        cases hcall : s.callStack.callStack with
        | nil =>
            rw [hcall] at hframes
            rw [← hframes] at hgrounded
            exact absurd hgrounded (by simp [Grounded])
        | cons top frames =>
            rw [hcall, List.map_cons] at hframes
            rw [← hframes] at hpass
            have hne : c ≠ top.functionCallWhichPushedThisFrame := by
              intro heq
              simp [framesFor, contextFrame_call_eq_some hc0, heq.symm] at hpass
            simp [DFSCallStack.topCallStack, hcall, bind, Except.bind, pure,
              Except.pure, hne]
    | functionCallBypass => rfl
    | impossible =>
        simp [ControlFlowGraphTraversalDFS.visit, visitor,
          examineEdge,
          Callback.ok, htype, EdgeType.isImpossible]
    | _ =>
        rw [htype] at hpass
        simp [framesFor] at hpass

/-- An edge the search lets through is followed, with the frames of the
search. -/
theorem examine_of_framesFor (o : SetOrder) (inspectVertex : VertexPtr → Bool) (u : VertexPtr)
    {e : EdgePtr} (ei : List EdgePtr) (rest : List VertexInfo)
    (hs : Simulates fake s a)
    (hsource : (h.edge e).source ≠ null) {frames : List (Frame VertexPtr)}
    (hpass : framesFor a.frames (kind h e) = some frames) :
    ∃ callStack, callStack.callStack.map contextFrame = frames ∧
      ControlFlowGraphTraversalDFS.examine (visitor h inspectVertex) h o u e ei rest s =
        ControlFlowGraphTraversalDFS.follow (visitor h inspectVertex) h o u e ei rest
          { s with callStack := callStack } := by
  unfold ControlFlowGraphTraversalDFS.examine
    ControlFlowGraphTraversalDFS.skipEdge
  unfold kind at hpass
  by_cases hback : (h.edge e).isBackEdge = true
  · rw [if_pos hback] at hpass
    exact absurd hpass (by simp [framesFor])
  · rw [if_neg hback] at hpass
    simp only [hback, Bool.false_eq_true, if_false]
    cases htype : (h.edge e).edgeType with
    | returnEdge c =>
        rw [htype] at hpass
        have hc := hp.returnEdge e c hsource htype
        have hc0 := (hp.allocated c hc.1).1
        have hframes := hs.frames
        cases hcall : s.callStack.callStack with
        | nil =>
            rw [hcall] at hframes
            rw [← hframes] at hpass
            exact absurd hpass (by simp [framesFor])
        | cons top stack =>
            rw [hcall, List.map_cons] at hframes
            rw [← hframes] at hpass
            simp only [framesFor, Option.ite_none_right_eq_some,
              Option.some.injEq] at hpass
            have htop : top.functionCallWhichPushedThisFrame = c :=
              (contextFrame_call_eq_some hc0).mp hpass.1
            refine ⟨⟨stack, s.callStack.callSet.erase
              ((h.vertex c).statement.calledFunction.getD null)⟩, hpass.2, ?_⟩
            simp [DFSCallStack.topCallStack, DFSCallStack.popCallStack, hcall,
              bind, Except.bind, pure, Except.pure, htop, hc0,
              ControlFlowGraphTraversalDFS.visit, visitor,
              examineEdge,
              Callback.ok, htype, EdgeType.isImpossible, hback,
              ControlFlowGraphTraversalDFS.enterCall]
    | functionCall c g =>
        rw [htype] at hpass
        have hc := hp.callEdge e c g hsource htype
        have hc0 : c ≠ null := hc.1 ▸ hsource
        refine ⟨s.callStack.pushCallStack (.new c g), ?_, ?_⟩
        · rw [← Option.some.inj hpass, ← hs.frames, ← contextFrame_new hc0 g]
          rfl
        · simp [ControlFlowGraphTraversalDFS.visit, visitor,
            examineEdge,
            Callback.ok, htype, EdgeType.isImpossible, hback,
            ControlFlowGraphTraversalDFS.enterCall]
    | impossible | functionCallBypass =>
        rw [htype] at hpass
        exact absurd hpass (by simp [framesFor])
    | _ =>
        rw [htype] at hpass
        refine ⟨s.callStack, hs.frames.trans (Option.some.inj hpass), ?_⟩
        simp [ControlFlowGraphTraversalDFS.visit, visitor,
          examineEdge,
          Callback.ok, htype, EdgeType.isImpossible, hback,
          ControlFlowGraphTraversalDFS.enterCall]

omit hp in
/-- The search is over when a vertex like the one looked for is discovered. -/
theorem follow_found (hs : Simulates fake s a) {u : VertexPtr} {e : EdgePtr}
    {ei : List EdgePtr} {rest : List VertexInfo}
    (hstack : s.dfsStack = ⟨u, e :: ei⟩ :: rest) {callStack : DFSCallStack}
    {frames : List (Frame VertexPtr)}
    (hframes : callStack.callStack.map contextFrame = frames)
    (hwhite : isWhite (h.edge e).target frames = true)
    (hfound : inspectVertex (h.edge e).target = true) :
    ∃ t : State, ControlFlowGraphTraversalDFS.follow (visitor h inspectVertex) h o u e ei
        rest { s with callStack := callStack } = t ∧
      t.stop = some .returned ∧ t.visitor = fake :: (e :: a.path).reverse := by
  refine ⟨_, rfl, ?_⟩
  have hvisitor := hs.visitor
  rw [← hs.stack, hstack, if_neg (by simp)] at hvisitor
  cases hcall : callStack.callStack with
  | nil =>
      rw [← hframes, hcall] at hwhite
      exact absurd hwhite (by simp [isWhite])
  | cons top stack =>
      have hcolor : top.colorMap.color (h.edge e).target = .white := by
        rw [← hframes, hcall, List.map_cons] at hwhite
        exact of_decide_eq_true hwhite
      unfold ControlFlowGraphTraversalDFS.follow
      simp [hcall, hcolor, ControlFlowGraphTraversalDFS.visit, visitor,
        treeEdge,
        discoverVertex, Callback.ok, hfound, hvisitor,
        ControlFlowGraphTraversalDFS.setColorMap]

omit hp in
/-- Another vertex is put on the stack. -/
theorem simulates_follow_tree (hs : Simulates fake s a) {u : VertexPtr}
    {e : EdgePtr} {ei : List EdgePtr} {rest : List VertexInfo}
    (hstack : s.dfsStack = ⟨u, e :: ei⟩ :: rest) {callStack : DFSCallStack}
    {frames : List (Frame VertexPtr)}
    (hframes : callStack.callStack.map contextFrame = frames)
    (hwhite : isWhite (h.edge e).target frames = true)
    (hfound : inspectVertex (h.edge e).target = false) :
    Simulates fake
      (ControlFlowGraphTraversalDFS.follow (visitor h inspectVertex) h o u e ei rest
        { s with callStack := callStack })
      ⟨paint (h.edge e).target .gray frames,
        ((h.edge e).target, h.outEdgeList o (h.edge e).target) ::
          (u, ei) :: rest.map contextItem, e :: a.path⟩ := by
  have hvisitor := hs.visitor
  rw [← hs.stack, hstack, if_neg (by simp)] at hvisitor
  cases hcall : callStack.callStack with
  | nil =>
      rw [← hframes, hcall] at hwhite
      exact absurd hwhite (by simp [isWhite])
  | cons top stack =>
      have hcolor : top.colorMap.color (h.edge e).target = .white := by
        rw [← hframes, hcall, List.map_cons] at hwhite
        exact of_decide_eq_true hwhite
      unfold ControlFlowGraphTraversalDFS.follow
      simp only [hcall, ColorMap.get_fst, hcolor,
        ControlFlowGraphTraversalDFS.visit, visitor,
        treeEdge,
        discoverVertex, Callback.ok, hfound,
        Bool.false_eq_true, if_false,
        ControlFlowGraphTraversalDFS.setColorMap]
      refine ⟨?_, rfl, ?_, hs.stop⟩
      · show (contextFrame _ :: stack.map contextFrame) = _
        rw [contextFrame_put top _ _ .gray
          (funext fun w => ColorMap.color_get _ _ _), ← hframes, hcall]
        rfl
      · rw [if_neg (List.cons_ne_nil _ _), hvisitor, List.reverse_cons,
          List.cons_append]

omit hp in
/-- The end of the edge has been discovered before. -/
theorem simulates_follow_cross (hs : Simulates fake s a) {u : VertexPtr}
    {e : EdgePtr} {ei : List EdgePtr} {rest : List VertexInfo}
    (hstack : s.dfsStack = ⟨u, e :: ei⟩ :: rest) {callStack : DFSCallStack}
    {frames : List (Frame VertexPtr)}
    (hframes : callStack.callStack.map contextFrame = frames)
    (hgrounded : Grounded frames)
    (hwhite : isWhite (h.edge e).target frames = false) :
    Simulates fake
      (ControlFlowGraphTraversalDFS.follow (visitor h inspectVertex) h o u e ei rest
        { s with callStack := callStack })
      ⟨frames, (u, ei) :: rest.map contextItem, a.path⟩ := by
  have hvisitor := hs.visitor
  rw [← hs.stack, hstack, if_neg (by simp)] at hvisitor
  cases hcall : callStack.callStack with
  | nil =>
      rw [← hframes, hcall] at hgrounded
      exact absurd hgrounded (by simp [Grounded])
  | cons top stack =>
      have hframes' : contextFrame { top with
          colorMap := (top.colorMap.get (h.edge e).target).2 } ::
            stack.map contextFrame = frames := by
        rw [contextFrame_get, ← hframes, hcall, List.map_cons]
      unfold ControlFlowGraphTraversalDFS.follow
      cases hcolor : top.colorMap.color (h.edge e).target with
      | white =>
          rw [← hframes, hcall, List.map_cons] at hwhite
          exact absurd hcolor (of_decide_eq_false hwhite)
      | gray | black =>
          simp only [hcall, ColorMap.get_fst, hcolor,
            ControlFlowGraphTraversalDFS.visit, visitor,
            ReachabilityVisitor.visitor, DfsVisitor.base, Callback.ok,
            ControlFlowGraphTraversalDFS.setColorMap]
          refine ⟨hframes', rfl, ?_, hs.stop⟩
          rw [if_neg (List.cons_ne_nil _ _), hvisitor]

/-- The search has come to what the visitor looks for. -/
structure Found (h : Heap) (o : SetOrder) (inspectVertex : VertexPtr → Bool) (fake : EdgePtr)
    (r : VertexPtr) (t : State) (b : ContextSearch.State VertexPtr EdgePtr) :
    Prop where
  stop : t.stop = some .returned
  visitor : t.visitor = fake :: b.path.reverse
  ne_nil : b.path ≠ []
  tip : inspectVertex (tip (flow h o) r b.path) = true
  stack : b.stack ≠ []

/-- The traversal takes the steps of the search until the visitor ends it. -/
theorem step_simulates (hs : Simulates fake s a)
    (haligned : Aligned (flow h o) r a) (hgrounded : Grounded a.frames) {t : State}
    (hstep : step h o inspectVertex s = some t) :
    ∃ b, Step (flow h o) a b ∧
      (Simulates fake t b ∧
          ((∀ i ∈ a.stack, inspectVertex i.1 = false) →
            ∀ i ∈ b.stack, inspectVertex i.1 = false) ∨
        Found h o inspectVertex fake r t b) := by
  unfold step ControlFlowGraphTraversalDFS.step at hstep
  rw [hs.stop, Option.isSome_none, if_neg (by decide)] at hstep
  split at hstep
  · exact absurd hstep (by simp)
  · rename_i u rest hstack
    have hstack' : a.stack = (u, []) :: rest.map contextItem := by
      rw [← hs.stack, hstack]
      rfl
    rw [← Option.some.inj hstep]
    refine ⟨_, .finish hstack', .inl ⟨simulates_finish hs haligned hgrounded
      hstack, fun havoids i hi => ?_⟩⟩
    rw [hstack'] at havoids
    exact havoids i (List.mem_cons_of_mem _ hi)
  · rename_i u e ei rest hstack
    have hstack' : a.stack = (u, e :: ei) :: rest.map contextItem := by
      rw [← hs.stack, hstack]
      rfl
    have hmem : e ∈ h.outEdgeList o u := by
      rcases haligned with ⟨hnil, _⟩ | hthread
      · rw [hstack'] at hnil
        exact absurd hnil (List.cons_ne_nil _ _)
      · rw [hstack'] at hthread
        exact hthread.top.2.subset List.mem_cons_self
    obtain ⟨hsource, hu⟩ := (mem_outEdgeList hp.consistent).mp hmem
    have havoids : (∀ i ∈ a.stack, inspectVertex i.1 = false) →
        ∀ i ∈ (u, ei) :: rest.map contextItem,
          inspectVertex i.1 = false := by
      intro hall i hi
      rw [hstack'] at hall
      rcases List.mem_cons.mp hi with rfl | hi
      · exact hall (u, e :: ei) List.mem_cons_self
      · exact hall i (List.mem_cons_of_mem _ hi)
    rw [← Option.some.inj hstep]
    cases hpass : framesFor a.frames (kind h e) with
    | none =>
        rw [examine_of_framesFor_eq_none hp hs hgrounded (hsource ▸ hu) hpass]
        exact ⟨_, .skip hstack' hpass,
          .inl ⟨simulates_advance hs hstack, havoids⟩⟩
    | some frames =>
        obtain ⟨callStack, hframes, hexamine⟩ :=
          examine_of_framesFor hp o inspectVertex u ei rest hs (hsource ▸ hu) hpass
        rw [hexamine]
        by_cases hwhite : isWhite (h.edge e).target frames = true
        · refine ⟨_, .tree hstack' hpass hwhite, ?_⟩
          by_cases hfound : inspectVertex (h.edge e).target = true
          · obtain ⟨t, ht, hstop, hvisitor⟩ := follow_found (o := o) hs hstack
              hframes hwhite hfound
            rw [ht]
            exact .inr ⟨hstop, hvisitor, List.cons_ne_nil _ _, hfound,
              List.cons_ne_nil _ _⟩
          · rw [Bool.not_eq_true] at hfound
            refine .inl ⟨simulates_follow_tree hs hstack hframes hwhite hfound,
              fun hall i hi => ?_⟩
            rcases List.mem_cons.mp hi with rfl | hi
            · exact hfound
            · exact havoids hall i hi
        · rw [Bool.not_eq_true] at hwhite
          exact ⟨_, .cross hstack' hpass hwhite, .inl
            ⟨simulates_follow_cross hs hstack hframes
              (ContextSearch.grounded_framesFor hgrounded hpass) hwhite,
              havoids⟩⟩

end step

/-! ## The run -/

/-- The search of the traversal.  From a source that is looked for itself no
edge is followed. -/
def searchStart (h : Heap) (o : SetOrder) (source : FunctionPtr)
    (inspectVertex : VertexPtr → Bool) :
    ContextSearch.State VertexPtr EdgePtr :=
  { ContextSearch.init (flow h o) (h.function source).entryVertexDesc with
    stack := [((h.function source).entryVertexDesc,
      if inspectVertex (h.function source).entryVertexDesc then []
      else h.outEdgeList o (h.function source).entryVertexDesc)] }

theorem searchStart_of_eq_false {h : Heap} {o : SetOrder} {source : FunctionPtr}
    {inspectVertex : VertexPtr → Bool}
    (hsource : inspectVertex (h.function source).entryVertexDesc = false) :
    searchStart h o source inspectVertex =
      ContextSearch.init (flow h o) (h.function source).entryVertexDesc := by
  unfold searchStart
  rw [hsource]
  rfl

/-- What a run has come to: the search goes on or has ended without finding
anything, or the visitor has found what it looks for. -/
inductive SearchState (h : Heap) (o : SetOrder) (source : FunctionPtr)
    (inspectVertex : VertexPtr → Bool) (t : State) : Prop where
  | searching (a : ContextSearch.State VertexPtr EdgePtr)
      (reaches : Reaches (ContextSearch.step (flow h o))
        (searchStart h o source inspectVertex) a)
      (simulates : Simulates (h.function source).entryVertexSelfEdge t a)
      (aligned : Aligned (flow h o) (h.function source).entryVertexDesc a)
      (grounded : Grounded a.frames)
  | found (b : ContextSearch.State VertexPtr EdgePtr)
      (reaches : Reaches (ContextSearch.step (flow h o))
        (searchStart h o source inspectVertex) b)
      (aligned : Aligned (flow h o) (h.function source).entryVertexDesc b)
      (found : Found h o inspectVertex (h.function source).entryVertexSelfEdge
        (h.function source).entryVertexDesc t b)

section run

variable {functions : List FunctionPtr} {home : VertexPtr → FunctionPtr}
  {h : Heap} (hp : ProgramFlow functions home h) {o : SetOrder}
  {inspectVertex : VertexPtr → Bool} {source : FunctionPtr}
  (hsource : source ∈ functions)
  (howner : (h.vertex (h.function source).entryVertexDesc).owningFunction =
    source)

include hp hsource howner

theorem simulates_start :
    Simulates (h.function source).entryVertexSelfEdge (start h o inspectVertex source)
      (searchStart h o source inspectVertex) := by
  have hne : source ≠ null := fun heq => hp.null_notMem (heq ▸ hsource)
  have hstart : start h o inspectVertex source =
      ⟨⟨[ControlFlowGraphTraversalDFS.startFrame h
          (h.function source).entryVertexDesc], ∅⟩,
        [⟨(h.function source).entryVertexDesc,
          if inspectVertex (h.function source).entryVertexDesc then []
          else h.outEdgeList o (h.function source).entryVertexDesc⟩],
        [(h.function source).entryVertexSelfEdge], none⟩ := by
    unfold start ControlFlowGraphTraversalDFS.start
    cases hpred : inspectVertex (h.function source).entryVertexDesc <;>
      simp [howner, hne, ControlFlowGraphTraversalDFS.visit, visitor,
        discoverVertex, Callback.ok, hpred]
  rw [hstart]
  refine ⟨?_, rfl, rfl, rfl⟩
  show [contextFrame (ControlFlowGraphTraversalDFS.startFrame h _)] = _
  unfold ControlFlowGraphTraversalDFS.startFrame CallStackFrame.putColor
  rw [contextFrame_put _ _ _ .gray rfl]
  rfl

theorem searchState_start :
    SearchState h o source inspectVertex (start h o inspectVertex source) := by
  refine .searching (searchStart h o source inspectVertex) .refl
    (simulates_start hp hsource howner) ?_ rfl
  refine .inr (.root ?_)
  split_ifs
  · exact List.nil_suffix
  · exact List.suffix_rfl

/-- Nothing goes wrong in a run. -/
theorem searchState_of_reaches {t : State}
    (ht : Reaches (step h o inspectVertex) (start h o inspectVertex source) t) :
    SearchState h o source inspectVertex t := by
  refine ht.invariant ?_ (searchState_start hp hsource howner)
  intro t u hstate hstep
  cases hstate with
  | searching a hreach hsim haligned hgrounded =>
      obtain ⟨b, hb, hcase⟩ := step_simulates hp hsim haligned hgrounded hstep
      have hreach' := Reaches.tail hreach hb.step_eq
      rcases hcase with ⟨hsim', _⟩ | hfound
      · exact .searching b hreach' hsim' (haligned.preserved hb)
          (ContextSearch.grounded_preserved hgrounded hb)
      · exact .found b hreach' (haligned.preserved hb) hfound
  | found b _ _ hfound =>
      unfold step ControlFlowGraphTraversalDFS.step at hstep
      rw [hfound.stop] at hstep
      exact absurd hstep (by simp)

omit hp hsource howner in
/-- The traversal ends with an empty stack, or it has been stopped. -/
theorem stack_eq_nil_of_step_eq_none {t : State}
    {a : ContextSearch.State VertexPtr EdgePtr} {fake : EdgePtr}
    (hs : Simulates fake t a) (hend : step h o inspectVertex t = none) : a.stack = [] := by
  unfold step ControlFlowGraphTraversalDFS.step at hend
  rw [hs.stop, Option.isSome_none, if_neg (by decide)] at hend
  rw [← hs.stack]
  split at hend
  · rename_i hnil
    rw [hnil]
    rfl
  · exact absurd hend (by simp)
  · exact absurd hend (by simp)

end run

end ReachabilityVisitor

end CoFlo.Ports
