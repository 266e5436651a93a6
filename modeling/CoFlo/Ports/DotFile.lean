import CoFlo.Ports.MatchedCalls
import CoFlo.Ports.WriteGraphvizDotFileVisitor
import CoFlo.Verified.SearchTrace

/-!
# What is in a dot file

The visit of `PrintControlFlowGraphDot` is a depth-first search of the edges
the visitor does not ignore: step for step, but for the rounds in which it
ignores an edge.  The lines are read off the trace of that search
(`Renders`), which accounts for every vertex and every edge.
-/

namespace CoFlo.Ports

open CoFlo.Verified CoFlo.Verified.StepMachine
open CoFlo.Verified.DepthFirstSearch (Color Event)
open Relation (ReflTransGen)

/-- An edge of the drawing: no `FunctionCall` or `Return` edge, none into an
ENTRY and none out of an EXIT. -/
structure Heap.IsDrawn (h : Heap) (e : EdgePtr) : Prop where
  notCall : (h.edge e).edgeType.isFunctionCall = false
  notReturn : (h.edge e).edgeType.isReturn = false
  target : (h.vertex (h.edge e).target).statement ≠ .entry
  source : (h.vertex (h.edge e).source).statement ≠ .exit

/-- Along an edge of the drawing. -/
def Heap.DrawnStep (h : Heap) (u v : VertexPtr) : Prop :=
  ∃ e ∈ (h.vertex u).outEdges, h.IsDrawn e ∧ (h.edge e).target = v

namespace WriteGraphvizDotFileVisitor

theorem ignores_eq_false_iff {h : Heap} {e : EdgePtr} :
    ignores h e = false ↔ h.IsDrawn e := by
  unfold ignores
  simp only [Bool.or_eq_false_iff, decide_eq_false_iff_not]
  constructor
  · rintro ⟨⟨⟨hcall, hreturn⟩, htarget⟩, hsource⟩
    exact ⟨hcall, hreturn, htarget, hsource⟩
  · rintro ⟨hcall, hreturn, htarget, hsource⟩
    exact ⟨⟨⟨hcall, hreturn⟩, htarget⟩, hsource⟩

end WriteGraphvizDotFileVisitor

namespace PrintControlFlowGraphDot

open WriteGraphvizDotFileVisitor

variable (h : Heap) (o : SetOrder)

/-- All edges, in the order in which they are walked. -/
def walked : DepthFirstSearch.Incidence VertexPtr EdgePtr where
  out := h.outEdgeList o
  target e := (h.edge e).target

/-- The edges of the drawing. -/
def drawing : DepthFirstSearch.Incidence VertexPtr EdgePtr where
  out u := (h.outEdgeList o u).filter fun e => !ignores h e
  target e := (h.edge e).target

theorem mem_drawing_out {u : VertexPtr} {e : EdgePtr} :
    e ∈ (drawing h o).out u ↔ e ∈ (h.vertex u).outEdges ∧ h.IsDrawn e := by
  unfold drawing Heap.outEdgeList
  rw [List.mem_filter, SetOrder.mem_enum, Bool.not_eq_true',
    ignores_eq_false_iff]

theorem drawing_proper {h : Heap} (hc : h.Consistent) :
    (drawing h o).Proper where
  nodup u := (o.nodup_enum _).filter _
  source_unique u v e hu hv := by
    rw [mem_drawing_out, hc.mem_outEdges] at hu hv
    rw [← hu.1.1, hv.1.1]

/-- The lines an event of the search stands for. -/
def eventLines : Event VertexPtr EdgePtr → List DotLine
  | .treeEdge e => [edgeLine h e, nodeLine h (h.edge e).target]
  | .backEdge e | .forwardOrCrossEdge e => [edgeLine h e]
  | .finishVertex _ => []

/-! ## The steps -/

section steps

variable {h o} {s : State} {u : VertexPtr} {e : EdgePtr} {ei : List EdgePtr}
  {rest : List VertexInfo} {m : ImprovedDepthFirstVisit.ColorMap}

theorem step_ignored (hstop : s.stop = none)
    (hstack : s.dfsStack = ⟨u, e :: ei⟩ :: rest) (hignores : ignores h e = true) :
    step h o s = some { s with dfsStack := ⟨u, ei⟩ :: rest } := by
  unfold step ImprovedDepthFirstVisit.step
  simp only [hstop, hstack, Option.isSome_none, Bool.false_eq_true, if_false]
  simp [ImprovedDepthFirstVisit.examine, ImprovedDepthFirstVisit.visit, visitor,
    examineEdge, hignores, hstop]

/-- A drawn edge is followed. -/
theorem step_drawn (hstop : s.stop = none)
    (hstack : s.dfsStack = ⟨u, e :: ei⟩ :: rest)
    (hignores : ignores h e = false) :
    step h o s = some (ImprovedDepthFirstVisit.follow (visitor h) h o u e ei rest
      s) := by
  unfold step ImprovedDepthFirstVisit.step
  simp only [hstop, hstack, Option.isSome_none, Bool.false_eq_true, if_false]
  simp [ImprovedDepthFirstVisit.examine, ImprovedDepthFirstVisit.visit, visitor,
    examineEdge, hignores, ImprovedDepthFirstVisit.State.changeColorContext]

theorem follow_tree (hstop : s.stop = none) (hmaps : s.colorMapStack = [m])
    (hcolor : (m (h.edge e).target).getD .white = .white) :
    ImprovedDepthFirstVisit.follow (visitor h) h o u e ei rest s =
      ⟨[Function.update m (h.edge e).target (some .gray)],
        ⟨(h.edge e).target, h.outEdgeList o (h.edge e).target⟩ :: ⟨u, ei⟩ :: rest,
        s.visitor ++ [edgeLine h e, nodeLine h (h.edge e).target], none⟩ := by
  have hmap : m (h.edge e).target = none ∨
      m (h.edge e).target = some .white := by
    cases hm : m (h.edge e).target with
    | none => exact .inl rfl
    | some c =>
        rw [hm] at hcolor
        exact .inr (congrArg some hcolor)
  unfold ImprovedDepthFirstVisit.follow
  rcases hmap with hmap | hmap <;>
    simp [hmaps, hmap, ImprovedDepthFirstVisit.visit, visitor, streamOutEdge,
      ImprovedDepthFirstVisit.discover, hstop, discoverVertex,
      ImprovedDepthFirstVisit.State.changeColorContext,
      ImprovedDepthFirstVisit.State.putColor, Function.update_idem]

theorem follow_back (hstop : s.stop = none) (hmaps : s.colorMapStack = [m])
    (hcolor : m (h.edge e).target = some .gray) :
    ImprovedDepthFirstVisit.follow (visitor h) h o u e ei rest s =
      ⟨[m], ⟨u, ei⟩ :: rest, s.visitor ++ [edgeLine h e], none⟩ := by
  unfold ImprovedDepthFirstVisit.follow
  simp [hmaps, hcolor, ImprovedDepthFirstVisit.visit, visitor, streamOutEdge,
    hstop]

theorem follow_forwardOrCross (hstop : s.stop = none)
    (hmaps : s.colorMapStack = [m])
    (hcolor : m (h.edge e).target = some .black) :
    ImprovedDepthFirstVisit.follow (visitor h) h o u e ei rest s =
      ⟨[m], ⟨u, ei⟩ :: rest, s.visitor ++ [edgeLine h e], none⟩ := by
  unfold ImprovedDepthFirstVisit.follow
  simp [hmaps, hcolor, ImprovedDepthFirstVisit.visit, visitor, streamOutEdge,
    hstop]

theorem step_finish (hstop : s.stop = none) (hmaps : s.colorMapStack = [m])
    (hstack : s.dfsStack = ⟨u, []⟩ :: rest) :
    step h o s =
      some ⟨[Function.update m u (some .black)], rest, s.visitor, none⟩ := by
  unfold step ImprovedDepthFirstVisit.step
  simp only [hstop, hstack, Option.isSome_none, Bool.false_eq_true, if_false]
  simp [ImprovedDepthFirstVisit.finish, ImprovedDepthFirstVisit.State.putColor,
    hmaps, hstop, ImprovedDepthFirstVisit.visit, visitor, DfsVisitor.base,
    Callback.ok]

end steps

/-! ## The search behind the visit -/

/-- The color of a vertex. -/
def colorOf (s : State) (v : VertexPtr) : Color :=
  ((s.colorMapStack.headD fun _ => none) v).getD .white

/-- The lines of the whole visit, read off the trace of the search. -/
def traceLines (name : String) (entry : VertexPtr)
    (a : DepthFirstSearch.State VertexPtr EdgePtr) : List DotLine :=
  .header name :: nodeLine h entry :: a.trace.flatMap (eventLines h)

/-- The visit stands where the search stands. -/
structure Renders (name : String) (entry : VertexPtr) (s : State)
    (a : DepthFirstSearch.State VertexPtr EdgePtr) : Prop where
  stop : s.stop = none
  colorMapStack : ∃ m, s.colorMapStack = [m]
  color : colorOf s = a.color
  stack : a.stack = s.dfsStack.map fun x =>
    (x.vertex, x.outEdges.filter fun e => !ignores h e)
  roots : a.roots = []
  output : s.visitor = traceLines h name entry a

variable {h o} {name : String} {entry : VertexPtr} {s t : State}
  {a : DepthFirstSearch.State VertexPtr EdgePtr}

theorem colorOf_update {m : ImprovedDepthFirstVisit.ColorMap}
    (hmaps : s.colorMapStack = [m]) {v : VertexPtr} {c : Color}
    (ht : t.colorMapStack = [Function.update m v (some c)]) :
    colorOf t = Function.update (colorOf s) v c := by
  funext w
  unfold colorOf
  rw [hmaps, ht]
  by_cases hw : w = v
  · subst hw
    simp
  · simp [hw]

/-- An edge to a discovered vertex. -/
theorem Renders.advance (hs : Renders h name entry s a)
    {m : ImprovedDepthFirstVisit.ColorMap} (hmaps : s.colorMapStack = [m])
    {u : VertexPtr} {e : EdgePtr} {ei : List EdgePtr} {rest : List VertexInfo}
    {ev : Event VertexPtr EdgePtr} (hev : eventLines h ev = [edgeLine h e]) :
    Renders h name entry
      ⟨[m], ⟨u, ei⟩ :: rest, s.visitor ++ [edgeLine h e], none⟩
      { a with
        stack := (u, ei.filter fun e => !ignores h e) :: rest.map fun x =>
          (x.vertex, x.outEdges.filter fun e => !ignores h e)
        trace := a.trace ++ [ev] } where
  stop := rfl
  colorMapStack := ⟨m, rfl⟩
  color := by
    rw [← hs.color]
    unfold colorOf
    rw [hmaps]
  stack := rfl
  roots := hs.roots
  output := by
    rw [hs.output]
    simp [traceLines, hev]

/-- A drawn edge is a step of the search. -/
theorem Renders.follow (hs : Renders h name entry s a) {u : VertexPtr}
    {e : EdgePtr} {ei : List EdgePtr} {rest : List VertexInfo}
    (hstack : a.stack = (u, e :: ei.filter fun e => !ignores h e) ::
      rest.map fun x => (x.vertex, x.outEdges.filter fun e => !ignores h e)) :
    ∃ b, DepthFirstSearch.Step (drawing h o) a b ∧
      Renders h name entry
        (ImprovedDepthFirstVisit.follow (visitor h) h o u e ei rest s) b := by
  obtain ⟨m, hmaps⟩ := hs.colorMapStack
  have hcolor : a.color ((drawing h o).target e) =
      (m (h.edge e).target).getD .white := by
    rw [← hs.color]
    unfold colorOf
    rw [hmaps]
    rfl
  have htree (hwhite : (m (h.edge e).target).getD .white = .white) :
      ∃ b, DepthFirstSearch.Step (drawing h o) a b ∧ Renders h name entry
        (ImprovedDepthFirstVisit.follow (visitor h) h o u e ei rest s) b := by
    rw [follow_tree hs.stop hmaps hwhite]
    exact ⟨_, .treeEdge hstack (hcolor.trans hwhite), rfl, ⟨_, rfl⟩,
      by rw [colorOf_update hmaps rfl, hs.color]; rfl, rfl, hs.roots,
      by rw [hs.output]; simp [traceLines, eventLines]⟩
  cases hm : m (h.edge e).target with
  | none => exact htree (by rw [hm]; rfl)
  | some c =>
      rw [hm] at hcolor
      cases c with
      | white => exact htree (by rw [hm]; rfl)
      | gray =>
          rw [follow_back hs.stop hmaps hm]
          exact ⟨_, .backEdge hstack hcolor, hs.advance hmaps rfl⟩
      | black =>
          rw [follow_forwardOrCross hs.stop hmaps hm]
          exact ⟨_, .forwardOrCrossEdge hstack hcolor, hs.advance hmaps rfl⟩

/-- A finished vertex is one of the search. -/
theorem Renders.finish (hs : Renders h name entry s a)
    {m : ImprovedDepthFirstVisit.ColorMap} (hmaps : s.colorMapStack = [m])
    {u : VertexPtr} {rest : List VertexInfo}
    (hstack : a.stack = (u, []) :: rest.map fun x =>
      (x.vertex, x.outEdges.filter fun e => !ignores h e)) :
    ∃ b, DepthFirstSearch.Step (drawing h o) a b ∧
      Renders h name entry
        ⟨[Function.update m u (some .black)], rest, s.visitor, none⟩ b :=
  ⟨_, .finishVertex hstack, rfl, ⟨_, rfl⟩,
    by rw [colorOf_update hmaps rfl, hs.color], rfl, hs.roots,
    by rw [hs.output]; simp [traceLines, eventLines]⟩

/-- A round in which an edge is ignored is no step of the search; any other
step of the visit is one. -/
theorem Renders.step_cases (hs : Renders h name entry s a)
    (hstep : step h o s = some t) :
    Renders h name entry t a ∨ ∃ b,
      DepthFirstSearch.Step (drawing h o) a b ∧ Renders h name entry t b := by
  obtain ⟨m, hmaps⟩ := hs.colorMapStack
  have hstack := hs.stack
  cases hdfs : s.dfsStack with
  | nil =>
      unfold step ImprovedDepthFirstVisit.step at hstep
      simp [hs.stop, hdfs] at hstep
  | cons x rest =>
      obtain ⟨u, outEdges⟩ := x
      rw [hdfs, List.map_cons] at hstack
      cases outEdges with
      | nil =>
          rw [step_finish hs.stop hmaps hdfs, Option.some.injEq] at hstep
          rw [← hstep]
          exact .inr (hs.finish hmaps hstack)
      | cons e ei =>
          cases hignores : ignores h e with
          | true =>
              rw [step_ignored hs.stop hdfs hignores, Option.some.injEq] at hstep
              rw [List.filter_cons_of_neg (by simp [hignores])] at hstack
              rw [← hstep]
              exact .inl ⟨hs.stop, hs.colorMapStack, hs.color, hstack, hs.roots,
                hs.output⟩
          | false =>
              rw [step_drawn hs.stop hdfs hignores, Option.some.injEq] at hstep
              rw [List.filter_cons_of_pos (by simp [hignores])] at hstack
              rw [← hstep]
              exact .inr (hs.follow hstack)

/-! ## The visit ends -/

variable (h o) in
/-- The rounds that are left: every edge on the stack, and every undiscovered
vertex with its edges, ignored or not. -/
def roundsLeft (s : State) : Nat :=
  DepthFirstSearch.work (walked h o) (Finset.range h.nextVertex)
    ⟨colorOf s, s.dfsStack.map fun x => (x.vertex, x.outEdges), [], []⟩

/-- The vertices on the stack are discovered. -/
def StackDiscovered (s : State) : Prop :=
  ∀ x ∈ s.dfsStack, colorOf s x.vertex ≠ .white

/-- A round that only takes an edge off the stack. -/
theorem roundsLeft_lt_of_color (hdiscovered : StackDiscovered s) {u : VertexPtr}
    {e : EdgePtr} {ei : List EdgePtr} {rest : List VertexInfo}
    (hdfs : s.dfsStack = ⟨u, e :: ei⟩ :: rest)
    (ht : t.dfsStack = ⟨u, ei⟩ :: rest) (hcolor : colorOf t = colorOf s) :
    StackDiscovered t ∧ roundsLeft h o t < roundsLeft h o s := by
  constructor
  · intro x hx
    rw [ht] at hx
    rw [hcolor]
    rcases List.mem_cons.mp hx with rfl | hx
    · exact hdiscovered ⟨u, e :: ei⟩ (by rw [hdfs]; exact List.mem_cons_self)
    · exact hdiscovered x (by rw [hdfs]; exact List.mem_cons_of_mem _ hx)
  · simp only [roundsLeft, DepthFirstSearch.work, hcolor, ht, hdfs,
      List.map_cons, List.sum_cons, List.length_cons]
    omega

/-- A round in which a vertex is discovered. -/
theorem roundsLeft_lt_of_discover (hc : h.Consistent)
    (hdiscovered : StackDiscovered s) {u : VertexPtr} {e : EdgePtr}
    {ei : List EdgePtr} {rest : List VertexInfo}
    (hdfs : s.dfsStack = ⟨u, e :: ei⟩ :: rest)
    (ht : t.dfsStack = ⟨(h.edge e).target, h.outEdgeList o (h.edge e).target⟩ ::
      ⟨u, ei⟩ :: rest)
    (hcolor : colorOf t = Function.update (colorOf s) (h.edge e).target .gray)
    (hwhite : colorOf s (h.edge e).target = .white) :
    StackDiscovered t ∧ roundsLeft h o t < roundsLeft h o s := by
  constructor
  · intro x hx
    rw [ht] at hx
    rw [hcolor]
    rcases List.mem_cons.mp hx with rfl | hx
    · simp
    · refine DepthFirstSearch.ne_white_update ?_ (by decide)
      rcases List.mem_cons.mp hx with rfl | hx
      · exact hdiscovered ⟨u, e :: ei⟩ (by rw [hdfs]; exact List.mem_cons_self)
      · exact hdiscovered x (by rw [hdfs]; exact List.mem_cons_of_mem _ hx)
  · have hsum := DepthFirstSearch.sum_white_update (G := walked h o) (c := .gray)
      (Finset.mem_range.mpr (hc.target_lt e)) hwhite (by decide)
    have hout : (walked h o).out (h.edge e).target =
        h.outEdgeList o (h.edge e).target := rfl
    rw [hout] at hsum
    simp only [roundsLeft, DepthFirstSearch.work, hcolor, ht, hdfs,
      List.map_cons, List.sum_cons, List.length_cons]
    omega

/-- A round in which a vertex is finished. -/
theorem roundsLeft_lt_of_finish (hdiscovered : StackDiscovered s)
    {u : VertexPtr} {rest : List VertexInfo}
    (hdfs : s.dfsStack = ⟨u, []⟩ :: rest) (ht : t.dfsStack = rest)
    (hcolor : colorOf t = Function.update (colorOf s) u .black) :
    StackDiscovered t ∧ roundsLeft h o t < roundsLeft h o s := by
  have hu : colorOf s u ≠ .white :=
    hdiscovered ⟨u, []⟩ (by rw [hdfs]; exact List.mem_cons_self)
  constructor
  · intro x hx
    rw [ht] at hx
    rw [hcolor]
    exact DepthFirstSearch.ne_white_update
      (hdiscovered x (by rw [hdfs]; exact List.mem_cons_of_mem _ hx)) (by decide)
  · simp only [roundsLeft, DepthFirstSearch.work, hcolor, ht, hdfs,
      List.map_cons, List.sum_cons, List.length_nil,
      DepthFirstSearch.filter_white_update hu (c := .black) (by decide)]
    omega

/-- Every round leaves fewer. -/
theorem roundsLeft_lt (hc : h.Consistent) (hs : Renders h name entry s a)
    (hdiscovered : StackDiscovered s) (hstep : step h o s = some t) :
    StackDiscovered t ∧ roundsLeft h o t < roundsLeft h o s := by
  obtain ⟨m, hmaps⟩ := hs.colorMapStack
  have hcolorOf : ∀ v, colorOf s v = (m v).getD .white := by
    intro v
    unfold colorOf
    rw [hmaps]
    rfl
  cases hdfs : s.dfsStack with
  | nil =>
      unfold step ImprovedDepthFirstVisit.step at hstep
      simp [hs.stop, hdfs] at hstep
  | cons x rest =>
      obtain ⟨u, outEdges⟩ := x
      cases outEdges with
      | nil =>
          rw [step_finish hs.stop hmaps hdfs, Option.some.injEq] at hstep
          rw [← hstep]
          exact roundsLeft_lt_of_finish hdiscovered hdfs rfl
            (colorOf_update hmaps rfl)
      | cons e ei =>
          cases hignores : ignores h e with
          | true =>
              rw [step_ignored hs.stop hdfs hignores, Option.some.injEq] at hstep
              rw [← hstep]
              exact roundsLeft_lt_of_color hdiscovered hdfs rfl rfl
          | false =>
              rw [step_drawn hs.stop hdfs hignores, Option.some.injEq] at hstep
              have htop : ∀ visitor, colorOf (⟨[m], ⟨u, ei⟩ :: rest, visitor,
                  none⟩ : State) = colorOf s := by
                intro visitor
                unfold colorOf
                rw [hmaps]
              by_cases hwhite : colorOf s (h.edge e).target = .white
              · rw [follow_tree hs.stop hmaps (hcolorOf _ ▸ hwhite)] at hstep
                rw [← hstep]
                exact roundsLeft_lt_of_discover hc hdiscovered hdfs rfl
                  (colorOf_update hmaps rfl) hwhite
              · rw [hcolorOf] at hwhite
                cases hm : m (h.edge e).target with
                | none =>
                    rw [hm] at hwhite
                    exact absurd rfl hwhite
                | some c =>
                    rw [hm] at hwhite
                    cases c with
                    | white => exact absurd rfl hwhite
                    | gray =>
                        rw [follow_back hs.stop hmaps hm] at hstep
                        rw [← hstep]
                        exact roundsLeft_lt_of_color hdiscovered hdfs rfl
                          (htop _)
                    | black =>
                        rw [follow_forwardOrCross hs.stop hmaps hm] at hstep
                        rw [← hstep]
                        exact roundsLeft_lt_of_color hdiscovered hdfs rfl
                          (htop _)

/-! ## Whole runs -/

/-- The visit starts with the header and the line of ENTRY. -/
theorem start_renders {this : FunctionPtr}
    (howner : (h.vertex (h.function this).entryVertexDesc).owningFunction = this)
    (hthis : this ≠ null) :
    Renders h (h.function this).functionId (h.function this).entryVertexDesc
        (start h o this)
        (DepthFirstSearch.started (drawing h o)
          (h.function this).entryVertexDesc) ∧
      StackDiscovered (start h o this) := by
  have hstart : start h o this =
      ⟨[Function.update (fun _ => none) (h.function this).entryVertexDesc
          (some .gray)],
        [⟨(h.function this).entryVertexDesc,
          h.outEdgeList o (h.function this).entryVertexDesc⟩],
        [.header (h.function this).functionId,
          nodeLine h (h.function this).entryVertexDesc], none⟩ := by
    unfold start ImprovedDepthFirstVisit.start
    simp [ImprovedDepthFirstVisit.visit, visitor, startVertex, howner, hthis,
      ImprovedDepthFirstVisit.discover, discoverVertex,
      ImprovedDepthFirstVisit.State.putColor]
  have hcolor : colorOf (start h o this) = Function.update (fun _ => .white)
      (h.function this).entryVertexDesc .gray := by
    rw [hstart]
    funext v
    by_cases hv : v = (h.function this).entryVertexDesc
    · subst hv
      simp [colorOf]
    · simp [colorOf, hv]
  constructor
  · refine ⟨?_, ?_, hcolor, ?_, rfl, ?_⟩
    · rw [hstart]
    · rw [hstart]
      exact ⟨_, rfl⟩
    · rw [hstart]
      rfl
    · rw [hstart]
      rfl
  · intro x hx
    rw [hcolor]
    rw [hstart] at hx
    rw [List.mem_singleton.mp hx]
    simp

/-- The visit comes to its end, and so does the search. -/
theorem start_terminates (hc : h.Consistent) {this : FunctionPtr}
    (howner : (h.vertex (h.function this).entryVertexDesc).owningFunction = this)
    (hthis : this ≠ null) :
    ∃ t a, Reaches (step h o) (start h o this) t ∧ step h o t = none ∧
      Reaches (DepthFirstSearch.step (drawing h o))
        (DepthFirstSearch.started (drawing h o)
          (h.function this).entryVertexDesc) a ∧
      a.stack = [] ∧
      Renders h (h.function this).functionId (h.function this).entryVertexDesc
        t a := by
  obtain ⟨hrenders, hdiscovered⟩ := start_renders (o := o) howner hthis
  have hkept : ∀ s t, (∃ a, Reaches (DepthFirstSearch.step (drawing h o))
        (DepthFirstSearch.started (drawing h o)
          (h.function this).entryVertexDesc) a ∧
      Renders h (h.function this).functionId (h.function this).entryVertexDesc
        s a ∧ StackDiscovered s) → step h o s = some t →
      (∃ a, Reaches (DepthFirstSearch.step (drawing h o))
        (DepthFirstSearch.started (drawing h o)
          (h.function this).entryVertexDesc) a ∧
      Renders h (h.function this).functionId (h.function this).entryVertexDesc
        t a ∧ StackDiscovered t) ∧ roundsLeft h o t < roundsLeft h o s := by
    rintro s t ⟨a, ha, hs, hstack⟩ hstep
    obtain ⟨ht, hlt⟩ := roundsLeft_lt hc hs hstack hstep
    refine ⟨?_, hlt⟩
    rcases hs.step_cases hstep with hsame | ⟨b, hb, hnext⟩
    · exact ⟨a, ha, hsame, ht⟩
    · exact ⟨b, .tail ha hb.step_eq, hnext, ht⟩
  have hstart := (⟨_, .refl, hrenders, hdiscovered⟩ : ∃ a,
    Reaches (DepthFirstSearch.step (drawing h o))
      (DepthFirstSearch.started (drawing h o)
        (h.function this).entryVertexDesc) a ∧
    Renders h (h.function this).functionId (h.function this).entryVertexDesc
      (start h o this) a ∧ StackDiscovered (start h o this))
  obtain ⟨t, ht, hend⟩ := terminates_of_measure (roundsLeft h o) hkept hstart
  obtain ⟨a, ha, hrenders', _⟩ := ht.invariant
    (fun s t hs hstep => (hkept s t hs hstep).1) hstart
  refine ⟨t, a, ht, hend, ha, ?_, hrenders'⟩
  rw [hrenders'.stack]
  cases hdfs : t.dfsStack with
  | nil => rfl
  | cons x rest =>
      unfold step ImprovedDepthFirstVisit.step at hend
      simp only [hrenders'.stop, hdfs, Option.isSome_none, Bool.false_eq_true,
        if_false] at hend
      split at hend <;> simp_all

/-- The lines of the trace: one for every vertex and one for every edge. -/
theorem eventLines_perm (l : List (Event VertexPtr EdgePtr)) :
    (l.flatMap (eventLines h)).Perm
      ((l.filterMap (Event.discovered (drawing h o))).map (nodeLine h) ++
        (l.filterMap Event.examined).map (edgeLine h)) := by
  induction l with
  | nil => exact List.Perm.refl _
  | cons ev l ih =>
      rw [List.flatMap_cons]
      cases ev with
      | treeEdge e =>
          rw [List.filterMap_cons_some (show Event.discovered (drawing h o)
              (.treeEdge e) = some (h.edge e).target from rfl),
            List.filterMap_cons_some (show Event.examined
              (.treeEdge e : Event VertexPtr EdgePtr) = some e from rfl)]
          refine (List.Perm.swap _ _ _).trans (.cons _ ?_)
          exact (ih.cons _).trans List.perm_middle.symm
      | backEdge e =>
          rw [List.filterMap_cons_none (show Event.discovered (drawing h o)
              (.backEdge e) = none from rfl),
            List.filterMap_cons_some (show Event.examined
              (.backEdge e : Event VertexPtr EdgePtr) = some e from rfl)]
          exact (ih.cons _).trans List.perm_middle.symm
      | forwardOrCrossEdge e =>
          rw [List.filterMap_cons_none (show Event.discovered (drawing h o)
              (.forwardOrCrossEdge e) = none from rfl),
            List.filterMap_cons_some (show Event.examined
              (.forwardOrCrossEdge e : Event VertexPtr EdgePtr) = some e from rfl)]
          exact (ih.cons _).trans List.perm_middle.symm
      | finishVertex v =>
          rw [List.filterMap_cons_none (show Event.discovered (drawing h o)
              (.finishVertex v) = none from rfl),
            List.filterMap_cons_none (show Event.examined
              (.finishVertex v : Event VertexPtr EdgePtr) = none from rfl)]
          exact ih

theorem reachable_iff {v : VertexPtr} :
    DepthFirstSearch.Reachable (drawing h o) [entry] v ↔
      ReflTransGen h.DrawnStep entry v := by
  constructor
  · rintro ⟨r, hr, p, hp⟩
    obtain rfl := List.mem_singleton.mp hr
    clear hr
    induction p generalizing r with
    | nil =>
        have hrv : r = v := hp
        rw [hrv]
    | cons e p ih =>
        obtain ⟨hout, hdrawn⟩ := (mem_drawing_out h o).mp hp.1
        exact .head ⟨e, hout, hdrawn, rfl⟩ (ih _ hp.2)
  · intro hreach
    induction hreach with
    | refl => exact ⟨entry, List.mem_singleton_self _, [], rfl⟩
    | tail _ hstep ih =>
        obtain ⟨e, hout, hdrawn, rfl⟩ := hstep
        exact ih.target ((mem_drawing_out h o).mpr ⟨hout, hdrawn⟩)

/-- What the finished file holds: `R` are the vertices, `E` the edges. -/
structure Faithful (h : Heap) (this : FunctionPtr) (out : List DotLine)
    (R : Finset VertexPtr) (E : Finset EdgePtr) : Prop where
  mem_vertices : ∀ v, v ∈ R ↔
    ReflTransGen h.DrawnStep (h.function this).entryVertexDesc v
  mem_edges : ∀ e, e ∈ E ↔ (h.edge e).source ∈ R ∧ h.IsDrawn e
  target_mem : ∀ e ∈ E, (h.edge e).target ∈ R
  lines : ∃ lines, out = .header (h.function this).functionId :: lines ∧
    (lines : Multiset DotLine) = R.val.map (nodeLine h) + E.val.map (edgeLine h)
  ids : Set.InjOn (fun v => (h.vertex v).vertexIndex) R
  entryId : (h.vertex (h.function this).entryVertexDesc).vertexIndex = 0
  exitId : (h.vertex (h.function this).exitVertexDesc).vertexIndex = 1

/-- What is drawn stays in the function. -/
theorem home_of_drawn {functions : List FunctionPtr}
    {home : VertexPtr → FunctionPtr} (hp : ProgramFlow functions home h)
    {this : FunctionPtr} (hthis : this ∈ functions) {v : VertexPtr}
    (hreach : ReflTransGen h.DrawnStep (h.function this).entryVertexDesc v) :
    home v = this := by
  induction hreach with
  | refl => exact hp.home_entry hthis
  | tail _ hstep ih =>
      obtain ⟨e, hout, hdrawn, rfl⟩ := hstep
      obtain ⟨hsource, hne⟩ := (hp.consistent.mem_outEdges _ e).mp hout
      have he : (h.edge e).source ≠ null := hsource ▸ hne
      have hintra : (h.edge e).edgeType.isIntraprocedural = true := by
        rcases hp.edgeType e he with hintra | hcall | hreturn
        · exact hintra
        · exact absurd hcall (by simp [hdrawn.notCall])
        · exact absurd hreturn (by simp [hdrawn.notReturn])
      rw [hp.home_eq_home e he hintra, hsource, ih]

/-- The visit of a function's graph ends with a faithful drawing. -/
theorem exists_faithful {functions : List FunctionPtr}
    {home : VertexPtr → FunctionPtr} (hp : ProgramFlow functions home h)
    {this : FunctionPtr} (hthis : this ∈ functions)
    (howner : (h.vertex (h.function this).entryVertexDesc).owningFunction =
      this) :
    ∃ t, Reaches (step h o) (start h o this) t ∧ step h o t = none ∧
      t.stop = none ∧ ∃ R E, Faithful h this t.visitor R E := by
  have hthis0 : this ≠ null := fun heq => hp.null_notMem (heq ▸ hthis)
  obtain ⟨t, a, ht, hend, ha, hstack, hrenders⟩ :=
    start_terminates (o := o) hp.consistent howner hthis0
  obtain ⟨hnodup, hmem, hperm⟩ :=
    DepthFirstSearch.Account.finished (drawing_proper o hp.consistent) ha hstack
  refine ⟨t, ht, hend, hrenders.stop, (DepthFirstSearch.discovered (drawing h o)
    (h.function this).entryVertexDesc a).toFinset,
    (DepthFirstSearch.examined a).toFinset, ?_⟩
  have hreach : ∀ v, v ∈ DepthFirstSearch.discovered (drawing h o)
      (h.function this).entryVertexDesc a ↔
        ReflTransGen h.DrawnStep (h.function this).entryVertexDesc v :=
    fun v => (hmem v).trans reachable_iff
  have hhome : ∀ v, v ∈ DepthFirstSearch.discovered (drawing h o)
      (h.function this).entryVertexDesc a → home v = this :=
    fun v hv => home_of_drawn hp hthis ((hreach v).mp hv)
  have hexamined : ∀ e, e ∈ DepthFirstSearch.examined a ↔
      (h.edge e).source ∈ DepthFirstSearch.discovered (drawing h o)
        (h.function this).entryVertexDesc a ∧ h.IsDrawn e := by
    intro e
    rw [hperm.mem_iff, List.mem_flatMap]
    constructor
    · rintro ⟨v, hv, he⟩
      obtain ⟨hout, hdrawn⟩ := (mem_drawing_out h o).mp he
      rw [((hp.consistent.mem_outEdges v e).mp hout).1]
      exact ⟨hv, hdrawn⟩
    · rintro ⟨hv, hdrawn⟩
      refine ⟨_, hv, (mem_drawing_out h o).mpr ⟨?_, hdrawn⟩⟩
      refine (hp.consistent.mem_outEdges _ e).mpr ⟨rfl, ?_⟩
      exact (hp.allocated _ (by rw [hhome _ hv]; exact hthis)).1
  have hexaminedNodup : (DepthFirstSearch.examined a).Nodup := by
    rw [hperm.nodup_iff, List.nodup_flatMap]
    refine ⟨fun v _ => (drawing_proper o hp.consistent).nodup v,
      hnodup.imp fun hne => ?_⟩
    intro e hu hv
    exact hne ((drawing_proper o hp.consistent).source_unique _ _ e hu hv)
  exact
    { mem_vertices := fun v => by rw [List.mem_toFinset, hreach]
      mem_edges := fun e => by
        rw [List.mem_toFinset, List.mem_toFinset, hexamined]
      target_mem := fun e he => by
        rw [List.mem_toFinset, hexamined, hreach] at he
        rw [List.mem_toFinset, hreach]
        have hsource := he.1
        rw [← hreach] at hsource
        refine he.1.tail ⟨e, ?_, he.2, rfl⟩
        refine (hp.consistent.mem_outEdges _ e).mpr ⟨rfl, ?_⟩
        exact (hp.allocated _ (by rw [hhome _ hsource]; exact hthis)).1
      lines := by
        refine ⟨_, hrenders.output, ?_⟩
        rw [List.toFinset_val, hnodup.dedup, List.toFinset_val,
          hexaminedNodup.dedup, Multiset.map_coe, Multiset.map_coe,
          Multiset.coe_add, Multiset.coe_eq_coe]
        exact (eventLines_perm (o := o) a.trace).cons _
      ids := (hp.indexed this hthis).injOn.mono fun v hv =>
        hhome v (List.mem_toFinset.mp hv)
      entryId := hp.entryIndex this hthis
      exitId := hp.exitIndex this hthis }

end PrintControlFlowGraphDot

end CoFlo.Ports
