import CoFlo.Ports.CallFreePrint
import CoFlo.Ports.PrintTokens
import CoFlo.Verified.InlinedWalk
import CoFlo.Verified.Transcript

/-!
# Runs of `PrintControlFlowGraph`, step by step

A run visits vertices, each under the calls that are open when it is discovered,
and prints the lines of these and of no other statements (`Visits.told`).

Between two visits a state is idle, and while the out-edges of a vertex are
examined it is busy.  What is on the set, in the in-degree map and on the call
stack then says what the next step does, and out of a call whether that was a
recursive one.
-/

namespace CoFlo.Ports

open CoFlo.Verified CoFlo.Verified.StepMachine CoFlo.Verified.Transcript

/-! ## The lines of statements -/

/-- What the line of a statement says. -/
def CfgLine.toStatement : CfgLine → Option (String × Option VertexPtr × Location)
  | .statement _ identifier vertexId location => some (identifier, vertexId, location)
  | _ => none

namespace FunctionCFGVisitor

/-- The statements that have been printed. -/
def told (s : FunctionCFGVisitor) : List (String × Option VertexPtr × Location) :=
  s.output.filterMap CfgLine.toStatement

variable (h : Heap) (o : IterationOrder) (options : PrintOptions)

/-- The line of a statement, if it has one. -/
def statementLine (u : VertexPtr) : Option (String × Option VertexPtr × Location) :=
  let p := (h.vertex u).statement
  if options.cfgVerbose || p.isDecisionStatement || p.isFunctionCall then
    some (p.identifierCFG h, if options.cfgVertexIds then some u else none,
      (h.vertex u).location)
  else none

theorem told_print (s : FunctionCFGVisitor) {line : CfgLine}
    (hline : line.toStatement = none) : (s.print line).told = s.told := by
  simp only [told, print, List.filterMap_append, List.filterMap_cons, hline,
    List.filterMap_nil, List.append_nil]

theorem told_openBracket (s : FunctionCFGVisitor) (text : String) :
    (s.openBracket text).told = s.told :=
  told_print s rfl

theorem told_closeBracket (s : FunctionCFGVisitor) (text : String) :
    (s.closeBracket text).told = s.told := by
  show (print _ _).told = _
  rw [told_print]
  · rfl
  · rfl

theorem told_printEntry (u : VertexPtr) (s : FunctionCFGVisitor) :
    (printEntry h u s).told = s.told := by
  unfold printEntry
  split_ifs
  · exact told_openBracket s _
  · rfl

theorem told_printBranches (u : VertexPtr) (e : EdgePtr) (s : FunctionCFGVisitor) :
    (printBranches h o u e s).told = s.told := by
  unfold printBranches
  simp only
  split_ifs
  · exact told_openBracket s _
  · rfl
  · induction (filteredInDegree' h o.inEdges u - 2).toNat with
    | zero => rfl
    | succ n ih =>
        rw [Function.iterate_succ_apply']
        exact (told_closeBracket _ _).trans ih
  · rfl

theorem told_printStatement (u : VertexPtr) (s : FunctionCFGVisitor) :
    (printStatement h options u s).told =
      s.told ++ (statementLine h options u).toList := by
  unfold printStatement statementLine
  simp only
  split_ifs
  · simp [told, print, CfgLine.toStatement]
  · simp [told, print, CfgLine.toStatement]
  · simp

theorem told_trackCall (u : VertexPtr) (s : FunctionCFGVisitor) :
    (trackCall h u s).told = s.told := by
  unfold trackCall
  split
  · dsimp only
    split_ifs
    · exact told_print s rfl
    · rfl
  · rfl

theorem discoverVertex_told {u : VertexPtr} {e : EdgePtr} {s t : FunctionCFGVisitor}
    {r : VertexReturnValue} (hcall : discoverVertex h o options u e s = .ok (r, t)) :
    t.told = s.told ++ (statementLine h options u).toList := by
  have ht : t = trackCall h u (printStatement h options u
      (printBranches h o u e (printEntry h u s))) :=
    (congrArg Prod.snd (Except.ok.inj hcall)).symm
  rw [ht, told_trackCall, told_printStatement, told_printBranches, told_printEntry]

theorem told_skipReturn (s : FunctionCFGVisitor) (c : VertexPtr) :
    (s.skipReturn c).2.told = s.told := by
  unfold skipReturn
  split
  · exact told_print s rfl
  · split_ifs
    · exact told_print s rfl
    · rfl

theorem told_skipFromCall (s : FunctionCFGVisitor) (ed : EdgePtr) :
    (skipFromCall h s ed).2.told = s.told := by
  unfold skipFromCall
  split
  · split_ifs
    · exact told_print s rfl
    · rfl
  · rfl

theorem examineEdge_told {ed : EdgePtr} {s t : FunctionCFGVisitor}
    {r : EdgeReturnValue} (hcall : examineEdge h ed s = .ok (r, t)) :
    t.told = s.told := by
  have ht : t = (skipEdge h ed s).2 :=
    (congrArg Prod.snd (Except.ok.inj hcall)).symm
  rw [ht]
  unfold skipEdge
  split_ifs
  · rfl
  · rfl
  · split
    · simp only
      split_ifs
      · exact told_skipReturn s _
      · exact (told_skipFromCall h _ ed).trans (told_skipReturn s _)
    · exact told_skipFromCall h s ed

theorem closeBranches_told {n : Nat} {e : Option EdgePtr} {s t : FunctionCFGVisitor}
    (hrun : closeBranches h o n e s = .ok t) : t.told = s.told := by
  unfold closeBranches at hrun
  split_ifs at hrun
  · rw [← Except.ok.inj hrun]
    exact told_closeBracket s _
  · split at hrun
    · exact absurd hrun (by simp)
    · rw [← Except.ok.inj hrun]
      split_ifs
      · exact told_closeBracket s _
      · rfl
  · rw [← Except.ok.inj hrun]

theorem vertexVisitComplete_told {u : VertexPtr} {n : Nat} {e : Option EdgePtr}
    {s t : FunctionCFGVisitor}
    (hcall : vertexVisitComplete h o options u n e s = .ok ((), t)) :
    t.told = s.told := by
  have hclosed : ∀ {v w : FunctionCFGVisitor}, v.told = s.told →
      (do return ((), ← closeBranches h o n e v) :
        Except TraversalFault (Unit × FunctionCFGVisitor)) = .ok ((), w) →
      w.told = s.told := by
    intro v w hv hw
    cases hclose : closeBranches h o n e v with
    | error err =>
        rw [hclose] at hw
        exact absurd hw (by simp [bind, Except.bind])
    | ok v' =>
        rw [hclose] at hw
        obtain rfl : v' = w := congrArg Prod.snd (Except.ok.inj hw)
        exact (closeBranches_told h o hclose).trans hv
  unfold vertexVisitComplete at hcall
  by_cases hexit : (h.vertex u).statement = .exit
  · rw [if_pos hexit] at hcall
    cases hpop : s.callStack.popCallStack h with
    | error err =>
        rw [hpop] at hcall
        exact absurd hcall (by simp [bind, Except.bind])
    | ok callStack =>
        rw [hpop] at hcall
        have hbracket : (({ s with callStack } : FunctionCFGVisitor).closeBracket
            "]").told = s.told := told_closeBracket _ _
        by_cases hlast : options.lastStatement = u
        · simp only [bind, Except.bind, pure, Except.pure, if_pos hlast] at hcall
          have ht : _ = t := congrArg Prod.snd (Except.ok.inj hcall)
          rw [← ht]
          exact hbracket
        · simp only [bind, Except.bind, pure, Except.pure, if_neg hlast] at hcall
          exact hclosed hbracket hcall
  · rw [if_neg hexit] at hcall
    exact hclosed rfl hcall

/-- The end of a visit goes wrong only if an EXIT finds no frame to pop. -/
theorem exists_vertexVisitComplete {u : VertexPtr} {n : Nat} {e : Option EdgePtr}
    {s : FunctionCFGVisitor} (he : n = 0 ∨ e ≠ none)
    (hpop : (h.vertex u).statement = .exit →
      ∃ cs, s.callStack.popCallStack h = .ok cs) :
    ∃ t, vertexVisitComplete h o options u n e s = .ok ((), t) := by
  have hclose : ∀ v, ∃ t, closeBranches h o n e v = .ok t := by
    intro v
    unfold closeBranches
    split_ifs with h0 h1
    · exact ⟨_, rfl⟩
    · cases e with
      | none => exact absurd rfl (he.resolve_left h0)
      | some d => exact ⟨_, rfl⟩
    · exact ⟨_, rfl⟩
  unfold vertexVisitComplete
  by_cases hexit : (h.vertex u).statement = .exit
  · rw [if_pos hexit]
    obtain ⟨cs, hcs⟩ := hpop hexit
    rw [hcs]
    by_cases hlast : options.lastStatement = u
    · simp only [bind, Except.bind, pure, Except.pure, if_pos hlast]
      exact ⟨_, rfl⟩
    · simp only [bind, Except.bind, pure, Except.pure, if_neg hlast]
      obtain ⟨t, ht⟩ := hclose
        (({ s with callStack := cs } : FunctionCFGVisitor).closeBracket "]")
      rw [ht]
      exact ⟨t, rfl⟩
  · rw [if_neg hexit]
    obtain ⟨t, ht⟩ := hclose s
    rw [ht]
    exact ⟨t, rfl⟩

end FunctionCFGVisitor

namespace PrintControlFlowGraph

open FunctionCFGVisitor

/-! ## The vertices that are visited -/

/-- The calls that have a frame, the innermost first. -/
def openIn (frames : List CallStackFrame) : List VertexPtr :=
  (frames.map (·.functionCallWhichPushedThisFrame)).filter (· ≠ null)

theorem openIn_cons {c : VertexPtr} (hne : c ≠ null) (cfg : GraphPtr)
    (frames : List CallStackFrame) :
    openIn (.new c cfg :: frames) = c :: openIn frames := by
  simp [openIn, CallStackFrame.new, hne]

/-- What the next step discovers, under the calls that are open. -/
def State.visited (h : Heap) (s : State) : List (InlinedWalk.Node VertexPtr) :=
  ((s.discovering h).map fun u => (openIn s.frames, u)).toList

section

variable (h : Heap) (o : IterationOrder) (f : FunctionPtr)
  (cfgVerbose cfgVertexIds : Bool)

/-- A step, with the vertex that it visits. -/
def VisitStep (s : State) (said : List (InlinedWalk.Node VertexPtr)) (t : State) :
    Prop :=
  step h o f cfgVerbose cfgVertexIds s = some t ∧ said = s.visited h

/-- A run, with the vertices that are visited. -/
abbrev Visits : State → List (InlinedWalk.Node VertexPtr) → State → Prop :=
  Tells (VisitStep h o f cfgVerbose cfgVertexIds)

/-- What the constructor of the visitor is given. -/
def printOptions : PrintOptions :=
  ⟨(h.function f).exitVertexDesc, cfgVerbose, cfgVertexIds⟩

end

section

variable {h : Heap} {o : IterationOrder} {f : FunctionPtr}
  {cfgVerbose cfgVertexIds : Bool} {s t : State} {u : VertexPtr} {ei : List EdgePtr}

theorem Visits.reaches {l : List (InlinedWalk.Node VertexPtr)}
    (hst : Visits h o f cfgVerbose cfgVertexIds s l t) :
    Reaches (step h o f cfgVerbose cfgVertexIds) s t := by
  induction hst with
  | done s => exact .refl
  | next hstep _ ih => exact .head hstep.1 ih

theorem State.visited_of_visiting {x : TopologicalVisitKahn.Visiting}
    (hvisiting : s.visiting = some x) : s.visited h = [] := by
  rw [State.visited, State.discovering_of_visiting hvisiting]
  rfl

theorem State.visited_of_head (hstop : s.stop = none) (hvisiting : s.visiting = none)
    {e : EdgePtr} {rest : List EdgePtr} (hset : s.noRemainingInEdgesSet = e :: rest) :
    s.visited h = [(openIn s.frames, (h.edge e).target)] := by
  rw [State.visited, State.discovering_of_head hstop hvisiting hset]
  rfl

/-- A step prints the line of the vertex that it discovers. -/
theorem step_told (hstep : step h o f cfgVerbose cfgVertexIds s = some t) :
    t.visitor.told = s.visitor.told ++ (s.visited h).filterMap fun n =>
      statementLine h (printOptions h f cfgVerbose cfgVertexIds) n.2 := by
  obtain ⟨hstop, hmoves⟩ := TopologicalVisitKahn.step_moves _ _ _ _ hstep
  cases hmoves with
  | discover hvisiting hset hcall hr =>
      rw [State.visited_of_head hstop hvisiting hset]
      have htold := discoverVertex_told h o _ hcall
      refine htold.trans (congrArg _ ?_)
      show (statementLine h (printOptions h f cfgVerbose cfgVertexIds) _).toList = _
      rw [List.filterMap_cons, List.filterMap_nil]
      split
      · next heq => exact congrArg Option.toList heq
      · next heq => exact congrArg Option.toList heq
  | pass hvisiting hset hcall =>
      exact absurd (discoverVertex_ok hcall) (by decide)
  | skip hvisiting hei hcall =>
      rw [State.visited_of_visiting hvisiting, List.filterMap_nil, List.append_nil]
      exact examineEdge_told h hcall
  | count hvisiting hei hcall hr hid hmap =>
      rw [State.visited_of_visiting hvisiting, List.filterMap_nil, List.append_nil]
      exact examineEdge_told h hcall
  | push hvisiting hei hcall hr hid hmap htree =>
      rw [State.visited_of_visiting hvisiting, List.filterMap_nil, List.append_nil]
      have hvisitor := congrArg Prod.snd (Except.ok.inj htree)
      have htold := examineEdge_told h hcall
      dsimp only at hvisitor
      rw [hvisitor] at htold
      exact htold
  | complete hvisiting hei hcall =>
      rw [State.visited_of_visiting hvisiting, List.filterMap_nil, List.append_nil]
      exact vertexVisitComplete_told h o _ hcall
  | fault hfault =>
      obtain ⟨hsame, hvisiting⟩ := visitor_eq_of_stop hstep hfault
      obtain ⟨x, hx⟩ := Option.ne_none_iff_exists'.mp hvisiting
      rw [State.visited_of_visiting hx, List.filterMap_nil, List.append_nil, hsame]

/-- A run prints the statements of the vertices that it visits, in order. -/
theorem Visits.told {l : List (InlinedWalk.Node VertexPtr)}
    (hst : Visits h o f cfgVerbose cfgVertexIds s l t) :
    t.visitor.told = s.visitor.told ++ l.filterMap fun n =>
      statementLine h (printOptions h f cfgVerbose cfgVertexIds) n.2 := by
  induction hst with
  | done s => simp
  | next hstep _ ih =>
      obtain ⟨hstep, rfl⟩ := hstep
      rw [ih, step_told hstep, List.filterMap_append, List.append_assoc]

/-! ## Idle and busy states -/

/-- Between two visits: what is on the set, in the map and on the stack. -/
structure Idle (s : State) (set : List EdgePtr) (map : VertexPtr → Option Int)
    (calls : DFSCallStack) : Prop where
  stop : s.stop = none
  visiting : s.visiting = none
  set : s.noRemainingInEdgesSet = set
  map : s.inDegreeMap.underlyingMap = map
  calls : s.visitor.callStack = calls

/-- During the visit of `u`, with the out-edges `ei` still to be examined. -/
structure Busy (s : State) (u : VertexPtr) (ei : List EdgePtr) (set : List EdgePtr)
    (map : VertexPtr → Option Int) (calls : DFSCallStack) (recursive : Bool) :
    Prop where
  stop : s.stop = none
  visiting : ∃ n first, s.visiting = some ⟨u, ei, n, first⟩ ∧ (n = 0 ∨ first ≠ none)
  set : s.noRemainingInEdgesSet = set
  map : s.inDegreeMap.underlyingMap = map
  calls : s.visitor.callStack = calls
  lastIsRecursive : s.visitor.lastDiscoveredVertexIsRecursive = recursive

/-- What `examine_edge` answers with these frames, when the last call was recursive or
was not. -/
def Answers (h : Heap) (frames : List CallStackFrame) (recursive : Bool) (e : EdgePtr)
    (skip : Bool) : Prop :=
  ∀ v : FunctionCFGVisitor, v.callStack.callStack = frames →
    v.lastDiscoveredVertexIsRecursive = recursive → (skipEdge h e v).1 = skip

variable {set : List EdgePtr} {map : VertexPtr → Option Int} {calls : DFSCallStack}
  {recursive : Bool}

theorem Idle.visits (hs : Idle s set map calls) {e : EdgePtr} {rest : List EdgePtr}
    (hset : set = e :: rest) (hstep : step h o f cfgVerbose cfgVertexIds s = some t) :
    Visits h o f cfgVerbose cfgVertexIds s
      [(openIn calls.callStack, (h.edge e).target)] t := by
  have hvisited := State.visited_of_head (h := h) hs.stop hs.visiting (hs.set.trans hset)
  rw [State.frames, hs.calls] at hvisited
  rw [← hvisited]
  exact Tells.single ⟨hstep, rfl⟩

theorem Idle.exists_step (hs : Idle s set map calls) {e : EdgePtr}
    {rest : List EdgePtr} (hset : set = e :: rest) :
    ∃ t, step h o f cfgVerbose cfgVertexIds s = some t ∧ t.stop = none ∧
      t.visiting = some ⟨(h.edge e).target,
        o.outEdges.enum (h.vertex (h.edge e).target).outEdges, 0, none⟩ ∧
      t.noRemainingInEdgesSet = rest ∧ t.inDegreeMap = s.inDegreeMap ∧
      Discovers h (h.edge e).target s.visitor t.visitor := by
  have hready := hs.set.trans hset
  obtain ⟨visitor', hcall⟩ : ∃ visitor', (visitor h o f cfgVerbose
      cfgVertexIds).discoverVertex (h.edge e).target e s.visitor =
        .ok (.ok, visitor') := ⟨_, rfl⟩
  have hstep : step h o f cfgVerbose cfgVertexIds s = some ⟨rest, s.inDegreeMap,
      some ⟨(h.edge e).target, o.outEdges.enum (h.vertex (h.edge e).target).outEdges,
        0, none⟩, visitor', none⟩ := by
    apply (TopologicalVisitKahn.step_of_discover _ _ _ _ hs.stop hs.visiting
      hready).trans
    unfold TopologicalVisitKahn.discover
    dsimp only
    rw [TopologicalVisitKahn.visit_ok (s := { s with noRemainingInEdgesSet := rest })
      hcall, if_neg (by decide)]
    simp only [hs.stop]
  exact ⟨_, hstep, rfl, rfl, rfl, rfl,
    discoverVertex_discovers h o (printOptions h f cfgVerbose cfgVertexIds) hcall⟩

/-- Visiting a vertex that is no call. -/
theorem Idle.discover (hs : Idle s set map calls) {e : EdgePtr} {rest : List EdgePtr}
    (hset : set = e :: rest)
    (hcall : (h.vertex (h.edge e).target).statement.calledFunction = none) :
    ∃ t recursive, Visits h o f cfgVerbose cfgVertexIds s
        [(openIn calls.callStack, (h.edge e).target)] t ∧
      Busy t (h.edge e).target
        (o.outEdges.enum (h.vertex (h.edge e).target).outEdges) rest map calls
        recursive := by
  obtain ⟨t, hstep, hstop, hvisiting, hrest, hmap, hcalls⟩ := hs.exists_step hset
  have hsame := hcalls.noCall hcall
  exact ⟨t, _, hs.visits hset hstep, hstop, ⟨0, none, hvisiting, .inl rfl⟩, hrest,
    hmap ▸ hs.map, hsame.callStack.trans hs.calls, rfl⟩

/-- Visiting a call of a function that has a frame. -/
theorem Idle.recur (hs : Idle s set map calls) {e : EdgePtr} {rest : List EdgePtr}
    (hset : set = e :: rest) {g : FunctionPtr}
    (hcall : (h.vertex (h.edge e).target).statement.calledFunction = some g)
    (hg : g ∈ calls.callSet) :
    ∃ t, Visits h o f cfgVerbose cfgVertexIds s
        [(openIn calls.callStack, (h.edge e).target)] t ∧
      Busy t (h.edge e).target
        (o.outEdges.enum (h.vertex (h.edge e).target).outEdges) rest map calls true := by
  obtain ⟨t, hstep, hstop, hvisiting, hrest, hmap, hcalls⟩ := hs.exists_step hset
  obtain ⟨hsame, hrecursive⟩ := hcalls.recursive g hcall (by rw [hs.calls]; exact hg)
  exact ⟨t, hs.visits hset hstep, hstop, ⟨0, none, hvisiting, .inl rfl⟩, hrest,
    hmap ▸ hs.map, hsame.trans hs.calls, hrecursive⟩

/-- Visiting a call of a function that has no frame. -/
theorem Idle.enter (hs : Idle s set map calls) {e : EdgePtr} {rest : List EdgePtr}
    (hset : set = e :: rest) {g : FunctionPtr}
    (hcall : (h.vertex (h.edge e).target).statement.calledFunction = some g)
    (hg : g ∉ calls.callSet) :
    ∃ t, Visits h o f cfgVerbose cfgVertexIds s
        [(openIn calls.callStack, (h.edge e).target)] t ∧
      Busy t (h.edge e).target
        (o.outEdges.enum (h.vertex (h.edge e).target).outEdges) rest map
        ⟨.new (h.edge e).target (h.function g).theCfg :: calls.callStack,
          insert g calls.callSet⟩ false := by
  obtain ⟨t, hstep, hstop, hvisiting, hrest, hmap, hcalls⟩ := hs.exists_step hset
  have hpushed := hcalls.pushes g hcall (by rw [hs.calls]; exact hg)
  rw [hs.calls] at hpushed
  exact ⟨t, hs.visits hset hstep, hstop, ⟨0, none, hvisiting, .inl rfl⟩, hrest,
    hmap ▸ hs.map, hpushed.1, hpushed.2⟩

theorem Busy.visits (hs : Busy s u ei set map calls recursive)
    (hstep : step h o f cfgVerbose cfgVertexIds s = some t) :
    Visits h o f cfgVerbose cfgVertexIds s [] t := by
  obtain ⟨n, first, hvisiting, -⟩ := hs.visiting
  exact Tells.single ⟨hstep, (State.visited_of_visiting hvisiting).symm⟩

theorem Busy.skip {e : EdgePtr} (hs : Busy s u (e :: ei) set map calls recursive)
    (he : Answers h calls.callStack recursive e true) :
    ∃ t, Visits h o f cfgVerbose cfgVertexIds s [] t ∧
      Busy t u ei set map calls recursive := by
  obtain ⟨n, first, hvisiting, hfirst⟩ := hs.visiting
  have hskip := he s.visitor (by rw [hs.calls]) hs.lastIsRecursive
  have hsame := sameCalls_skipEdge h e s.visitor
  have hcall : (visitor h o f cfgVerbose cfgVertexIds).examineEdge e s.visitor =
      .ok (.terminateBranch, (skipEdge h e s.visitor).2) := by
    show examineEdge h e s.visitor = _
    unfold examineEdge
    simp only [hskip, if_true]
  have hstep : step h o f cfgVerbose cfgVertexIds s = some ⟨s.noRemainingInEdgesSet,
      s.inDegreeMap, some ⟨u, ei, n, first⟩, (skipEdge h e s.visitor).2, none⟩ := by
    apply (TopologicalVisitKahn.step_of_examine _ _ _ _ hs.stop hvisiting rfl).trans
    unfold TopologicalVisitKahn.examine
    rw [TopologicalVisitKahn.visit_ok hcall, if_pos rfl]
    simp only [hs.stop]
  exact ⟨_, hs.visits hstep, rfl, ⟨n, first, rfl, hfirst⟩, hs.set, hs.map,
    hsame.callStack.trans hs.calls,
    hsame.lastDiscoveredVertexIsRecursive.trans hs.lastIsRecursive⟩

theorem Busy.skips {l : List EdgePtr} (hs : Busy s u (l ++ ei) set map calls recursive)
    (hl : ∀ e ∈ l, Answers h calls.callStack recursive e true) :
    ∃ t, Visits h o f cfgVerbose cfgVertexIds s [] t ∧
      Busy t u ei set map calls recursive := by
  induction l generalizing s with
  | nil => exact ⟨s, .done s, hs⟩
  | cons e l ih =>
      obtain ⟨t, hst, ht⟩ := hs.skip (hl e List.mem_cons_self)
      obtain ⟨w, htw, hw⟩ := ih ht fun d hd => hl d (List.mem_cons_of_mem e hd)
      exact ⟨w, hst.trans htw, hw⟩

/-- Examining an edge that is not skipped. -/
theorem Busy.take {e : EdgePtr} (hs : Busy s u (e :: ei) set map calls recursive)
    (he : Answers h calls.callStack recursive e false) {v : VertexPtr}
    (hv : (h.edge e).target = v) {d : Int}
    (hd : (map v).getD (filteredInDegree h o.inEdges v false) = d) :
    ∃ t, Visits h o f cfgVerbose cfgVertexIds s [] t ∧
      if d = 1 then Busy t u ei (e :: set) (Function.update map v none) calls recursive
      else Busy t u ei set (Function.update map v (some (d - 1))) calls recursive := by
  obtain ⟨n, first, hvisiting, hfirst⟩ := hs.visiting
  have hskip := he s.visitor (by rw [hs.calls]) hs.lastIsRecursive
  have hsame := sameCalls_skipEdge h e s.visitor
  have hcall : (visitor h o f cfgVerbose cfgVertexIds).examineEdge e s.visitor =
      .ok (.ok, (skipEdge h e s.visitor).2) := by
    show examineEdge h e s.visitor = _
    unfold examineEdge
    simp only [hskip, Bool.false_eq_true, if_false]
  have hlookup : s.inDegreeMap.lookup (filteredInDegree h o.inEdges · false) v = d := by
    unfold SparsePropertyMap.lookup
    rw [hs.map]
    exact hd
  have hmap := s.inDegreeMap.underlyingMap_put_get
    (filteredInDegree h o.inEdges · false) 0 v (d - 1)
  have hfst := s.inDegreeMap.get_fst (filteredInDegree h o.inEdges · false) v
  rw [hlookup] at hfst
  rw [hs.map] at hmap
  by_cases hone : d = 1
  · simp only [if_pos hone]
    rw [if_pos (by omega)] at hmap
    have hstep : step h o f cfgVerbose cfgVertexIds s =
        some ⟨e :: s.noRemainingInEdgesSet,
          (s.inDegreeMap.get (filteredInDegree h o.inEdges · false) v).2.put 0 v (d - 1),
          some ⟨u, ei, n + 1, some e⟩, (skipEdge h e s.visitor).2, none⟩ := by
      apply (TopologicalVisitKahn.step_of_examine _ _ _ _ hs.stop hvisiting rfl).trans
      unfold TopologicalVisitKahn.examine TopologicalVisitKahn.remove
      rw [TopologicalVisitKahn.visit_ok hcall, if_neg (by decide)]
      simp only [hv, hfst, hone, Int.sub_self, if_true]
      unfold TopologicalVisitKahn.visit
      simp only [visitor, FunctionCFGVisitor.visitor, hs.stop]
      rfl
    exact ⟨_, hs.visits hstep, rfl, ⟨n + 1, some e, rfl, .inr (by simp)⟩,
      congrArg _ hs.set, hmap, hsame.callStack.trans hs.calls,
      hsame.lastDiscoveredVertexIsRecursive.trans hs.lastIsRecursive⟩
  · simp only [if_neg hone]
    rw [if_neg (by omega)] at hmap
    have hstep : step h o f cfgVerbose cfgVertexIds s =
        some ⟨s.noRemainingInEdgesSet,
          (s.inDegreeMap.get (filteredInDegree h o.inEdges · false) v).2.put 0 v (d - 1),
          some ⟨u, ei, n, first⟩, (skipEdge h e s.visitor).2, none⟩ := by
      apply (TopologicalVisitKahn.step_of_examine _ _ _ _ hs.stop hvisiting rfl).trans
      unfold TopologicalVisitKahn.examine TopologicalVisitKahn.remove
      rw [TopologicalVisitKahn.visit_ok hcall, if_neg (by decide)]
      have hzero : ¬ d - 1 = 0 := by omega
      simp only [hv, hfst, hzero, if_false, hs.stop]
    exact ⟨_, hs.visits hstep, rfl, ⟨n, first, rfl, hfirst⟩, hs.set, hmap,
      hsame.callStack.trans hs.calls,
      hsame.lastDiscoveredVertexIsRecursive.trans hs.lastIsRecursive⟩

theorem Busy.exists_step (hs : Busy s u [] set map calls recursive)
    (hpop : (h.vertex u).statement = .exit → ∃ cs, calls.popCallStack h = .ok cs) :
    ∃ t, step h o f cfgVerbose cfgVertexIds s = some t ∧ t.stop = none ∧
      t.visiting = none ∧ t.noRemainingInEdgesSet = set ∧
      t.inDegreeMap.underlyingMap = map ∧
        FunctionCFGVisitor.Completes h u s.visitor t.visitor := by
  obtain ⟨n, first, hvisiting, hfirst⟩ := hs.visiting
  rw [← hs.calls] at hpop
  obtain ⟨visitor', hcall⟩ := exists_vertexVisitComplete h o
    (printOptions h f cfgVerbose cfgVertexIds) hfirst hpop
  have hstep : step h o f cfgVerbose cfgVertexIds s = some ⟨s.noRemainingInEdgesSet,
      s.inDegreeMap, none, visitor', none⟩ := by
    have hcall' : (visitor h o f cfgVerbose cfgVertexIds).vertexVisitComplete u n first
        s.visitor = .ok ((), visitor') := hcall
    apply (TopologicalVisitKahn.step_of_complete _ _ _ _ hs.stop hvisiting rfl).trans
    unfold TopologicalVisitKahn.complete
    rw [TopologicalVisitKahn.visit_ok hcall']
    simp only [hs.stop]
  exact ⟨_, hstep, rfl, rfl, hs.set, hs.map,
    vertexVisitComplete_completes h o _ hcall⟩

/-- The end of the visit of anything but an EXIT. -/
theorem Busy.complete (hs : Busy s u [] set map calls recursive)
    (hu : (h.vertex u).statement ≠ .exit) :
    ∃ t, Visits h o f cfgVerbose cfgVertexIds s [] t ∧ Idle t set map calls := by
  obtain ⟨t, hstep, hstop, hvisiting, hset, hmap, hcompletes⟩ :=
    hs.exists_step fun hexit => absurd hexit hu
  have hsame := hcompletes.same hu
  exact ⟨t, hs.visits hstep, hstop, hvisiting, hset, hmap,
    hsame.callStack.trans hs.calls⟩

/-- The end of the visit of an EXIT, which leaves the function that was called. -/
theorem Busy.leave {c : VertexPtr} {cfg : GraphPtr} {frames : List CallStackFrame}
    {callSet : Finset FunctionPtr}
    (hs : Busy s u [] set map ⟨.new c cfg :: frames, callSet⟩ recursive)
    (hu : (h.vertex u).statement = .exit) (hc : c ≠ null) {g : FunctionPtr}
    (hg : (h.vertex c).statement.calledFunction = some g) :
    ∃ t, Visits h o f cfgVerbose cfgVertexIds s [] t ∧
      Idle t set map ⟨frames, callSet.erase g⟩ := by
  have hpop : (⟨.new c cfg :: frames, callSet⟩ : DFSCallStack).popCallStack h =
      .ok ⟨frames, callSet.erase g⟩ := by
    show (if c = null then _ else _) = _
    rw [if_neg hc]
    simp only [CallStackFrame.new, hg, Option.getD_some]
  obtain ⟨t, hstep, hstop, hvisiting, hset, hmap, hcompletes⟩ :=
    hs.exists_step fun _ => ⟨_, hpop⟩
  have hcalls := (hcompletes.pops hu).1
  rw [hs.calls, hpop] at hcalls
  exact ⟨t, hs.visits hstep, hstop, hvisiting, hset, hmap, (Except.ok.inj hcalls).symm⟩

/-- The end of the visit of the EXIT that was to be printed last. -/
theorem Busy.fault {cfg : GraphPtr} {frames : List CallStackFrame}
    {callSet : Finset FunctionPtr}
    (hs : Busy s u [] set map ⟨.new null cfg :: frames, callSet⟩ recursive)
    (hu : (h.vertex u).statement = .exit) :
    ∃ t, Visits h o f cfgVerbose cfgVertexIds s [] t ∧
      t.stop = some (.visitorFault .nullDereference) ∧
      t.inDegreeMap.underlyingMap = map := by
  obtain ⟨n, first, hvisiting, -⟩ := hs.visiting
  have hpop : s.visitor.callStack.popCallStack h = .error .nullDereference := by
    rw [hs.calls]
    rfl
  have hcall : (visitor h o f cfgVerbose cfgVertexIds).vertexVisitComplete u n first
      s.visitor = .error .nullDereference := by
    show vertexVisitComplete h o _ u n first s.visitor = _
    unfold vertexVisitComplete
    rw [if_pos hu, hpop]
    rfl
  have hstep : step h o f cfgVerbose cfgVertexIds s = some { s with
      stop := some (.visitorFault .nullDereference) } := by
    apply (TopologicalVisitKahn.step_of_complete _ _ _ _ hs.stop hvisiting rfl).trans
    unfold TopologicalVisitKahn.complete
    rw [TopologicalVisitKahn.visit_error hcall]
  exact ⟨_, hs.visits hstep, rfl, hs.map⟩

/-! ## Which edges are skipped -/

variable {frames : List CallStackFrame} {e : EdgePtr}

theorem answers_true (he : (h.edge e).source = (h.edge e).target ∨
    (h.edge e).isBackEdge = true) : Answers h frames recursive e true := by
  intro v _ _
  unfold skipEdge
  by_cases hself : (h.edge e).source = (h.edge e).target
  · rw [if_pos hself]
  · rw [if_neg hself, if_pos (he.resolve_left hself)]

theorem skipFromCall_of_noCall {v : FunctionCFGVisitor}
    (hsource : (h.vertex (h.edge e).source).statement.calledFunction = none) :
    skipFromCall h v e = (false, v) := by
  unfold skipFromCall
  split
  · next g params heq =>
      rw [heq] at hsource
      exact absurd hsource (by simp [Statement.calledFunction])
  · rfl

/-- Inside a function the edges out of anything but a call are followed. -/
theorem answers_false (hne : (h.edge e).source ≠ (h.edge e).target)
    (hback : (h.edge e).isBackEdge = false)
    (htype : (h.edge e).edgeType.isReturn = false)
    (hsource : (h.vertex (h.edge e).source).statement.calledFunction = none) :
    Answers h frames recursive e false := by
  intro v _ _
  unfold skipEdge
  rw [if_neg hne, if_neg (by rw [hback]; decide)]
  split
  · next c heq =>
      rw [heq] at htype
      exact Bool.noConfusion htype
  · rw [skipFromCall_of_noCall hsource]

/-- Of the ways out of a call the `FunctionCall` edge is followed, or the fallthrough
edge if the call is recursive. -/
theorem answers_of_call (hne : (h.edge e).source ≠ (h.edge e).target)
    (hback : (h.edge e).isBackEdge = false)
    (htype : (h.edge e).edgeType.isReturn = false) {g : FunctionPtr}
    (hsource : (h.vertex (h.edge e).source).statement.calledFunction = some g) :
    Answers h frames recursive e (if recursive then (h.edge e).edgeType.isFunctionCall
      else (h.edge e).edgeType.isFallthrough) := by
  intro v _ hrecursive
  obtain ⟨params, hst⟩ := Statement.calledFunction_eq_some.mp hsource
  unfold skipEdge
  rw [if_neg hne, if_neg (by rw [hback]; decide)]
  split
  · next c heq =>
      rw [heq] at htype
      exact Bool.noConfusion htype
  · unfold skipFromCall
    rw [hst]
    cases recursive with
    | true =>
        cases hcall : (h.edge e).edgeType.isFunctionCall with
        | true => simp [hrecursive]
        | false => simp [hrecursive]
    | false => simp [hrecursive]

/-- Of the `Return` edges the one of the innermost call is followed. -/
theorem answers_return {c d : VertexPtr} {cfg : GraphPtr}
    (hne : (h.edge e).source ≠ (h.edge e).target)
    (hback : (h.edge e).isBackEdge = false)
    (htype : (h.edge e).edgeType = .returnEdge d)
    (hsource : (h.vertex (h.edge e).source).statement.calledFunction = none) :
    Answers h (.new c cfg :: frames) recursive e (decide (c = null ∨ d ≠ c)) := by
  intro v hframes _
  unfold skipEdge
  rw [if_neg hne, if_neg (by rw [hback]; decide), htype]
  unfold skipReturn
  rw [hframes]
  simp only [CallStackFrame.new]
  by_cases hc : c = null
  · simp [hc]
  · by_cases hd : d = c
    · simp [hc, hd, skipFromCall_of_noCall hsource]
    · simp [hc, hd]

end

end PrintControlFlowGraph

end CoFlo.Ports
