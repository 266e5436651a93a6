import CoFlo.Ports.FunctionCFGVisitor
import CoFlo.Ports.LinkedProgram
import CoFlo.Verified.StepMachine

/-!
# The steps of `PrintControlFlowGraph`

Apart from its output the visitor changes three things: the call stack, the
set of called functions, and whether the last call was recursive.  A step of
the visit is read through these and the variables of
`topological_visit_kahn` (`Moves`).
-/

namespace CoFlo.Ports

open CoFlo.Verified.StepMachine

/-! ## What the callbacks do to the call stack -/

namespace FunctionCFGVisitor

variable (h : Heap) (o : IterationOrder) (options : PrintOptions)

/-- Only the output and the indentation differ. -/
structure SameCalls (s t : FunctionCFGVisitor) : Prop where
  callStack : t.callStack = s.callStack
  lastDiscoveredVertexIsRecursive :
    t.lastDiscoveredVertexIsRecursive = s.lastDiscoveredVertexIsRecursive

theorem SameCalls.refl (s : FunctionCFGVisitor) : SameCalls s s := ⟨rfl, rfl⟩

theorem SameCalls.trans {s t u : FunctionCFGVisitor} (hst : SameCalls s t)
    (htu : SameCalls t u) : SameCalls s u :=
  ⟨htu.callStack.trans hst.callStack,
    htu.lastDiscoveredVertexIsRecursive.trans
      hst.lastDiscoveredVertexIsRecursive⟩

theorem sameCalls_print (s : FunctionCFGVisitor) (line : CfgLine) :
    SameCalls s (s.print line) := ⟨rfl, rfl⟩

theorem sameCalls_openBracket (s : FunctionCFGVisitor) (text : String) :
    SameCalls s (s.openBracket text) := ⟨rfl, rfl⟩

theorem sameCalls_closeBracket (s : FunctionCFGVisitor) (text : String) :
    SameCalls s (s.closeBracket text) := ⟨rfl, rfl⟩

theorem sameCalls_printEntry (u : VertexPtr) (s : FunctionCFGVisitor) :
    SameCalls s (printEntry h u s) := by
  unfold printEntry
  split_ifs
  · exact sameCalls_openBracket s _
  · exact .refl s

theorem sameCalls_printBranches (u : VertexPtr) (e : EdgePtr)
    (s : FunctionCFGVisitor) : SameCalls s (printBranches h o u e s) := by
  unfold printBranches
  simp only
  split_ifs
  · exact sameCalls_openBracket s _
  · exact .refl s
  · induction (filteredInDegree' h o.inEdges u - 2).toNat with
    | zero => exact .refl s
    | succ n ih =>
        rw [Function.iterate_succ_apply']
        exact ih.trans (sameCalls_closeBracket _ _)
  · exact .refl s

theorem sameCalls_printStatement (u : VertexPtr) (s : FunctionCFGVisitor) :
    SameCalls s (printStatement h options u s) := by
  unfold printStatement
  simp only
  split_ifs <;> exact ⟨rfl, rfl⟩

theorem sameCalls_skipFromCall (s : FunctionCFGVisitor) (ed : EdgePtr) :
    SameCalls s (skipFromCall h s ed).2 := by
  unfold skipFromCall
  split
  · split_ifs
    · exact sameCalls_print s _
    · exact .refl s
  · exact .refl s

theorem sameCalls_skipReturn (s : FunctionCFGVisitor) (c : VertexPtr) :
    SameCalls s (s.skipReturn c).2 := by
  unfold skipReturn
  split
  · exact sameCalls_print s _
  · split_ifs
    · exact sameCalls_print s _
    · exact .refl s

theorem sameCalls_skipEdge (ed : EdgePtr) (s : FunctionCFGVisitor) :
    SameCalls s (skipEdge h ed s).2 := by
  unfold skipEdge
  split_ifs
  · exact .refl s
  · exact .refl s
  · split
    · have hreturn := sameCalls_skipReturn s (by assumption)
      simp only
      split_ifs
      · exact hreturn
      · exact hreturn.trans (sameCalls_skipFromCall h _ ed)
    · exact sameCalls_skipFromCall h s ed

theorem sameCalls_closeBranches {n : Nat} {e : Option EdgePtr}
    {s t : FunctionCFGVisitor} (hrun : closeBranches h o n e s = .ok t) :
    SameCalls s t := by
  unfold closeBranches at hrun
  split_ifs at hrun
  · rw [← Except.ok.inj hrun]
    exact sameCalls_closeBracket s _
  · split at hrun
    · exact absurd hrun (by simp)
    · rw [← Except.ok.inj hrun]
      split_ifs
      · exact sameCalls_closeBracket s _
      · exact .refl s
  · rw [← Except.ok.inj hrun]
    exact .refl s

/-- Discovering a vertex: a call of a function that is in the call set is
recursive, and any other call pushes a frame. -/
structure Discovers (u : VertexPtr) (s t : FunctionCFGVisitor) : Prop where
  noCall : (h.vertex u).statement.calledFunction = none → SameCalls s t
  recursive : ∀ g, (h.vertex u).statement.calledFunction = some g →
    g ∈ s.callStack.callSet →
      t.callStack = s.callStack ∧ t.lastDiscoveredVertexIsRecursive = true
  pushes : ∀ g, (h.vertex u).statement.calledFunction = some g →
    g ∉ s.callStack.callSet →
      t.callStack = ⟨.new u (h.function g).theCfg :: s.callStack.callStack,
        insert g s.callStack.callSet⟩ ∧
      t.lastDiscoveredVertexIsRecursive = false

theorem trackCall_discovers (u : VertexPtr) (s : FunctionCFGVisitor) :
    Discovers h u s (trackCall h u s) := by
  unfold trackCall
  constructor
  · intro hst
    split
    · next g params heq =>
        rw [heq] at hst
        exact absurd hst (by simp [Statement.calledFunction])
    · exact .refl s
  · intro g hst hg
    obtain ⟨params, hst⟩ := Statement.calledFunction_eq_some.mp hst
    rw [hst]
    simp [DFSCallStack.areWeRecursing, hg]
  · intro g hst hg
    obtain ⟨params, hst⟩ := Statement.calledFunction_eq_some.mp hst
    rw [hst]
    simp [DFSCallStack.areWeRecursing, DFSCallStack.pushCallStack, hg]

theorem discoverVertex_discovers {u : VertexPtr} {e : EdgePtr}
    {s t : FunctionCFGVisitor} {r : VertexReturnValue}
    (hcall : discoverVertex h o options u e s = .ok (r, t)) :
    Discovers h u s t := by
  obtain ⟨s', hs'⟩ : ∃ s', s' = printStatement h options u
    (printBranches h o u e (printEntry h u s)) := ⟨_, rfl⟩
  have hsame : SameCalls s s' := by
    rw [hs']
    exact ((sameCalls_printEntry h u s).trans
      (sameCalls_printBranches h o u e _)).trans
        (sameCalls_printStatement h options u _)
  have ht : t = trackCall h u s' := by
    rw [hs']
    exact (congrArg Prod.snd (Except.ok.inj hcall)).symm
  rw [ht]
  have htrack := trackCall_discovers h u s'
  exact
    { noCall := fun hst => hsame.trans (htrack.noCall hst)
      recursive := by rw [← hsame.callStack]; exact htrack.recursive
      pushes := by rw [← hsame.callStack]; exact htrack.pushes }

theorem examineEdge_sameCalls {ed : EdgePtr} {s t : FunctionCFGVisitor}
    {r : EdgeReturnValue} (hcall : examineEdge h ed s = .ok (r, t)) :
    SameCalls s t := by
  have ht : t = (skipEdge h ed s).2 :=
    (congrArg Prod.snd (Except.ok.inj hcall)).symm
  rw [ht]
  exact sameCalls_skipEdge h ed s

/-- The end of a visit: an EXIT pops the top frame. -/
structure Completes (u : VertexPtr) (s t : FunctionCFGVisitor) : Prop where
  same : (h.vertex u).statement ≠ .exit → SameCalls s t
  pops : (h.vertex u).statement = .exit →
    s.callStack.popCallStack h = .ok t.callStack ∧
      t.lastDiscoveredVertexIsRecursive = s.lastDiscoveredVertexIsRecursive

theorem vertexVisitComplete_completes {u : VertexPtr} {n : Nat}
    {e : Option EdgePtr} {s t : FunctionCFGVisitor}
    (hcall : vertexVisitComplete h o options u n e s = .ok ((), t)) :
    Completes h u s t := by
  unfold vertexVisitComplete at hcall
  constructor
  · intro hst
    rw [if_neg hst] at hcall
    cases hclose : closeBranches h o n e s with
    | error err =>
        rw [hclose] at hcall
        exact absurd hcall (by simp [bind, Except.bind])
    | ok s' =>
        rw [hclose] at hcall
        obtain rfl : s' = t := congrArg Prod.snd (Except.ok.inj hcall)
        exact sameCalls_closeBranches h o hclose
  · intro hst
    rw [if_pos hst] at hcall
    cases hpop : s.callStack.popCallStack h with
    | error err =>
        rw [hpop] at hcall
        exact absurd hcall (by simp [bind, Except.bind])
    | ok callStack =>
        rw [hpop] at hcall
        obtain ⟨s', hs'⟩ : ∃ s', s' =
          ({ s with callStack } : FunctionCFGVisitor).closeBracket "]" := ⟨_, rfl⟩
        have hsame := sameCalls_closeBracket
          ({ s with callStack } : FunctionCFGVisitor) "]"
        rw [← hs'] at hsame
        simp only [bind, Except.bind, pure, Except.pure, ← hs'] at hcall
        have hst' : SameCalls s' t := by
          split_ifs at hcall
          · obtain rfl : s' = t := congrArg Prod.snd (Except.ok.inj hcall)
            exact .refl s'
          · cases hclose : closeBranches h o n e s' with
            | error err =>
                rw [hclose] at hcall
                exact absurd hcall (by simp)
            | ok s'' =>
                rw [hclose] at hcall
                obtain rfl : s'' = t := congrArg Prod.snd (Except.ok.inj hcall)
                exact sameCalls_closeBranches h o hclose
        have htrans := hsame.trans hst'
        exact ⟨congrArg _ htrans.callStack.symm,
          htrans.lastDiscoveredVertexIsRecursive⟩

end FunctionCFGVisitor

end CoFlo.Ports
