import CoFlo.Ports.InDegree
import CoFlo.Ports.KahnOrder
import CoFlo.Ports.PrintedCalls
import CoFlo.Verified.Brackets

/-!
# Printing a function without resolved calls

In a function without resolved calls the visit of `PrintControlFlowGraph` does
not leave the function, and as long as no unmarked edge comes back to its own
source it is a visit of Kahn's algorithm (`follows_step`): it passes over the
same edges throughout, and the numbers of in-edges it counts down are those of
the other edges.  So it ends.  It ends when the EXIT has been visited:
`PopCallStack` is called for a frame without a call, and the `"]"` of the
function is never printed (`not_properlyNested`).
-/

namespace CoFlo.Ports

open CoFlo.Verified CoFlo.Verified.StepMachine CoFlo.Verified.Brackets
open CoFlo.Verified.Detours
open CoFlo.Verified.DepthFirstSearch

/-! ## The number of in-edges -/

namespace Heap

/-- The edges that a visit of a function does not follow, as long as it calls
nothing. -/
def passedOver (h : Heap) : Set EdgePtr :=
  {e | (h.edge e).source = (h.edge e).target ∨ (h.edge e).isBackEdge = true ∨
    (h.edge e).edgeType.isIntraprocedural = false}

instance (h : Heap) : DecidablePred (· ∈ h.passedOver) := fun e =>
  inferInstanceAs (Decidable ((h.edge e).source = (h.edge e).target ∨
    (h.edge e).isBackEdge = true ∨ (h.edge e).edgeType.isIntraprocedural = false))

end Heap

/-! ## What is printed -/

/-- The brackets of functions and those of branches. -/
inductive BracketKind where
  | function
  | branch
  deriving DecidableEq, Repr

/-- The bracket a line consists of. -/
def CfgLine.toBracket : CfgLine → Option (Bracket BracketKind)
  | .bracket _ text =>
      if text = "[" then some (.opening .function)
      else if text = "]" then some (.closing .function)
      else if text = "\x7b" then some (.opening .branch)
      else if text = "\x7d" then some (.closing .branch)
      else none
  | _ => none

/-- How far a sequence of brackets moves in. -/
def netLevel (bs : List (Bracket BracketKind)) : Int :=
  bs.countP (fun | .opening _ => true | .closing _ => false) -
    bs.countP (fun | .opening _ => false | .closing _ => true)

theorem netLevel_append (bs cs : List (Bracket BracketKind)) :
    netLevel (bs ++ cs) = netLevel bs + netLevel cs := by
  simp only [netLevel, List.countP_append]
  omega

namespace FunctionCFGVisitor

/-- The brackets which have been printed. -/
def brackets (s : FunctionCFGVisitor) : List (Bracket BracketKind) :=
  s.output.filterMap CfgLine.toBracket

/-- From `s` to `t` the brackets `bs` are printed and the indentation follows
them. -/
structure Prints (s t : FunctionCFGVisitor) (bs : List (Bracket BracketKind)) :
    Prop where
  brackets : t.brackets = s.brackets ++ bs
  indentLevel : t.indentLevel = s.indentLevel + netLevel bs

theorem Prints.refl (s : FunctionCFGVisitor) : Prints s s [] where
  brackets := (List.append_nil _).symm
  indentLevel := (Int.add_zero _).symm

theorem Prints.trans {s t u : FunctionCFGVisitor} {bs cs : List (Bracket BracketKind)}
    (hst : Prints s t bs) (htu : Prints t u cs) : Prints s u (bs ++ cs) where
  brackets := by rw [htu.brackets, hst.brackets, List.append_assoc]
  indentLevel := by
    rw [htu.indentLevel, hst.indentLevel, netLevel_append]
    omega

theorem prints_print (s : FunctionCFGVisitor) {line : CfgLine}
    (hline : line.toBracket = none) : Prints s (s.print line) [] where
  brackets := by
    simp only [brackets, print, List.filterMap_append, List.filterMap_cons, hline,
      List.filterMap_nil]
  indentLevel := (Int.add_zero _).symm

theorem prints_openBracket (s : FunctionCFGVisitor) {text : String} {kind : BracketKind}
    (htext : ∀ level, (CfgLine.bracket level text).toBracket = some (.opening kind)) :
    Prints s (s.openBracket text) [.opening kind] where
  brackets := by
    simp only [brackets, openBracket, print, List.filterMap_append,
      List.filterMap_cons, htext, List.filterMap_nil]
  indentLevel := rfl

theorem prints_closeBracket (s : FunctionCFGVisitor) {text : String} {kind : BracketKind}
    (htext : ∀ level, (CfgLine.bracket level text).toBracket = some (.closing kind)) :
    Prints s (s.closeBracket text) [.closing kind] where
  brackets := by
    simp only [brackets, closeBracket, print, List.filterMap_append,
      List.filterMap_cons, htext, List.filterMap_nil]
  indentLevel := rfl

variable (h : Heap) (o : IterationOrder) (options : PrintOptions)

/-- What `printEntry` prints. -/
def entryBrackets (u : VertexPtr) : List (Bracket BracketKind) :=
  if (h.vertex u).statement = .entry then [.opening .function] else []

/-- What `printBranches` prints. -/
def branchBrackets (u : VertexPtr) (e : EdgePtr) : List (Bracket BracketKind) :=
  let fid := filteredInDegree' h o.inEdges u
  if fid = 1 then
    if (h.vertex (h.edge e).source).statement.isDecisionStatement then
      [.opening .branch]
    else []
  else if 2 < fid then List.replicate (fid - 2).toNat (.closing .branch)
  else []

/-- What `closeBranches` prints. -/
def closeBrackets (numVerticesPushed : Nat) (e : Option EdgePtr) :
    List (Bracket BracketKind) :=
  if numVerticesPushed = 0 then [.closing .branch]
  else if numVerticesPushed = 1 ∧
      ∃ d ∈ e, 1 < filteredInDegree' h o.inEdges (h.edge d).target then
    [.closing .branch]
  else []

theorem prints_printEntry (u : VertexPtr) (s : FunctionCFGVisitor) :
    Prints s (printEntry h u s) (entryBrackets h u) := by
  unfold printEntry entryBrackets
  split_ifs
  · exact prints_openBracket s fun _ => rfl
  · exact .refl s

theorem prints_closeBracket_iterate (n : Nat) (s : FunctionCFGVisitor) :
    Prints s ((closeBracket · "\x7d")^[n] s)
      (List.replicate n (.closing .branch)) := by
  induction n generalizing s with
  | zero => exact .refl s
  | succ n ih =>
      have hfirst : Prints s (s.closeBracket "\x7d") [.closing .branch] :=
        prints_closeBracket s fun _ => rfl
      exact hfirst.trans (ih _)

theorem prints_printBranches (u : VertexPtr) (e : EdgePtr) (s : FunctionCFGVisitor) :
    Prints s (printBranches h o u e s) (branchBrackets h o u e) := by
  unfold printBranches branchBrackets
  simp only
  split_ifs
  · exact prints_openBracket s fun _ => rfl
  · exact .refl s
  · exact prints_closeBracket_iterate _ s
  · exact .refl s

theorem prints_printStatement (u : VertexPtr) (s : FunctionCFGVisitor) :
    Prints s (printStatement h options u s) [] := by
  unfold printStatement
  simp only
  by_cases hprinted : (options.cfgVerbose ||
      (h.vertex u).statement.isDecisionStatement ||
        (h.vertex u).statement.isFunctionCall) = true
  · rw [if_pos hprinted]
    exact prints_print s rfl
  · rw [if_neg hprinted]
    exact .refl s

/-- A statement that calls nothing leaves the call stack alone. -/
theorem trackCall_of_calledFunction_eq_none {u : VertexPtr}
    (hu : (h.vertex u).statement.calledFunction = none) (s : FunctionCFGVisitor) :
    trackCall h u s = s := by
  unfold trackCall
  split
  · next g params heq =>
      rw [heq] at hu
      exact absurd hu (by simp [Statement.calledFunction])
  · rfl

theorem discoverVertex_prints {u : VertexPtr} {e : EdgePtr} {s t : FunctionCFGVisitor}
    {r : VertexReturnValue} (hu : (h.vertex u).statement.calledFunction = none)
    (hcall : discoverVertex h o options u e s = .ok (r, t)) :
    Prints s t (entryBrackets h u ++ branchBrackets h o u e) := by
  have ht : t = trackCall h u (printStatement h options u
      (printBranches h o u e (printEntry h u s))) :=
    (congrArg Prod.snd (Except.ok.inj hcall)).symm
  rw [trackCall_of_calledFunction_eq_none h hu] at ht
  rw [ht, ← List.append_nil (entryBrackets h u ++ branchBrackets h o u e)]
  exact ((prints_printEntry h u s).trans (prints_printBranches h o u e _)).trans
    (prints_printStatement h options u _)

/-- With only the frame of the printed function on the stack, and no call of its
own, an edge is skipped exactly when it is passed over. -/
theorem examineEdge_spec {ed : EdgePtr} {s t : FunctionCFGVisitor}
    {r : EdgeReturnValue} {frame : CallStackFrame}
    (hframes : s.callStack.callStack = [frame])
    (hframe : frame.functionCallWhichPushedThisFrame = null)
    (hsource : (h.vertex (h.edge ed).source).statement.calledFunction = none)
    (hnoCall : (h.edge ed).edgeType.isFunctionCall = false)
    (htype : (h.edge ed).edgeType.isIntraprocedural = true ∨
      (h.edge ed).edgeType.isFunctionCall = true ∨
        (h.edge ed).edgeType.isReturn = true)
    (hcall : examineEdge h ed s = .ok (r, t)) :
    (r = .terminateBranch ↔ ed ∈ h.passedOver) ∧ Prints s t [] := by
  have hr : r = if (skipEdge h ed s).1 then .terminateBranch else .ok :=
    (congrArg Prod.fst (Except.ok.inj hcall)).symm
  have ht : t = (skipEdge h ed s).2 := (congrArg Prod.snd (Except.ok.inj hcall)).symm
  have hfromCall : ∀ s, skipFromCall h s ed = (false, s) := by
    intro s
    unfold skipFromCall
    split
    · next g params heq =>
        rw [heq] at hsource
        exact absurd hsource (by simp [Statement.calledFunction])
    · rfl
  have hskip : ((skipEdge h ed s).1 = true ↔ ed ∈ h.passedOver) ∧
      Prints s (skipEdge h ed s).2 [] := by
    unfold skipEdge
    split_ifs with hself hback
    · exact ⟨iff_of_true rfl (Or.inl hself), .refl s⟩
    · exact ⟨iff_of_true rfl (Or.inr (Or.inl hback)), .refl s⟩
    · split
      · next c heq =>
          -- a `Return` edge is not that of the frame, which has no call
          have hout : ed ∈ h.passedOver :=
            Or.inr (Or.inr (by rw [heq]; rfl))
          have hreturn : s.skipReturn c = (true, s.print (.message "NULL")) := by
            unfold skipReturn
            rw [hframes]
            exact if_pos hframe
          rw [hreturn]
          exact ⟨iff_of_true rfl hout, prints_print s rfl⟩
      · next hother =>
          have hreturn : (h.edge ed).edgeType.isReturn = false := by
            cases hty : (h.edge ed).edgeType with
            | returnEdge c => exact absurd hty (hother c)
            | _ => rfl
          have hintra : (h.edge ed).edgeType.isIntraprocedural = true := by
            rcases htype with h | h | h
            · exact h
            · exact absurd h (by rw [hnoCall]; decide)
            · exact absurd h (by rw [hreturn]; decide)
          rw [hfromCall]
          refine ⟨iff_of_false Bool.false_ne_true ?_, .refl s⟩
          rintro (h | h | h)
          · exact hself h
          · exact hback h
          · rw [hintra] at h
            exact absurd h (by decide)
  rw [hr, ht]
  refine ⟨?_, hskip.2⟩
  rw [← hskip.1]
  by_cases hanswer : (skipEdge h ed s).1 = true
  · rw [if_pos hanswer]
    exact iff_of_true rfl hanswer
  · rw [if_neg hanswer]
    exact iff_of_false (by decide) hanswer

/-- The end of a visit of anything but an EXIT. -/
theorem vertexVisitComplete_prints {u : VertexPtr} {n : Nat} {e : Option EdgePtr}
    {s t : FunctionCFGVisitor} (hu : (h.vertex u).statement ≠ .exit)
    (hcall : vertexVisitComplete h o options u n e s = .ok ((), t)) :
    Prints s t (closeBrackets h o n e) := by
  unfold vertexVisitComplete at hcall
  rw [if_neg hu] at hcall
  cases hclose : closeBranches h o n e s with
  | error err =>
      rw [hclose] at hcall
      exact absurd hcall (by simp [bind, Except.bind])
  | ok s' =>
      rw [hclose] at hcall
      obtain rfl : s' = t := congrArg Prod.snd (Except.ok.inj hcall)
      unfold closeBranches at hclose
      unfold closeBrackets
      split_ifs at hclose with h0 h1
      · rw [if_pos h0, ← Except.ok.inj hclose]
        exact prints_closeBracket s fun _ => rfl
      · rw [if_neg h0]
        cases e with
        | none => exact absurd hclose (by simp)
        | some d =>
            simp only [Except.ok.injEq] at hclose
            rw [← hclose]
            split_ifs with hmerge hcond hcond
            · exact prints_closeBracket s fun _ => rfl
            · exact absurd ⟨h1, d, rfl, hmerge⟩ hcond
            · obtain ⟨-, d', hd', hmerge'⟩ := hcond
              obtain rfl : d = d' := Option.some.inj hd'
              exact absurd hmerge' hmerge
            · exact .refl s
      · rw [if_neg h0, if_neg fun h => h1 h.1, ← Except.ok.inj hclose]
        exact .refl s

end FunctionCFGVisitor

/-! ## The visit as Kahn's algorithm -/

namespace PrintControlFlowGraph

/-- A function of a program which calls nothing and has no unmarked edge that
comes back to its own source. -/
structure CallFree (functions : List FunctionPtr) (home : VertexPtr → FunctionPtr)
    (h : Heap) (f : FunctionPtr) : Prop where
  flow : ProgramFlow functions home h
  mem : f ∈ functions
  calls : ∀ v, home v = f → (h.vertex v).statement.calledFunction = none
  ends_ne : ∀ e, (h.edge e).source ≠ null → home (h.edge e).source = f →
    (h.edge e).isBackEdge = false → (h.edge e).source ≠ (h.edge e).target

section

variable {functions : List FunctionPtr} {home : VertexPtr → FunctionPtr} {h : Heap}
  {f : FunctionPtr} {o : IterationOrder} {cfgVerbose cfgVertexIds : Bool}

/-- No edge out of the function is a call. -/
theorem CallFree.isFunctionCall (hf : CallFree functions home h f) {e : EdgePtr}
    (hsource : (h.edge e).source ≠ null) (hhome : home (h.edge e).source = f) :
    (h.edge e).edgeType.isFunctionCall = false := by
  cases htype : (h.edge e).edgeType with
  | functionCall c g =>
      obtain ⟨hc, -, params, hst, -⟩ := hf.flow.callEdge e c g hsource htype
      have hnone := hf.calls c (hc ▸ hhome)
      rw [hst] at hnone
      exact absurd hnone (by simp [Statement.calledFunction])
  | _ => rfl

/-- An edge that is followed leads to a vertex of the function other than its
ENTRY. -/
theorem CallFree.target (hf : CallFree functions home h f) {e : EdgePtr}
    (hsource : (h.edge e).source ≠ null) (hhome : home (h.edge e).source = f)
    (he : e ∉ h.passedOver) :
    home (h.edge e).target = f ∧
      (h.edge e).target ≠ (h.function f).entryVertexDesc := by
  have hintra : (h.edge e).edgeType.isIntraprocedural = true := by
    by_contra hnot
    exact he (Or.inr (Or.inr (Bool.not_eq_true _ ▸ hnot)))
  constructor
  · rw [hf.flow.home_eq_home e hsource hintra, hhome]
  · intro htarget
    have hself := hf.flow.enter e hsource hintra (by rw [hhome]; exact htarget)
    apply he
    left
    rw [hself, hhome, hf.flow.entrySelf f hf.mem]

/-- Nothing that is followed leads to the ENTRY. -/
theorem CallFree.entry_inEdges (hf : CallFree functions home h f) :
    h.inEdgesOutside h.passedOver (h.function f).entryVertexDesc = ∅ := by
  rw [Finset.eq_empty_iff_forall_notMem]
  intro e hmem
  obtain ⟨hin, he⟩ := Finset.mem_filter.mp hmem
  have hc := hf.flow.consistent
  have hsource := hc.source_ne_null_of_mem hin
  have htarget := hc.target_eq_of_mem hin
  have hintra : (h.edge e).edgeType.isIntraprocedural = true := by
    by_contra hnot
    exact he (Or.inr (Or.inr (Bool.not_eq_true _ ▸ hnot)))
  have hhome : home (h.edge e).source = f := by
    rw [← hf.flow.home_eq_home e hsource hintra, htarget, hf.flow.home_entry hf.mem]
  exact (hf.target hsource hhome he).2 htarget

/-- What is counted of a vertex are the edges that are followed. -/
theorem CallFree.filteredInDegree_eq (hf : CallFree functions home h f)
    {v : VertexPtr} (hv : home v = f) (hentry : v ≠ (h.function f).entryVertexDesc)
    (o : SetOrder) :
    filteredInDegree h o v false = (h.inEdgesOutside h.passedOver v).card := by
  have hc := hf.flow.consistent
  have hnoCall := hf.flow.inEdges_notCall (v := v) (by rw [hv]; exact hentry)
  rw [filteredInDegree_eq_card hnoCall, Int.natCast_inj, Heap.filteredInEdges,
    Heap.inEdgesOutside]
  congr 1
  apply Finset.filter_congr
  intro e he
  have hsource := hc.source_ne_null_of_mem he
  have htarget := hc.target_eq_of_mem he
  constructor
  · rintro ⟨hback, hreturn⟩
    have hintra : (h.edge e).edgeType.isIntraprocedural = true := by
      rcases hf.flow.edgeType e hsource with htype | htype | htype
      · exact htype
      · exact absurd htype (by rw [hnoCall e he]; decide)
      · exact absurd htype (by rw [hreturn]; decide)
    have hhome : home (h.edge e).source = f := by
      rw [← hf.flow.home_eq_home e hsource hintra, htarget, hv]
    rintro (hself | hmark | htype)
    · exact hf.ends_ne e hsource hhome hback hself
    · rw [hback] at hmark
      exact absurd hmark (by decide)
    · rw [hintra] at htype
      exact absurd htype (by decide)
  · intro hout
    constructor
    · by_contra hmark
      exact hout (Or.inr (Or.inl (Bool.not_eq_false _ ▸ hmark)))
    · cases htype : (h.edge e).edgeType with
      | returnEdge c =>
          exact absurd (Or.inr (Or.inr (by rw [htype]; rfl))) hout
      | _ => rfl

/-- The brackets the next step prints, as long as nothing goes wrong. -/
def State.nextBrackets (h : Heap) (o : IterationOrder) (s : State) :
    List (Bracket BracketKind) :=
  match s.visiting with
  | none =>
      match s.noRemainingInEdgesSet with
      | [] => []
      | e :: _ =>
          FunctionCFGVisitor.entryBrackets h (h.edge e).target ++
            FunctionCFGVisitor.branchBrackets h o (h.edge e).target e
  | some x =>
      if x.ei = [] then
        FunctionCFGVisitor.closeBrackets h o x.numVerticesPushed x.firstEdgePushed
      else []

/-- A state of the visit goes along with a state of Kahn's algorithm. -/
structure Follows (home : VertexPtr → FunctionPtr) (h : Heap) (o : IterationOrder)
    (f : FunctionPtr) (s : State) (k : KahnVisit.State VertexPtr EdgePtr) : Prop where
  stop : s.stop = none
  ready : k.ready = s.noRemainingInEdgesSet
  pending : k.pending = s.visiting.map (·.ei)
  remaining : ∀ v, home v = f → v ≠ (h.function f).entryVertexDesc →
    k.remaining v = s.inDegreeMap.lookup (filteredInDegree h o.inEdges · false) v
  frames : ∃ frame, s.frames = [frame] ∧
    frame.functionCallWhichPushedThisFrame = null
  visiting : ∀ x, s.visiting = some x → home x.u = f ∧
    ∀ e ∈ x.ei, e ∈ (h.vertex x.u).outEdges
  home_target : ∀ e ∈ s.noRemainingInEdgesSet, home (h.edge e).target = f

/-- What goes wrong is the end of a visit, and it leaves the output alone. -/
theorem visitor_eq_of_stop {s t : State}
    (hstep : step h o f cfgVerbose cfgVertexIds s = some t) (ht : t.stop ≠ none) :
    t.visitor = s.visitor ∧ s.visiting ≠ none := by
  obtain ⟨hstop, hcases⟩ := TopologicalVisitKahn.step_cases _ _ _ _ hstep
  rcases hcases with ⟨-, e, rest, -, rfl⟩ | ⟨x, hvisiting, ⟨-, rfl⟩ | ⟨e, ei, -, rfl⟩⟩
  · exact absurd hstop ht
  · rw [hvisiting]
    unfold TopologicalVisitKahn.complete at ht ⊢
    cases hcall : (visitor h o f cfgVerbose cfgVertexIds).vertexVisitComplete x.u
        x.numVerticesPushed x.firstEdgePushed s.visitor with
    | error err =>
        rw [TopologicalVisitKahn.visit_error hcall]
        exact ⟨rfl, Option.some_ne_none x⟩
    | ok p =>
        rw [TopologicalVisitKahn.visit_ok hcall] at ht
        exact absurd hstop ht
  · obtain ⟨r, visitor', hcall⟩ : ∃ r visitor', (visitor h o f cfgVerbose
        cfgVertexIds).examineEdge e s.visitor = .ok (r, visitor') := ⟨_, _, rfl⟩
    unfold TopologicalVisitKahn.examine TopologicalVisitKahn.remove at ht
    rw [TopologicalVisitKahn.visit_ok hcall] at ht
    dsimp only at ht
    split_ifs at ht
    · exact absurd hstop ht
    · exact absurd hstop ht
    · exact absurd hstop ht

/-- The EXIT of the printed function cannot be completed. -/
theorem statement_ne_exit {s : FunctionCFGVisitor} {u : VertexPtr} {n : Nat}
    {e : Option EdgePtr} {t : FunctionCFGVisitor} {frame : CallStackFrame}
    (hframes : s.callStack.callStack = [frame])
    (hframe : frame.functionCallWhichPushedThisFrame = null)
    (hcall : (visitor h o f cfgVerbose cfgVertexIds).vertexVisitComplete u n e s =
      .ok ((), t)) : (h.vertex u).statement ≠ .exit := by
  intro hexit
  obtain ⟨hpop, -⟩ :=
    (FunctionCFGVisitor.vertexVisitComplete_completes h o _ hcall).pops hexit
  unfold DFSCallStack.popCallStack at hpop
  rw [hframes] at hpop
  simp only [hframe, if_true] at hpop
  exact absurd hpop (by simp)

/-- A step is one of Kahn's algorithm, unless the EXIT is completed. -/
theorem follows_step (hf : CallFree functions home h f) {s t : State}
    {k : KahnVisit.State VertexPtr EdgePtr} (hs : Follows home h o f s k)
    (hstep : step h o f cfgVerbose cfgVertexIds s = some t) (ht : t.stop = none) :
    FunctionCFGVisitor.Prints s.visitor t.visitor (s.nextBrackets h o) ∧
      ∃ k', KahnVisit.Step (h.outgoing o.outEdges) h.passedOver
        (h.inEdgesOutside h.passedOver) k k' ∧ Follows home h o f t k' := by
  have hc := hf.flow.consistent
  obtain ⟨frame, hframes, hframe⟩ := hs.frames
  obtain ⟨-, hmoves⟩ := TopologicalVisitKahn.step_moves _ _ _ _ hstep
  -- an edge that is examined, and what the visitor does with it
  have hexamine : ∀ x e ei r visitor, s.visiting = some x → x.ei = e :: ei →
      FunctionCFGVisitor.examineEdge h e s.visitor = .ok (r, visitor) →
        ((h.edge e).source ≠ null ∧ home (h.edge e).source = f) ∧
          (r = .terminateBranch ↔ e ∈ h.passedOver) ∧
          FunctionCFGVisitor.Prints s.visitor visitor [] ∧ visitor.callStack = s.visitor.callStack ∧
          home x.u = f ∧ ∀ d ∈ ei, d ∈ (h.vertex x.u).outEdges := by
    intro x e ei r visitor hvisiting hei hcall
    obtain ⟨hhome, hout⟩ := hs.visiting x hvisiting
    rw [hei] at hout
    obtain ⟨hsource, hne⟩ := (hc.mem_outEdges x.u e).mp (hout e List.mem_cons_self)
    have hsourceNe : (h.edge e).source ≠ null := hsource ▸ hne
    have hhomeSource : home (h.edge e).source = f := hsource ▸ hhome
    have hspec := FunctionCFGVisitor.examineEdge_spec h hframes hframe
      (hf.calls _ hhomeSource) (hf.isFunctionCall hsourceNe hhomeSource)
      (hf.flow.edgeType e hsourceNe) hcall
    exact ⟨⟨hsourceNe, hhomeSource⟩, hspec.1, hspec.2,
      (FunctionCFGVisitor.examineEdge_sameCalls h hcall).callStack, hhome,
      fun d hd => hout d (List.mem_cons_of_mem e hd)⟩
  cases hmoves with
  | @discover e rest r visitor hvisiting hset hcall hr =>
      have hhome := hs.home_target e (hset ▸ List.mem_cons_self)
      have hprints := FunctionCFGVisitor.discoverVertex_prints h o _
        (hf.calls _ hhome) hcall
      have hsame := ((FunctionCFGVisitor.discoverVertex_discovers h o _ hcall).noCall
        (hf.calls _ hhome)).callStack
      have hpending : k.pending = none := by rw [hs.pending, hvisiting]; rfl
      have hready : k.ready = e :: rest := hs.ready.trans hset
      constructor
      · simp only [State.nextBrackets, hvisiting, hset]
        exact hprints
      · refine ⟨_, KahnVisit.Step.discover hpending hready, ?_⟩
        exact
          { stop := rfl
            ready := rfl
            pending := rfl
            remaining := hs.remaining
            frames := ⟨frame, by rw [State.frames, hsame]; exact hframes, hframe⟩
            visiting := fun x hx => by
              rw [← Option.some.inj hx]
              exact ⟨hhome, fun d hd => by rwa [SetOrder.mem_enum] at hd⟩
            home_target := fun d hd =>
              hs.home_target d (hset ▸ List.mem_cons_of_mem e hd) }
  | pass hvisiting hset hcall => exact absurd (discoverVertex_ok hcall) (by decide)
  | @skip x e ei visitor hvisiting hei hcall =>
      obtain ⟨-, hskip, hprints, hsame, hhome, hout⟩ :=
        hexamine x e ei _ visitor hvisiting hei hcall
      have hpending : k.pending = some (e :: ei) := by
        rw [hs.pending, hvisiting, Option.map_some, hei]
      constructor
      · simp only [State.nextBrackets, hvisiting, hei, reduceCtorEq, if_false]
        exact hprints
      · refine ⟨_, KahnVisit.Step.skip hpending (hskip.mp rfl), ?_⟩
        exact
          { stop := rfl
            ready := hs.ready
            pending := rfl
            remaining := hs.remaining
            frames := ⟨frame, by rw [State.frames, hsame]; exact hframes, hframe⟩
            visiting := fun y hy => by
              rw [← Option.some.inj hy]
              exact ⟨hhome, hout⟩
            home_target := hs.home_target }
  | @count x e ei r visitor m hvisiting hei hcall hr hid hmap =>
      obtain ⟨hsource, hskip, hprints, hsame, hhome, hout⟩ :=
        hexamine x e ei _ visitor hvisiting hei hcall
      have he : e ∉ h.passedOver := fun hmem => hr (hskip.mpr hmem)
      obtain ⟨htarget, hentry⟩ := hf.target hsource.1 hsource.2 he
      have hpending : k.pending = some (e :: ei) := by
        rw [hs.pending, hvisiting, Option.map_some, hei]
      have hremaining := hs.remaining _ htarget hentry
      constructor
      · simp only [State.nextBrackets, hvisiting, hei, reduceCtorEq, if_false]
        exact hprints
      · refine ⟨_, KahnVisit.Step.count hpending he ?_, ?_⟩
        · show k.remaining (h.edge e).target ≠ 1
          rw [hremaining]
          exact hid
        · exact
            { stop := rfl
              ready := hs.ready
              pending := rfl
              remaining := fun v hv hv' => by
                show Function.update k.remaining (h.edge e).target
                  (k.remaining (h.edge e).target - 1) v = _
                rw [TopologicalVisitKahn.lookup_update hmap, Option.getD_some, hremaining]
                by_cases heq : v = (h.edge e).target
                · rw [heq, Function.update_self, Function.update_self]
                · rw [Function.update_of_ne heq, Function.update_of_ne heq]
                  exact hs.remaining v hv hv'
              frames := ⟨frame, by rw [State.frames, hsame]; exact hframes, hframe⟩
              visiting := fun y hy => by
                rw [← Option.some.inj hy]
                exact ⟨hhome, hout⟩
              home_target := hs.home_target }
  | @push x e ei r r' visitor visitor' m hvisiting hei hcall hr hid hmap htree =>
      obtain ⟨hsource, hskip, hprints, hsame, hhome, hout⟩ :=
        hexamine x e ei _ visitor hvisiting hei hcall
      have he : e ∉ h.passedOver := fun hmem => hr (hskip.mpr hmem)
      obtain ⟨htarget, hentry⟩ := hf.target hsource.1 hsource.2 he
      have hpending : k.pending = some (e :: ei) := by
        rw [hs.pending, hvisiting, Option.map_some, hei]
      have hremaining := hs.remaining _ htarget hentry
      obtain rfl : visitor = visitor' := congrArg Prod.snd (Except.ok.inj htree)
      constructor
      · simp only [State.nextBrackets, hvisiting, hei, reduceCtorEq, if_false]
        exact hprints
      · refine ⟨_, KahnVisit.Step.push hpending he ?_, ?_⟩
        · show k.remaining (h.edge e).target = 1
          rw [hremaining]
          exact hid
        · exact
            { stop := rfl
              ready := by
                show e :: k.ready = _
                rw [hs.ready]
              pending := rfl
              remaining := fun v hv hv' => by
                show Function.update k.remaining (h.edge e).target
                  ((h.inEdgesOutside h.passedOver (h.edge e).target).card : Int) v = _
                rw [TopologicalVisitKahn.lookup_update hmap, Option.getD_none]
                by_cases heq : v = (h.edge e).target
                · rw [heq, Function.update_self, Function.update_self,
                    hf.filteredInDegree_eq htarget hentry]
                · rw [Function.update_of_ne heq, Function.update_of_ne heq]
                  exact hs.remaining v hv hv'
              frames := ⟨frame, by rw [State.frames, hsame]; exact hframes, hframe⟩
              visiting := fun y hy => by
                rw [← Option.some.inj hy]
                exact ⟨hhome, hout⟩
              home_target := fun d hd => by
                rcases List.mem_cons.mp hd with rfl | hd
                · exact htarget
                · exact hs.home_target d hd }
  | @complete x visitor hvisiting hei hcall =>
      have hexit := statement_ne_exit hframes hframe hcall
      have hprints := FunctionCFGVisitor.vertexVisitComplete_prints h o _ hexit hcall
      have hsame := ((FunctionCFGVisitor.vertexVisitComplete_completes h o _ hcall).same
        hexit).callStack
      have hpending : k.pending = some [] := by
        rw [hs.pending, hvisiting, Option.map_some, hei]
      constructor
      · simp only [State.nextBrackets, hvisiting, hei, if_true]
        exact hprints
      · refine ⟨_, KahnVisit.Step.complete hpending, ?_⟩
        exact
          { stop := rfl
            ready := hs.ready
            pending := rfl
            remaining := hs.remaining
            frames := ⟨frame, by rw [State.frames, hsame]; exact hframes, hframe⟩
            visiting := fun y hy => absurd hy (by simp)
            home_target := hs.home_target }
  | fault hfault => exact absurd ht hfault

/-! ## Runs -/

/-- No function bracket has been closed, and after the first step one is open. -/
def FunctionOpen (h : Heap) (f : FunctionPtr) (s : State) : Prop :=
  .closing .function ∉ s.visitor.brackets ∧
    (s.stop = none ∧ s.visiting = none ∧
        s.noRemainingInEdgesSet = [(h.function f).entryVertexSelfEdge] ∨
      .opening .function ∈ s.visitor.brackets)

/-- What holds of a state of the visit. -/
structure VisitInv (home : VertexPtr → FunctionPtr) (h : Heap) (o : IterationOrder)
    (f : FunctionPtr) (s : State) (k : KahnVisit.State VertexPtr EdgePtr) : Prop where
  follows : Follows home h o f s k
  kahn : KahnVisit.Inv (h.outgoing o.outEdges) (h.inEdgesOutside h.passedOver)
    (h.function f).entryVertexDesc k
  inUniverse : KahnVisit.InUniverse (h.outgoing o.outEdges)
    (Finset.range h.nextVertex) k

/-- The state of Kahn's algorithm at the start. -/
def kahnStart (h : Heap) (f : FunctionPtr) : KahnVisit.State VertexPtr EdgePtr :=
  KahnVisit.init (h.inEdgesOutside h.passedOver) (h.function f).entryVertexSelfEdge

theorem visitInv_start (hf : CallFree functions home h f)
    (howner : (h.vertex (h.function f).entryVertexDesc).owningFunction ≠ null) :
    VisitInv home h o f (start h o f cfgVerbose cfgVertexIds) (kahnStart h f) := by
  have hself := hf.flow.entrySelf f hf.mem
  obtain ⟨cfg, hstart⟩ := start_eq_of_stop
    (start_stop hf.flow hf.mem howner o cfgVerbose cfgVertexIds)
  have hinit : KahnVisit.Inv (h.outgoing o.outEdges) (h.inEdgesOutside h.passedOver)
      ((h.outgoing o.outEdges).target (h.function f).entryVertexSelfEdge)
      (kahnStart h f) := KahnVisit.Inv.init _
  have htarget : (h.outgoing o.outEdges).target (h.function f).entryVertexSelfEdge =
      (h.function f).entryVertexDesc := by
    show (h.edge _).target = _
    rw [hself]
  rw [htarget] at hinit
  refine ⟨?_, hinit, ?_⟩
  · rw [hstart]
    exact
      { stop := rfl
        ready := rfl
        pending := rfl
        remaining := fun v hv hentry => (hf.filteredInDegree_eq hv hentry _).symm
        frames := ⟨_, rfl, rfl⟩
        visiting := fun x hx => absurd hx (by simp)
        home_target := fun e he => by
          rw [List.mem_singleton.mp he, hself]
          exact hf.flow.home_entry hf.mem }
  · intro v hv
    have hv' : v = (h.edge (h.function f).entryVertexSelfEdge).target := by
      simpa [kahnStart, KahnVisit.init, Heap.outgoing] using hv
    rw [hv']
    exact Finset.mem_range.mpr (hf.flow.consistent.target_lt _)

/-- Every step leaves less work, unless something goes wrong in it. -/
theorem VisitInv.step (hf : CallFree functions home h f) {s t : State}
    {k : KahnVisit.State VertexPtr EdgePtr} (hs : VisitInv home h o f s k)
    (hstep : step h o f cfgVerbose cfgVertexIds s = some t) (ht : t.stop = none) :
    ∃ k', VisitInv home h o f t k' ∧
      KahnVisit.work (h.outgoing o.outEdges) (Finset.range h.nextVertex) k' <
        KahnVisit.work (h.outgoing o.outEdges) (Finset.range h.nextVertex) k := by
  have hc := hf.flow.consistent
  obtain ⟨-, k', hkahn, hfollows⟩ := follows_step hf hs.follows hstep ht
  obtain ⟨huniverse, hwork⟩ := hs.kahn.work_lt hs.inUniverse
    (TopologicalVisitKahn.target_mem_universe hc) hkahn
  have hinv := hs.kahn.step hc.outgoing_proper hc.inEdges hf.entry_inEdges hkahn
  exact ⟨k', ⟨hfollows, hinv, huniverse⟩, hwork⟩

/-- The visit ends. -/
theorem terminates_of_callFree (hf : CallFree functions home h f)
    (howner : (h.vertex (h.function f).entryVertexDesc).owningFunction ≠ null) :
    Terminates (step h o f cfgVerbose cfgVertexIds)
      (start h o f cfgVerbose cfgVertexIds) := by
  apply terminates_of_simulation
    (KahnVisit.work (h.outgoing o.outEdges) (Finset.range h.nextVertex))
    (fun s k t hs hstep => ?_) (visitInv_start hf howner)
  by_cases ht : t.stop = none
  · exact Or.inr (hs.step hf hstep ht)
  · left
    unfold step TopologicalVisitKahn.step
    rw [if_pos (Option.isSome_iff_ne_none.mpr ht)]

/-- As long as nothing goes wrong, no function bracket is closed. -/
theorem closing_notMem_nextBrackets (s : State) :
    .closing .function ∉ s.nextBrackets h o := by
  unfold State.nextBrackets
  cases s.visiting with
  | none =>
      cases s.noRemainingInEdgesSet with
      | nil => exact List.not_mem_nil
      | cons e rest =>
          simp only [FunctionCFGVisitor.entryBrackets, FunctionCFGVisitor.branchBrackets]
          split_ifs <;> simp
  | some x =>
      simp only [FunctionCFGVisitor.closeBrackets]
      split_ifs <;> simp

theorem FunctionOpen.step (hf : CallFree functions home h f) {s t : State}
    {k : KahnVisit.State VertexPtr EdgePtr} (hs : Follows home h o f s k)
    (hopen : FunctionOpen h f s)
    (hstep : step h o f cfgVerbose cfgVertexIds s = some t) : FunctionOpen h f t := by
  by_cases ht : t.stop = none
  · obtain ⟨hprints, -⟩ := follows_step hf hs hstep ht
    unfold FunctionOpen
    rw [hprints.brackets, List.mem_append, List.mem_append, not_or]
    refine ⟨⟨hopen.1, closing_notMem_nextBrackets s⟩, Or.inr ?_⟩
    rcases hopen.2 with ⟨-, hvisiting, hset⟩ | hmem
    · -- the first vertex is the ENTRY
      right
      simp only [State.nextBrackets, hvisiting, hset]
      rw [hf.flow.entrySelf f hf.mem, FunctionCFGVisitor.entryBrackets,
        if_pos (hf.flow.entryStatement hf.mem)]
      exact List.mem_append_left _ List.mem_cons_self
    · exact Or.inl hmem
  · obtain ⟨hsame, hvisiting⟩ := visitor_eq_of_stop hstep ht
    unfold FunctionOpen
    rw [hsame]
    refine ⟨hopen.1, Or.inr (hopen.2.resolve_left fun hstart => ?_)⟩
    exact hvisiting hstart.2.1

/-- In every state of a run a function bracket is open, or about to be. -/
theorem functionOpen_of_reaches (hf : CallFree functions home h f)
    (howner : (h.vertex (h.function f).entryVertexDesc).owningFunction ≠ null)
    {s : State} (hs : Reaches (step h o f cfgVerbose cfgVertexIds)
      (start h o f cfgVerbose cfgVertexIds) s) :
    FunctionOpen h f s ∧ (s.stop = none → ∃ k, VisitInv home h o f s k) := by
  have hinv : VisitInv home h o f (start h o f cfgVerbose cfgVertexIds)
      (kahnStart h f) := visitInv_start hf howner
  obtain ⟨cfg, hstart⟩ := start_eq_of_stop hinv.follows.stop
  refine hs.invariant (P := fun s => FunctionOpen h f s ∧
    (s.stop = none → ∃ k, VisitInv home h o f s k)) ?_ ⟨?_, fun _ => ⟨_, hinv⟩⟩
  · intro t u ht hstep
    have hstop := (TopologicalVisitKahn.step_moves _ _ _ _ hstep).1
    obtain ⟨k, hk⟩ := ht.2 hstop
    refine ⟨ht.1.step hf hk.follows hstep, fun hu => ?_⟩
    obtain ⟨k', hk', -⟩ := hk.step hf hstep hu
    exact ⟨k', hk'⟩
  · rw [hstart]
    exact ⟨List.not_mem_nil, Or.inl ⟨rfl, rfl, rfl⟩⟩

end

/-- What `PrintControlFlowGraph` prints is properly nested: the level never
becomes negative, each closing bracket matches the innermost open one, and at
the end nothing is open and the level is zero. -/
structure ProperlyNested (h : Heap) (o : IterationOrder) (f : FunctionPtr)
    (cfgVerbose cfgVertexIds : Bool) : Prop where
  level_nonneg : ∀ s, Reaches (step h o f cfgVerbose cfgVertexIds)
    (start h o f cfgVerbose cfgVertexIds) s → 0 ≤ s.visitor.indentLevel
  matched : ∀ s, Reaches (step h o f cfgVerbose cfgVertexIds)
    (start h o f cfgVerbose cfgVertexIds) s → Matched s.visitor.brackets
  closed : ∀ s, Reaches (step h o f cfgVerbose cfgVertexIds)
    (start h o f cfgVerbose cfgVertexIds) s →
      step h o f cfgVerbose cfgVertexIds s = none →
        Balanced s.visitor.brackets ∧ s.visitor.indentLevel = 0

theorem LinkedProgram.callFree {p : Program} (hp : LinkedProgram p) {f : FunctionPtr}
    (hf : f ∈ p.functions)
    (hcalls : ∀ v ∈ (p.heap.graph f).vertices,
      (p.heap.vertex v).statement.calledFunction = none)
    (hacyclic : Acyclic (p.heap.UnmarkedStep f)) :
    ∃ home, CallFree p.functions home p.heap f := by
  obtain ⟨home, hflow, -⟩ := hp.flow
  refine ⟨home, hflow, hf, fun v hv => ?_, fun e hsource hhome hback hself => ?_⟩
  · cases hcalled : (p.heap.vertex v).statement.calledFunction with
    | none => rfl
    | some g =>
        obtain ⟨params, hst⟩ := Statement.calledFunction_eq_some.mp hcalled
        have hmem := (hflow.resolved v g params (hv ▸ hf) hst).2
        rw [hv] at hmem
        rw [hcalls v hmem] at hcalled
        exact absurd hcalled (by simp)
  · apply hacyclic (p.heap.edge e).source
    apply Relation.TransGen.single
    exact ⟨e, (hflow.mem_edges f hf e).mpr ⟨hsource, hhome⟩, rfl, hself.symm, hback⟩

/-- **What is printed of a function without resolved calls is never properly
nested**: the visit ends, and the bracket of the function is still open. -/
theorem not_properlyNested {p : Program} (hp : LinkedProgram p) {f : FunctionPtr}
    (hf : f ∈ p.functions)
    (hcalls : ∀ v ∈ (p.heap.graph f).vertices,
      (p.heap.vertex v).statement.calledFunction = none)
    (hacyclic : Acyclic (p.heap.UnmarkedStep f)) (o : IterationOrder)
    (cfgVerbose cfgVertexIds : Bool) :
    ¬ ProperlyNested p.heap o f cfgVerbose cfgVertexIds := by
  intro hnested
  obtain ⟨home, hfree⟩ := LinkedProgram.callFree hp hf hcalls hacyclic
  have howner : (p.heap.vertex (p.heap.function f).entryVertexDesc).owningFunction ≠
      null := by
    rw [hp.owningFunction_entry hf]
    exact fun heq => hfree.flow.null_notMem (heq ▸ hf)
  obtain ⟨s, hs, hend⟩ : Terminates (step p.heap o f cfgVerbose cfgVertexIds)
      (start p.heap o f cfgVerbose cfgVertexIds) := terminates_of_callFree hfree howner
  obtain ⟨⟨hclosing, hstarted⟩, -⟩ := functionOpen_of_reaches hfree howner hs
  have hcount := (hnested.closed s hs hend).1.count_eq .function
  rw [List.count_eq_zero.mpr hclosing, List.count_eq_zero] at hcount
  rcases hstarted with ⟨hstop, hvisiting, hset⟩ | hmem
  · -- the visit does not end before its first step
    have hstep : step p.heap o f cfgVerbose cfgVertexIds s = some _ :=
      TopologicalVisitKahn.step_of_discover _ _ _ _ hstop hvisiting hset
    rw [hend] at hstep
    exact absurd hstep (by simp)
  · exact hcount hmem

/-! ## A switch with three cases -/

/-- `switch (x) { A: B: C: }`. -/
def threeCases : List FunctionInfo :=
  [⟨"f.c", "f", [(.switchUnlinked ["A", "B", "C"], .unknown), (.label "A", .unknown),
    (.label "B", .unknown), (.label "C", .unknown)]⟩]

theorem not_properlyNested_threeCases :
    ∃ p, Program.parse blankMemory .ascending threeCases = .ok p ∧ 1 ∈ p.functions ∧
      (∀ v ∈ (p.heap.graph 1).vertices,
        (p.heap.vertex v).statement.calledFunction = none) ∧
      Acyclic (p.heap.UnmarkedStep 1) ∧
      ¬ ProperlyNested p.heap .ascending 1 true true := by
  have hcheck : (Program.parse blankMemory .ascending threeCases).Holds
      fun p => 1 ∈ p.functions ∧
        (∀ v ∈ (p.heap.graph 1).vertices,
          (p.heap.vertex v).statement.calledFunction = none) ∧
        ∀ e ∈ (p.heap.graph 1).edges, (p.heap.edge e).isBackEdge = false →
          [6, 4, 3, 2, 7, 5].idxOf (p.heap.edge e).target <
            [6, 4, 3, 2, 7, 5].idxOf (p.heap.edge e).source := by
    decide +kernel
  obtain ⟨p, hrun, hf, hcalls, hrank⟩ := hcheck
  have hacyclic : Acyclic (p.heap.UnmarkedStep 1) := by
    refine Acyclic.of_rank [6, 4, 3, 2, 7, 5].idxOf ?_
    rintro u v ⟨e, he, rfl, rfl, hback⟩
    exact hrank e he hback
  exact ⟨p, hrun, hf, hcalls, hacyclic,
    not_properlyNested (linkedProgram_of_parse (by decide) hrun) hf hcalls hacyclic
      .ascending true true⟩

/-- The switch opens one brace, and the labels `B` and `C`, where two ways
meet, close one each: the second stands against the bracket of the function. -/
theorem threeCases_not_properlyNested :
    ∃ p, LinkedProgram p ∧ 1 ∈ p.functions ∧
      (∀ v ∈ (p.heap.graph 1).vertices,
        (p.heap.vertex v).statement.calledFunction = none) ∧
      Acyclic (p.heap.UnmarkedStep 1) ∧
      (∀ v ∈ (p.heap.graph 1).vertices, Relation.ReflTransGen (p.heap.UnmarkedStep 1)
        (p.heap.function 1).entryVertexDesc v) ∧
      (∃ s, Reaches (step p.heap .ascending 1 false false)
          (start p.heap .ascending 1 false false) s ∧ s.stop = none ∧
        ¬ Matched s.visitor.brackets) ∧
      ¬ ProperlyNested p.heap .ascending 1 false false := by
  have hcheck : (Program.parse blankMemory .ascending threeCases).Holds
      fun p => 1 ∈ p.functions ∧
        (∀ v ∈ (p.heap.graph 1).vertices,
          (p.heap.vertex v).statement.calledFunction = none) ∧
        (∀ e ∈ (p.heap.graph 1).edges, (p.heap.edge e).isBackEdge = false →
          [6, 4, 3, 2, 7, 5].idxOf (p.heap.edge e).target <
            [6, 4, 3, 2, 7, 5].idxOf (p.heap.edge e).source) ∧
        ((p.heap.graph 1).vertices ⊆ {5, 7, 2, 3, 4, 6} ∧
          (p.heap.function 1).entryVertexDesc = 5 ∧
          p.heap.UnmarkedStep 1 5 7 ∧ p.heap.UnmarkedStep 1 7 2 ∧
          p.heap.UnmarkedStep 1 7 3 ∧ p.heap.UnmarkedStep 1 7 4 ∧
          p.heap.UnmarkedStep 1 4 6) ∧
        (run (step p.heap .ascending 1 false false) 15
          (start p.heap .ascending 1 false false)).stop.isNone = true ∧
        scan [] (run (step p.heap .ascending 1 false false) 15
          (start p.heap .ascending 1 false false)).visitor.brackets = none := by
    decide +kernel
  obtain ⟨p, hrun, hf, hcalls, hrank, ⟨hvertices, hentry, h57, h72, h73, h74, h46⟩,
    hstop, hscan⟩ := hcheck
  have hunmatched : ¬ Matched (run (step p.heap .ascending 1 false false) 15
      (start p.heap .ascending 1 false false)).visitor.brackets := by
    rw [Matched, hscan]
    decide
  refine ⟨p, linkedProgram_of_parse (by decide) hrun, hf, hcalls,
    Acyclic.of_rank [6, 4, 3, 2, 7, 5].idxOf ?_, fun v hv => ?_,
    ⟨_, reaches_run 15 _, Option.isNone_iff_eq_none.mp hstop, hunmatched⟩,
    fun hnested => hunmatched (hnested.matched _ (reaches_run 15 _))⟩
  · rintro u v ⟨e, he, rfl, rfl, hback⟩
    exact hrank e he hback
  · have hswitch : Relation.ReflTransGen (p.heap.UnmarkedStep 1) 5 7 := .single h57
    rw [hentry]
    have hcases := hvertices hv
    simp only [Finset.mem_insert, Finset.mem_singleton] at hcases
    rcases hcases with rfl | rfl | rfl | rfl | rfl | rfl
    · exact .refl
    · exact hswitch
    · exact hswitch.tail h72
    · exact hswitch.tail h73
    · exact hswitch.tail h74
    · exact (hswitch.tail h74).tail h46

end PrintControlFlowGraph

end CoFlo.Ports
