import CoFlo.Ports.CallBrackets

/-!
# The indentation of the printed call chain

`PrintCallChain` counts ENTRY and EXIT vertices on its way along the path: one
level up where an edge leaves an ENTRY, one down where it leaves an EXIT.  The
path that `RunRule` has found enters and leaves functions as a program does, so
a line is indented by the number of calls that are open there, and two levels
for the source (`runRule_indentation`).
-/

namespace CoFlo.Ports

open CoFlo.Verified CoFlo.Verified.StepMachine
open CoFlo.Verified.ContextSearch (Realizable Threaded tip)
open ReachabilityVisitor (flow kind searchState_of_reaches
  stack_eq_nil_of_step_eq_none)

namespace RuleReachability

/-- The number of open calls behind an edge. -/
def depthBehind (h : Heap) (depth : Nat) (e : EdgePtr) : Nat :=
  match (h.edge e).edgeType with
  | .functionCall _ _ => depth + 1
  | .returnEdge _ => depth - 1
  | _ => depth

/-- The lines of a call chain, indented by the number of open calls. -/
def linesByDepth (h : Heap) : Nat → List EdgePtr → List ReportLine
  | _, [] => []
  | depth, e :: path =>
      (chainLine h (depth + 2) e).1.toList ++
        linesByDepth h (depthBehind h depth e) path

/-- The level `PrintCallChain` has come to at a vertex with this statement. -/
def levelAt (st : Statement) (depth : Nat) : Int :=
  if st = .entry then depth + 1 else depth + 2

/-- The same calls are open behind an edge that stays in its function. -/
theorem depthBehind_of_inner {h : Heap} {e : EdgePtr}
    (hcall : (h.edge e).edgeType.isFunctionCall = false)
    (hreturn : (h.edge e).edgeType.isReturn = false) (depth : Nat) :
    depthBehind h depth e = depth := by
  unfold depthBehind
  cases htype : (h.edge e).edgeType with
  | functionCall c g =>
      rw [htype] at hcall
      exact absurd hcall.symm Bool.false_ne_true
  | returnEdge c =>
      rw [htype] at hreturn
      exact absurd hreturn.symm Bool.false_ne_true
  | _ => rfl

theorem chainLine_snd (h : Heap) (level : Int) (e : EdgePtr) :
    (chainLine h level e).2 =
      if (h.vertex (h.edge e).source).statement = .entry then level + 1
      else if (h.vertex (h.edge e).source).statement = .exit then level - 1
      else level := by
  unfold chainLine
  cases hst : (h.vertex (h.edge e).source).statement <;>
    simp [Statement.isFunctionCall, Statement.isDecisionStatement, hst]

theorem callChain_cons (h : Heap) (e : EdgePtr) (path : List EdgePtr) :
    callChain h (e :: path) =
      if leavesUnresolvedCall h e then callChain h path
      else e :: callChain h path := by
  unfold callChain
  rw [List.filter_cons]
  cases leavesUnresolvedCall h e <;> rfl

/-- ENTRY is left without a line. -/
theorem chainLine_entry {h : Heap} {e : EdgePtr}
    (hst : (h.vertex (h.edge e).source).statement = .entry) (level : Int) :
    (chainLine h level e).1 = none := by
  rw [chainLine, hst]
  rfl

theorem chainLine_levelAt (h : Heap) (depth : Nat) (e : EdgePtr) :
    (chainLine h (levelAt (h.vertex (h.edge e).source).statement depth) e).1 =
      (chainLine h (depth + 2) e).1 := by
  by_cases hst : (h.vertex (h.edge e).source).statement = .entry
  · rw [chainLine_entry hst, chainLine_entry hst]
  · rw [levelAt, if_neg hst]

section edges

variable {functions : List FunctionPtr} {home : VertexPtr → FunctionPtr}
  {h : Heap} (hp : ProgramFlow functions home h) {e : EdgePtr}
  (he : (h.edge e).source ≠ null) (hkind : kind h e ≠ .closed)

include hp he

/-- Only calls lead to an ENTRY. -/
theorem target_entry_iff (hkind : kind h e ≠ .closed) :
    (h.vertex (h.edge e).target).statement = .entry ↔
      (h.edge e).edgeType.isFunctionCall = true := by
  constructor
  · intro hst
    have hhome := hp.home_target e he
    have htarget := (hp.statement_entry _ hhome).mp hst
    obtain ⟨c, g, _, _, htype, _⟩ := call_of_target hp hhome he hkind htarget
    rw [htype]
    rfl
  · intro htype
    cases hedge : (h.edge e).edgeType with
    | functionCall c g =>
        obtain ⟨hc, -, params, hst, htarget⟩ := hp.callEdge e c g he hedge
        have hhome := hp.home_source e he
        rw [hc] at hhome
        rw [htarget]
        exact hp.entryStatement (hp.resolved c g params hhome hst).1
    | _ =>
        rw [hedge] at htype
        exact absurd htype Bool.false_ne_true

/-- Only returns lead out of an EXIT. -/
theorem source_exit_iff (hkind : kind h e ≠ .closed) :
    (h.vertex (h.edge e).source).statement = .exit ↔
      (h.edge e).edgeType.isReturn = true := by
  constructor
  · intro hst
    have hsource := (hp.statement_exit _ (hp.home_source e he)).mp hst
    rcases hp.edgeType e he with hintra | hcall | hreturn
    · have hback := (hp.leave e he hintra hsource).2
      rw [(followed_of_kind hkind).2] at hback
      exact absurd hback Bool.false_ne_true
    · cases hedge : (h.edge e).edgeType with
      | functionCall c g =>
          obtain ⟨hc, -, params, hst', -⟩ := hp.callEdge e c g he hedge
          rw [hc, hst'] at hst
          exact absurd hst (by simp)
      | _ =>
          rw [hedge] at hcall
          exact absurd hcall Bool.false_ne_true
    · exact hreturn
  · intro htype
    cases hedge : (h.edge e).edgeType with
    | returnEdge c =>
        obtain ⟨hc, -, f, params, _, hst, hsource, -⟩ := hp.returnEdge e c he hedge
        rw [hsource]
        exact hp.exitStatement (hp.resolved c f params hc hst).1
    | _ =>
        rw [hedge] at htype
        exact absurd htype Bool.false_ne_true

/-- A call does not lead out of an ENTRY. -/
theorem source_ne_entry (htype : (h.edge e).edgeType.isFunctionCall = true) :
    (h.vertex (h.edge e).source).statement ≠ .entry := by
  intro hentry
  cases hedge : (h.edge e).edgeType with
  | functionCall c g =>
      obtain ⟨hc, -, params, hst, -⟩ := hp.callEdge e c g he hedge
      rw [hc, hst] at hentry
      exact absurd hentry (by simp)
  | _ =>
      rw [hedge] at htype
      exact absurd htype Bool.false_ne_true

include hkind

/-- One edge of the chain, and the calls that are open behind it. -/
theorem exists_calls {calls path : List EdgePtr}
    (hcloses : ClosesCalls h calls (e :: path)) :
    ∃ calls', ClosesCalls h calls' path ∧
      calls'.length = depthBehind h calls.length e ∧
        (chainLine h (levelAt (h.vertex (h.edge e).source).statement
          calls.length) e).2 =
            levelAt (h.vertex (h.edge e).target).statement calls'.length := by
  have hentry := target_entry_iff hp he hkind
  have hexit := source_exit_iff hp he hkind
  have hcall := source_ne_entry hp he
  rw [chainLine_snd]
  unfold ClosesCalls at hcloses
  unfold depthBehind levelAt
  cases htype : (h.edge e).edgeType with
  | functionCall c g =>
      rw [htype] at hcloses hentry hexit hcall
      refine ⟨e :: calls, hcloses, rfl, ?_⟩
      rw [if_neg (hcall rfl), if_neg (hcall rfl), if_pos (hentry.mpr rfl),
        if_neg fun hst => Bool.false_ne_true (hexit.mp hst), List.length_cons]
      omega
  | returnEdge c =>
      rw [htype] at hcloses hentry hexit
      cases calls with
      | nil => exact absurd hcloses id
      | cons d calls =>
          refine ⟨calls, hcloses.2, rfl, ?_⟩
          rw [if_neg fun hst => Bool.false_ne_true (hentry.mp hst),
            hexit.mpr rfl]
          simp only [reduceCtorEq, if_false, if_true, List.length_cons]
          omega
  | _ =>
      rw [htype] at hcloses hentry hexit
      refine ⟨calls, hcloses, rfl, ?_⟩
      rw [if_neg fun hst => Bool.false_ne_true (hentry.mp hst),
        if_neg fun hst => Bool.false_ne_true (hexit.mp hst)]
      split_ifs <;> omega

end edges

/-- Behind an edge that is left out of the chain the level is the same. -/
theorem level_of_leavesUnresolvedCall {functions : List FunctionPtr}
    {home : VertexPtr → FunctionPtr} {h : Heap} (hp : ProgramFlow functions home h)
    {e : EdgePtr} (he : (h.edge e).source ≠ null)
    (hleaves : leavesUnresolvedCall h e = true) {level : Int} {depth : Nat} :
    (chainLine h level e).2 = level ∧ depthBehind h depth e = depth := by
  obtain ⟨hcall, hreturn⟩ := not_call_of_leavesUnresolvedCall hp he hleaves
  constructor
  · unfold leavesUnresolvedCall at hleaves
    rw [chainLine_snd]
    cases hst : (h.vertex (h.edge e).source).statement with
    | functionCallUnresolved identifier params => rfl
    | _ =>
        rw [hst] at hleaves
        exact absurd hleaves Bool.false_ne_true
  · exact depthBehind_of_inner hcall hreturn depth

/-- The lines of a path that enters and leaves functions as a program does. -/
theorem chainLines_eq {functions : List FunctionPtr}
    {home : VertexPtr → FunctionPtr} {h : Heap} (hp : ProgramFlow functions home h)
    {d : EdgePtr} {path : List EdgePtr}
    (hchain : (d :: path).IsChain fun d e => (h.edge e).source = (h.edge d).target)
    (hpath : ∀ e ∈ path, (h.edge e).source ≠ null ∧ kind h e ≠ .closed)
    {calls : List EdgePtr} (hcloses : ClosesCalls h calls path) :
    chainLines h (levelAt (h.vertex (h.edge d).target).statement calls.length)
        (callChain h path) =
      linesByDepth h calls.length (callChain h path) := by
  induction path generalizing d calls with
  | nil => rfl
  | cons e path ih =>
      obtain ⟨hsource, hrest⟩ := List.isChain_cons_cons.mp hchain
      obtain ⟨he, hkind⟩ := hpath e List.mem_cons_self
      obtain ⟨calls', hcloses', hlength, hlevel⟩ := exists_calls hp he hkind hcloses
      have hih := ih hrest (fun d hd => hpath d (List.mem_cons_of_mem e hd)) hcloses'
      rw [← hlevel, hlength] at hih
      rw [← hsource]
      rw [callChain_cons]
      cases hleaves : leavesUnresolvedCall h e with
      | false =>
          rw [if_neg Bool.false_ne_true, chainLines, linesByDepth,
            chainLine_levelAt]
          exact congrArg _ hih
      | true =>
          rw [if_pos rfl]
          obtain ⟨hlevel', hdepth⟩ := level_of_leavesUnresolvedCall hp he hleaves
          rw [hlevel', hdepth] at hih
          exact hih

/-! ## The path of a violation -/

/-- The path behind a violation leads from ENTRY of the source to ENTRY of the
sink, as a program runs.  `RunRule` has put the self edge of the source in front
of it. -/
structure ReportedPath (h : Heap) (o : SetOrder) (source sink : FunctionPtr)
    (t : State) (path : List EdgePtr) : Prop where
  visitor : t.visitor = (h.function source).entryVertexSelfEdge :: path.reverse
  threaded : ∃ stack,
    Threaded (flow h o) (h.function source).entryVertexDesc stack path
  realizable : Realizable (flow h o) path
  tip : tip (flow h o) (h.function source).entryVertexDesc path =
    (h.function sink).entryVertexDesc

theorem exists_reportedPath {p : Program} (hp : LinkedProgram p)
    {source sink : FunctionPtr} (hsource : source ∈ p.functions)
    (hsink : sink ∈ p.functions) {o : SetOrder} {t : State}
    (ht : Reaches (step p.heap o sink) (start p.heap o source sink) t)
    (hend : step p.heap o sink t = none) (hviolation : violation t = true) :
    ∃ path, ReportedPath p.heap o source sink t path := by
  obtain ⟨home, hflow, hlinked⟩ := hp.flow
  have howner := hp.owningFunction_entry hsource
  cases searchState_of_reaches hflow hsource howner ht with
  | searching a _ hsim _ _ =>
      have hstack := stack_eq_nil_of_step_eq_none hsim hend
      unfold violation at hviolation
      rw [hsim.visitor, if_pos hstack] at hviolation
      exact absurd hviolation Bool.false_ne_true
  | found b hreach haligned hfound =>
      have hthread := haligned.resolve_left fun hnil => hfound.stack hnil.1
      have hne : source ≠ sink := by
        rintro rfl
        exact hfound.ne_nil (idle_of_reaches (decide_eq_true rfl) hreach).1
      rw [searchStart_of_ne hflow o hsource hsink hne] at hreach
      obtain ⟨n, rfl⟩ := hreach.exists_trajectory
      exact ⟨_, hfound.visitor, ⟨_, hthread⟩,
        ContextSearch.realizable_after (procedures hflow hlinked o)
          (by rw [hflow.home_entry hsource]) n,
        of_decide_eq_true hfound.tip⟩

section selfEdge

variable {functions : List FunctionPtr} {home : VertexPtr → FunctionPtr}
  {h : Heap} (hp : ProgramFlow functions home h) {source : FunctionPtr}
  (hsource : source ∈ functions)

include hp hsource

/-- No line is printed for the self edge in front. -/
theorem callChain_selfEdge (path : List EdgePtr) :
    callChain h ((h.function source).entryVertexSelfEdge :: path) =
        (h.function source).entryVertexSelfEdge :: callChain h path ∧
      linesByDepth h 0 ((h.function source).entryVertexSelfEdge :: path) =
        linesByDepth h 0 path := by
  have hself := hp.entrySelf source hsource
  have hfirst : (h.vertex (h.edge
      (h.function source).entryVertexSelfEdge).source).statement = .entry := by
    rw [hself, hp.entryStatement hsource]
  have hkeep : leavesUnresolvedCall h
      (h.function source).entryVertexSelfEdge = false := by
    rw [leavesUnresolvedCall, hfirst]
  have hdepth : depthBehind h 0 (h.function source).entryVertexSelfEdge = 0 := by
    rw [depthBehind, hself]
  constructor
  · rw [callChain_cons, hkeep, if_neg Bool.false_ne_true]
  · rw [linesByDepth, chainLine_entry hfirst, hdepth]
    rfl

/-- The lines that are printed are those of the path, by the calls open on it. -/
theorem ReportedPath.chainLines_eq {o : SetOrder} {sink : FunctionPtr} {t : State}
    {path : List EdgePtr} (ht : ReportedPath h o source sink t path) :
    chainLines h 0 (callChain h t.visitor) =
      linesByDepth h 0 (callChain h path.reverse) := by
  have hself := hp.entrySelf source hsource
  have hentry := hp.entryStatement hsource
  obtain ⟨stack, hthread⟩ := ht.threaded
  obtain ⟨hchain, -, hmem⟩ := chain_of_threaded hp
    (by rw [hself] : (h.edge (h.function source).entryVertexSelfEdge).target = _)
    hthread
  have hrest : ∀ calls, ClosesCalls h calls [] := fun _ => trivial
  have hcloses := closesCalls_append hp hmem ht.realizable (hrest _)
  rw [List.append_nil] at hcloses
  have hlines := RuleReachability.chainLines_eq hp hchain
    (fun e he => hmem e (List.mem_reverse.mp he)) hcloses
  have hfirst : (h.vertex (h.edge
      (h.function source).entryVertexSelfEdge).source).statement = .entry := by
    rw [hself, hentry]
  -- The self edge leads from ENTRY to ENTRY, one level up.
  rw [hself, hentry] at hlines
  rw [ht.visitor, (callChain_selfEdge hp hsource _).1, chainLines,
    chainLine_entry hfirst, chainLine_snd, hfirst]
  exact hlines

end selfEdge

/-- Every line of the call chain that is printed is indented by the number of
calls that are open there, behind two levels for the source. -/
theorem runRule_indentation {p : Program} (hp : LinkedProgram p)
    {source sink : FunctionPtr} (hsource : source ∈ p.functions)
    (hsink : sink ∈ p.functions) (o : SetOrder) {t : State}
    (ht : Reaches (step p.heap o sink) (start p.heap o source sink) t)
    (hend : step p.heap o sink t = none) (hviolation : violation t = true) :
    chainLines p.heap 0 (callChain p.heap t.visitor) =
      linesByDepth p.heap 0 (callChain p.heap t.visitor) := by
  obtain ⟨home, hflow, -⟩ := hp.flow
  obtain ⟨path, hpath⟩ := exists_reportedPath hp hsource hsink ht hend hviolation
  have hself := callChain_selfEdge hflow hsource
  rw [hpath.chainLines_eq hflow hsource, hpath.visitor, (hself _).1, (hself _).2]

theorem runRule_indentation_twoCalls :
    ∃ p t, LinkedProgram p ∧
      Reaches (step p.heap .descending 3) (start p.heap .descending 1 3) t ∧
      t.visitor = [4, 1, 12, 6, 13, 14] ∧
      chainLines p.heap 0 (callChain p.heap t.visitor) =
        linesByDepth p.heap 0 (callChain p.heap t.visitor) := by
  obtain ⟨p, t, hp, hfunctions, ht, hend, hvisitor, _⟩ := twoCalls_run
  exact ⟨p, t, hp, ht, hvisitor, runRule_indentation hp
    (by rw [hfunctions]; decide) (by rw [hfunctions]; decide) .descending ht hend
    (by rw [violation, hvisitor]; rfl)⟩

end RuleReachability

end CoFlo.Ports
