import CoFlo.Ports.Analysis
import CoFlo.Ports.CallChainLines
import CoFlo.Verified.Transcript

/-!
# The execution behind a report

`RunRule` reports a violation with the lines that `PrintCallChain` prints along
the path it has found.  They are the record of an execution of the statement
lists (`Shows`): every call of a function of the program that is come to has a
line with the text of the call, whether it is entered or run to its end, and
every decision has one with the way that is taken; nothing else has a line, and
a line is indented by the number of calls that are open.  When the functions
that may be called from the source return, there is such an execution from the
beginning of the source to the beginning of the sink (`runRule_tells`).
-/

namespace CoFlo.Ports

open CoFlo.Verified CoFlo.Verified.StepMachine Relation
open CoFlo.Verified.CallMachine (MayCall Returns Run)
open CoFlo.Verified.ContextSearch (Kind Realizable Walk openCalls openCalls_call
  openCalls_other openCalls_ret tip)
open CoFlo.Verified.Transcript (Tells tells_of_silent)
open ReachabilityVisitor (flow kind)

/-! ## Executions with a record -/

/-- How a call is written. -/
def Statement.callText : Statement → Option String
  | functionCallUnresolved identifier params =>
      some (identifier ++ "( " ++ params ++ " )")
  | _ => none

/-- How a decision is written. -/
def Statement.decisionText : Statement → Option String
  | ifUnlinked condition _ _ => some ("if(" ++ condition ++ ")")
  | switchUnlinked (_ :: _) => some "switch()"
  | _ => none

/-- What is written at a place of a function. -/
def textAt (fis : List FunctionInfo) (f : FunctionPtr)
    (text : Statement → Option String) : Place → Option String
  | .statement i => (statementsOf fis f)[i]?.bind text
  | _ => none

/-- What an observer notes of an execution who looks on at the functions that
have been entered, and not into those that are run to their ends. -/
inductive Shows (fis : List FunctionInfo) :
    List (FunctionPtr × Place) → List ReportLine → List (FunctionPtr × Place) →
      Prop where
  | pass {f : FunctionPtr} {x y : Place} {ty : EdgeType}
      {K : List (FunctionPtr × Place)} (hcall : callAt fis f x = none)
      (hdecision : textAt fis f Statement.decisionText x = none)
      (hflow : FlowsTo (statementsOf fis f) x ty y) :
      Shows fis ((f, x) :: K) [] ((f, y) :: K)
  | branch {f : FunctionPtr} {x y : Place} {ty : EdgeType} {text : String}
      {K : List (FunctionPtr × Place)} (location : Location)
      (hcall : callAt fis f x = none)
      (hdecision : textAt fis f Statement.decisionText x = some text)
      (hflow : FlowsTo (statementsOf fis f) x ty y) :
      Shows fis ((f, x) :: K)
        [.warning location (K.length + 2)
          (text ++ ", taking out edge \"" ++ ty.label ++ "\"")] ((f, y) :: K)
  | enter {f g : FunctionPtr} {x : Place} {text : String}
      {K : List (FunctionPtr × Place)} (location : Location)
      (hcall : callAt fis f x = some g)
      (htext : textAt fis f Statement.callText x = some text) :
      Shows fis ((f, x) :: K) [.warning location (K.length + 2) text]
        ((g, .entry) :: (f, x) :: K)
  | through {f g : FunctionPtr} {x y : Place} {ty : EdgeType} {text : String}
      {K : List (FunctionPtr × Place)} (location : Location)
      (hcall : callAt fis f x = some g)
      (htext : textAt fis f Statement.callText x = some text)
      (hreturns : Returns (sourceCode fis) g)
      (hflow : FlowsTo (statementsOf fis f) x ty y) :
      Shows fis ((f, x) :: K) [.warning location (K.length + 2) text] ((f, y) :: K)
  | leave {f g : FunctionPtr} {x y : Place} {ty : EdgeType}
      {K : List (FunctionPtr × Place)} (hcall : callAt fis f x = some g)
      (hflow : FlowsTo (statementsOf fis f) x ty y) :
      Shows fis ((g, .exit) :: (f, x) :: K) [] ((f, y) :: K)

/-- What is noted has been executed. -/
theorem Shows.run {fis : List FunctionInfo} {C D : List (FunctionPtr × Place)}
    {lines : List ReportLine} (h : Shows fis C lines D) :
    Run (sourceCode fis) C D := by
  cases h with
  | pass hcall _ hflow => exact .single (.flow hcall ⟨_, hflow⟩)
  | branch _ hcall _ hflow => exact .single (.flow hcall ⟨_, hflow⟩)
  | enter _ hcall _ => exact .single (.enter hcall)
  | through _ hcall _ hreturns hflow => exact hreturns.run hcall ⟨_, hflow⟩ _
  | leave hcall hflow => exact .single (.leave hcall ⟨_, hflow⟩)

/-- Gotos and labels are passed. -/
theorem Shows.of_goesThrough {fis : List FunctionInfo} {f : FunctionPtr}
    {x y : Place} (h : RuleReachability.GoesThrough (statementsOf fis f) x y)
    (K : List (FunctionPtr × Place)) : Shows fis ((f, x) :: K) [] ((f, y) :: K) := by
  obtain ⟨i, st, ty, rfl, hi, hredundant, hflow⟩ := h
  refine .pass ?_ ?_ hflow
  · rw [callAt, hi, Option.bind_some]
    cases st with
    | functionCallUnresolved _ _ => exact absurd hredundant Bool.false_ne_true
    | _ => rfl
  · rw [textAt, hi, Option.bind_some]
    cases st with
    | ifUnlinked _ _ _ => exact absurd hredundant Bool.false_ne_true
    | switchUnlinked caseList =>
        cases caseList with
        | nil => rfl
        | cons _ _ => exact absurd hredundant Bool.false_ne_true
    | _ => rfl

namespace RuleReachability

/-! ## The lines of one edge -/

/-- What is printed for an edge, if it is left in the chain. -/
def edgeLines (h : Heap) (depth : Nat) (e : EdgePtr) : List ReportLine :=
  if leavesUnresolvedCall h e then [] else (chainLine h (depth + 2) e).1.toList

section edgeLines

variable {h : Heap} {e : EdgePtr} {st : Statement}
  (hst : (h.vertex (h.edge e).source).statement = st) (depth : Nat)

include hst

theorem edgeLines_eq_nil (hcall : st.isFunctionCall = false)
    (hdecision : st.isDecisionStatement = false) : edgeLines h depth e = [] := by
  subst hst
  simp [edgeLines, chainLine, hcall, hdecision, apply_ite Prod.fst]

theorem edgeLines_unresolved {name params : String}
    (hcall : st = .functionCallUnresolved name params) : edgeLines h depth e = [] := by
  rw [edgeLines, leavesUnresolvedCall, hst, hcall]
  rfl

theorem edgeLines_resolved {g : FunctionPtr} {params : String}
    (hcall : st = .functionCallResolved g params) :
    edgeLines h depth e = [.warning (h.vertex (h.edge e).source).location (depth + 2)
      ((h.function g).functionId ++ "( " ++ params ++ " )")] := by
  rw [edgeLines, leavesUnresolvedCall, chainLine, hst, hcall]
  rfl

theorem edgeLines_decision (hdecision : st.isDecisionStatement = true) :
    edgeLines h depth e = [.warning (h.vertex (h.edge e).source).location (depth + 2)
      (st.identifierCFG h ++ ", taking out edge \"" ++ (h.edge e).edgeType.label ++
        "\"")] := by
  rw [edgeLines, leavesUnresolvedCall, chainLine, hst]
  cases st with
  | ifStatement condition => rfl
  | switchStatement => rfl
  | _ => exact absurd hdecision Bool.false_ne_true

end edgeLines

theorem StandsFor.canReach {fis : List FunctionInfo} {p : Program} {v : VertexPtr}
    {f : FunctionPtr} {x : Place} (hv : StandsFor fis p v f x) :
    CanReach (statementsOf fis f) .entry x := by
  obtain ⟨-, -, -, hx, -⟩ := hv
  exact hx

section places

variable {fis : List FunctionInfo} {p : Program} (hp : LinkedFrom fis p)
  {f : FunctionPtr} {x : Place} {v : VertexPtr}

include hp

/-- What is printed for an edge out of the vertex of a place: a line when there
is a known call or a decision. -/
theorem StandsFor.edgeLines_cases (hv : StandsFor fis p v f x) {e : EdgePtr}
    (hsource : (p.heap.edge e).source = v) (depth : Nat) :
    (callAt fis f x = none ∧ textAt fis f Statement.decisionText x = none ∧
        edgeLines p.heap depth e = []) ∨
      (∃ text location, callAt fis f x = none ∧
        textAt fis f Statement.decisionText x = some text ∧
          edgeLines p.heap depth e = [.warning location (depth + 2)
            (text ++ ", taking out edge \"" ++ (p.heap.edge e).edgeType.label ++
              "\"")]) ∨
        ∃ g text location, callAt fis f x = some g ∧
          textAt fis f Statement.callText x = some text ∧
            edgeLines p.heap depth e = [.warning location (depth + 2) text] := by
  obtain ⟨-, place, hl, hx, hmem, rfl⟩ := hv
  cases x with
  | entry =>
      have hst := hl.entry_statement
      rw [← hsource] at hst
      exact .inl ⟨rfl, rfl, edgeLines_eq_nil hst _ rfl rfl⟩
  | exit =>
      have hst := hl.exit_statement
      rw [← hsource] at hst
      exact .inl ⟨rfl, rfl, edgeLines_eq_nil hst _ rfl rfl⟩
  | statement i =>
      have hlt : i < (statementsOf fis f).length := hx.inRange trivial
      have hi := List.getElem?_eq_getElem hlt
      have hst := hl.statement i _ hi hmem
      have hparsed := hp.isParsed f _ (List.getElem_mem hlt)
      simp only [callAt, textAt, hi, Option.bind_some]
      generalize (statementsOf fis f)[i] = st at hst hparsed
      rw [← hsource] at hst
      cases st with
      | functionCallUnresolved name params =>
          cases hname : calledFunctionOf fis name with
          | none =>
              have hcall : Statement.resolvedWith (calledFunctionOf fis)
                  (.functionCallUnresolved name params) =
                    .functionCallUnresolved name params := by
                rw [Statement.resolvedWith, hname]
                rfl
              exact .inl ⟨hname, rfl, edgeLines_unresolved hst _ hcall⟩
          | some g =>
              have hcall : Statement.resolvedWith (calledFunctionOf fis)
                  (.functionCallUnresolved name params) =
                    .functionCallResolved g params := by
                rw [Statement.resolvedWith, hname]
                rfl
              obtain ⟨fi, hfi, hid⟩ := functionInfoOf_calledFunctionOf hname
              have hline := edgeLines_resolved hst depth hcall
              rw [(hp.namedAfter g fi hfi).1, hid] at hline
              exact .inr (.inr ⟨g, _, _, hname, rfl, hline⟩)
      | ifUnlinked condition nameTrue nameFalse =>
          exact .inr (.inl ⟨_, _, rfl, rfl, edgeLines_decision hst _ rfl⟩)
      | switchUnlinked caseList =>
          cases caseList with
          | nil => exact .inl ⟨rfl, rfl, edgeLines_eq_nil hst _ rfl rfl⟩
          | cons name rest =>
              exact .inr (.inl ⟨_, _, rfl, rfl, edgeLines_decision hst _ rfl⟩)
      | functionCallResolved _ _ | ifStatement _ | switchStatement =>
          exact absurd hparsed Bool.false_ne_true
      | _ => exact .inl ⟨rfl, rfl, edgeLines_eq_nil hst _ rfl rfl⟩

omit hp in
/-- Nothing is noted of what the graph has left out. -/
theorem tells_of_goesThrough {y z : Place}
    (hyz : ReflTransGen (GoesThrough (statementsOf fis f)) y z)
    (K : List (FunctionPtr × Place)) :
    Tells (Shows fis) ((f, y) :: K) [] ((f, z) :: K) :=
  tells_of_silent (ReflTransGen.lift (fun x => (f, x) :: K)
    (fun _ _ hstep => Shows.of_goesThrough hstep K) _ _ hyz)

/-- What an edge inside the function prints is what is noted when control goes
the way of the edge. -/
theorem StandsFor.tells_plain (hv : StandsFor fis p v f x) {e : EdgePtr}
    (hsource : (p.heap.edge e).source = v) {y z : Place}
    (hreturns : ∀ g, MayCall (sourceCode fis) f g → Returns (sourceCode fis) g)
    (hflow : FlowsTo (statementsOf fis f) x (p.heap.edge e).edgeType y)
    (hyz : ReflTransGen (GoesThrough (statementsOf fis f)) y z)
    (K : List (FunctionPtr × Place)) :
    Tells (Shows fis) ((f, x) :: K) (edgeLines p.heap K.length e) ((f, z) :: K) := by
  have hstep : Shows fis ((f, x) :: K) (edgeLines p.heap K.length e)
      ((f, y) :: K) := by
    rcases hv.edgeLines_cases hp hsource K.length with
      ⟨hcall, hdecision, hlines⟩ | ⟨text, location, hcall, hdecision, hlines⟩ |
        ⟨g, text, location, hcall, htext, hlines⟩
    all_goals rw [hlines]
    · exact .pass hcall hdecision hflow
    · exact .branch location hcall hdecision hflow
    · exact .through location hcall htext (hreturns g ⟨x, hv.canReach, hcall⟩) hflow
  have hall := (Tells.single hstep).trans (tells_of_goesThrough hyz K)
  rwa [List.append_nil] at hall

/-- What an edge into a function prints is its call. -/
theorem StandsFor.shows_call (hv : StandsFor fis p v f x) {e : EdgePtr}
    (hsource : (p.heap.edge e).source = v) {g : FunctionPtr}
    (hcall : callAt fis f x = some g) (K : List (FunctionPtr × Place)) :
    Shows fis ((f, x) :: K) (edgeLines p.heap K.length e)
      ((g, .entry) :: (f, x) :: K) := by
  rcases hv.edgeLines_cases hp hsource K.length with
    ⟨hnone, -⟩ | ⟨_, _, hnone, -⟩ | ⟨_, text, location, -, htext, hlines⟩
  · exact absurd (hnone.symm.trans hcall) (by simp)
  · exact absurd (hnone.symm.trans hcall) (by simp)
  · rw [hlines]
    exact .enter location hcall htext

end places

/-! ## Along the path -/

/-- The call that has been opened by the last edge of `q` is that of the place. -/
def Awaits (fis : List FunctionInfo) (p : Program) (q : List EdgePtr)
    (caller : FunctionPtr × Place) : Prop :=
  ∃ e c, q.head? = some e ∧ kind p.heap e = .call c ∧
    StandsFor fis p c caller.1 caller.2 ∧
      callAt fis caller.1 caller.2 = some (callee p.heap c)

/-- The program is where the path has come to, and has left the functions below
at the calls that are open on the path. -/
structure Follows (fis : List FunctionInfo) (p : Program) (o : SetOrder)
    (r : VertexPtr) (path : List EdgePtr) (f : FunctionPtr) (x : Place)
    (K : List (FunctionPtr × Place)) : Prop where
  stands : StandsFor fis p (tip (flow p.heap o) r path) f x
  awaits : List.Forall₂ (Awaits fis p) (openCalls (flow p.heap o) path) K

section ends

variable {fis : List FunctionInfo} {p : Program} {home : VertexPtr → FunctionPtr}
  (hflow : ProgramFlow p.functions home p.heap) {v : VertexPtr}
  {f g : FunctionPtr} {x y : Place} (hv : StandsFor fis p v f x)

include hflow hv

/-- The place of a vertex, when every way to assign places gives it this one. -/
theorem StandsFor.eq_of_forall (hhome : home v = g)
    (hy : y.InRange (statementsOf fis g).length)
    (hplace : ∀ place, FlowLinked fis place p.heap g → place y = v) :
    f = g ∧ x = y := by
  have hfg : f = g := by rw [← hv.home_eq hflow, hhome]
  subst hfg
  obtain ⟨-, place, hl, hx, hmem, hxv⟩ := hv
  exact ⟨rfl, hl.injective x y (hx.inRange trivial) hy hmem
    (hxv.trans (hplace place hl).symm)⟩

/-- Only the end of a function is at its EXIT. -/
theorem StandsFor.eq_exit (hg : g ∈ p.functions)
    (hexit : v = (p.heap.function g).exitVertexDesc) : f = g ∧ x = .exit :=
  hv.eq_of_forall hflow (by rw [hexit, hflow.home_exit hg]) trivial
    fun _ hl => hl.exit.trans hexit.symm

end ends

section path

variable {fis : List FunctionInfo} {p : Program} (hp : LinkedFrom fis p)
  (hw : ∀ f, WellLabelled (statementsOf fis f)) {home : VertexPtr → FunctionPtr}
  (hflow : ProgramFlow p.functions home p.heap)
  (hlinked : CallsLinked p.functions home p.heap) {o : SetOrder}
  {source : FunctionPtr}
  (hreturns : ∀ g, TransGen (MayCall (sourceCode fis)) source g →
    Returns (sourceCode fis) g)

include hp hw hflow hlinked hreturns

/-- Along one more edge of the path. -/
theorem Follows.step {r : VertexPtr} {path : List EdgePtr} {e : EdgePtr}
    {f : FunctionPtr} {x : Place} {K : List (FunctionPtr × Place)}
    (h : Follows fis p o r path f x K)
    (hrun : Run (sourceCode fis) [(source, .entry)] ((f, x) :: K))
    (hwalk : Walk (flow p.heap o) r (e :: path))
    (hreal : Realizable (flow p.heap o) (e :: path)) :
    ∃ g y L, Follows fis p o r (e :: path) g y L ∧
      Tells (Shows fis) ((f, x) :: K) (edgeLines p.heap K.length e) ((g, y) :: L) := by
  obtain ⟨-, he, hopen⟩ := hwalk
  have hsource := (source_of_mem_out hflow he).1
  have hcallees : ∀ g, MayCall (sourceCode fis) f g → Returns (sourceCode fis) g :=
    fun g hg => hreturns g (TransGen.tail' hrun.mayCall.1 hg)
  cases hkind : kind p.heap e with
  | closed => exact absurd hkind hopen
  | plain =>
      obtain ⟨y, z, hxy, hyz, hz⟩ := h.stands.plainEdge hflow he hkind
      refine ⟨f, z, K, ⟨hz, ?_⟩,
        h.stands.tells_plain hp hsource hcallees hxy hyz K⟩
      rw [openCalls_other (G := flow p.heap o) (e := e) ?_ ?_]
      · exact h.awaits
      all_goals
        intro c hc
        exact absurd (hkind.symm.trans hc) (by simp)
  | call c =>
      obtain ⟨htip, params, hst, htarget⟩ := callEdge_of_mem_out hflow he hkind
      have hc : StandsFor fis p c f x := htip ▸ h.stands
      have hcall : callAt fis f x = some (callee p.heap c) := by
        rw [hc.callAt_eq hp, hst]
        rfl
      have hhome : home c ∈ p.functions := by
        rw [hc.home_eq hflow]
        exact hc.1
      have hcallee := (hflow.resolved c _ params hhome hst).1
      refine ⟨callee p.heap c, .entry, (f, x) :: K, ⟨?_, ?_⟩,
        .single (h.stands.shows_call hp hsource hcall K)⟩
      · show StandsFor fis p (p.heap.edge e).target _ _
        rw [htarget]
        exact standsFor_entry hp hcallee (hw _)
      · rw [openCalls_call (G := flow p.heap o) hkind]
        exact .cons ⟨e, c, rfl, hkind, hc, hcall⟩ h.awaits
  | ret c =>
      obtain ⟨d, q, rest, hcalls, hd⟩ := hreal.2 c hkind
      have hawaits := h.awaits
      rw [hcalls] at hawaits
      cases hawaits with
      | @cons _ caller _ L hcaller hrest =>
          obtain ⟨d', c', hd', hkind', hc, hcall⟩ := hcaller
          obtain rfl := Option.some.inj hd'
          obtain rfl := Kind.call.inj (hkind'.symm.trans hd)
          obtain ⟨hexit, htip, -⟩ := (procedures hflow hlinked o).ret _ e he _ hkind
          have hcallee : callee p.heap c' ∈ p.functions := by
            rw [← htip, h.stands.home_eq hflow]
            exact h.stands.1
          obtain ⟨rfl, rfl⟩ := h.stands.eq_exit hflow hcallee hexit
          obtain ⟨ty, y, z, hxy, hyz, hz⟩ := hc.returnEdge hflow he hkind
          have hleave : Shows fis ((callee p.heap c', .exit) :: caller :: L) []
              ((caller.1, y) :: L) := .leave hcall hxy
          have hst : (p.heap.vertex (p.heap.edge e).source).statement = .exit := by
            rw [hsource, hexit]
            exact hflow.exitStatement hcallee
          refine ⟨caller.1, z, L, ⟨hz, ?_⟩, ?_⟩
          · rw [openCalls_ret (G := flow p.heap o) hkind, hcalls]
            exact hrest
          · rw [edgeLines_eq_nil hst _ rfl rfl]
            exact (Tells.single hleave).trans (tells_of_goesThrough hyz L)

end path

end RuleReachability

end CoFlo.Ports
