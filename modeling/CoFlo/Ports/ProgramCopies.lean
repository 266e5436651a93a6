import CoFlo.Ports.FlowKept
import CoFlo.Ports.FunctionCopies

/-!
# Which statement list a graph of a linked program comes from

The graph of each function of a linked program is a copy of the one that
`CreateControlFlowGraph` has made from the statements of that function, with
every call resolved whose name is that of a function of the program
(`LinkedFrom.exists_copy`).  The order in which the functions are linked does
not matter.
-/

namespace CoFlo.Ports

open CoFlo.Verified.FoldInvariant

/-! ## One function -/

/-- `k` is what `CreateControlFlowGraph` has made of a function with these
statements. -/
def IsBuiltFrom (statements : List Statement) (g : FunctionPtr) (k : Heap) :
    Prop :=
  ∃ (h : Heap) (l : List VertexPtr) (fixupOrder removalOrder : IterationOrder),
    h.Fresh g l ∧ h.statements l = statements ∧ (h.function g).theCfg = g ∧
      h.createControlFlowGraph fixupOrder removalOrder g l = .ok k

/-- The statement of a vertex before and after linking has gone some way. -/
def ResolvedFrom (functionMap : FunctionMap) (old new : Statement) : Prop :=
  new = old ∨ ∃ identifier f params,
    old = .functionCallUnresolved identifier params ∧
      functionMap identifier = some f ∧ new = .functionCallResolved f params

/-- The statement of a vertex when linking is over. -/
def Statement.resolvedWith (functionMap : FunctionMap) : Statement → Statement
  | functionCallUnresolved identifier params =>
      (functionMap identifier).elim (functionCallUnresolved identifier params)
        (functionCallResolved · params)
  | st => st

theorem ResolvedFrom.eq_resolvedWith {functionMap : FunctionMap}
    {old new : Statement} (h : ResolvedFrom functionMap old new)
    (hnew : new.resolution functionMap = none) :
    new = old.resolvedWith functionMap := by
  rcases h with rfl | ⟨identifier, f, params, rfl, hf, rfl⟩
  · cases new with
    | functionCallUnresolved identifier params =>
        have hnone : functionMap identifier = none := hnew
        rw [Statement.resolvedWith, hnone]
        rfl
    | _ => rfl
  · rw [Statement.resolvedWith, hf]
    rfl

/-- The function `g` is a copy of one built from `statements`, some calls of
which may have been resolved. -/
def CopiedFrom (statements : List Statement) (functionMap : FunctionMap)
    (g : FunctionPtr) (h : Heap) : Prop :=
  ∃ k ρ, IsBuiltFrom statements g k ∧ FunctionCopy g ρ k h ∧
    ∀ v ∈ (k.graph g).vertices, ResolvedFrom functionMap
      (k.vertex v).statement (h.vertex (ρ v)).statement

namespace CopiedFrom

variable {statements : List Statement} {functionMap : FunctionMap}
  {g : FunctionPtr} {h h' : Heap}

/-- What is read of a copy. -/
theorem congr (hcopied : CopiedFrom statements functionMap g h)
    (hcopy : ∀ ρ k, FunctionCopy g ρ k h → FunctionCopy g ρ k h')
    (hvertex : ∀ v ∈ (h.graph g).vertices,
      (h'.vertex v).statement = (h.vertex v).statement) :
    CopiedFrom statements functionMap g h' := by
  obtain ⟨k, ρ, hbuilt, hk, hst⟩ := hcopied
  refine ⟨k, ρ, hbuilt, hcopy ρ k hk, fun v hv => ?_⟩
  rw [hvertex (ρ v) (by rw [hk.vertices]; exact Finset.mem_image_of_mem ρ hv)]
  exact hst v hv

/-- One round of the second loop of `Link`. -/
theorem replaceCall {functions : List FunctionPtr}
    {home : VertexPtr → FunctionPtr} (hp : ProgramFlow functions home h)
    {this : FunctionPtr} (hthis : this ∈ functions) {p : VertexPtr × VertexPtr}
    (hcall : PendingCall functions home h this p) (hg : g ∈ functions)
    (hname : ∃ identifier f params,
      (h.vertex p.1).statement = .functionCallUnresolved identifier params ∧
        functionMap identifier = some f ∧
          (h.vertex p.2).statement = .functionCallResolved f params)
    (hcopied : CopiedFrom statements functionMap g h) {outEdges : SetOrder}
    (hrun : h.replaceCall outEdges this p = .ok h') :
    CopiedFrom statements functionMap g h' := by
  obtain ⟨k, ρ, hbuilt, hk, hst⟩ := hcopied
  obtain ⟨identifier, f, params, hold, hf, hnew⟩ := hname
  have hnotMem : p.2 ∉ (h.graph this).vertices := fun hmem =>
    hcall.home_notMem (by rw [hp.home_eq this hthis _ hmem]; exact hthis)
  have hdrawn := Heap.replaceCall_drawn hnotMem hrun
  refine ⟨k, _, hbuilt, hk.replaceCall hp hthis hcall hg hrun, fun v hv => ?_⟩
  rw [hdrawn.statement, Function.comp_apply]
  by_cases heq : ρ v = p.1
  · have hbefore := hst v hv
    rw [heq, hold] at hbefore
    rw [heq, renameVertex_self, hnew]
    rcases hbefore with hsame | ⟨_, _, _, _, _, hresolved⟩
    · exact .inr ⟨identifier, f, params, hsame.symm, hf, rfl⟩
    · exact absurd hresolved (by simp)
  · rw [renameVertex_of_ne _ heq]
    exact hst v hv

end CopiedFrom

/-! ## Building the functions -/

namespace Program

variable {memory : VertexPtr → Vertex} {orders : PassOrders} {p p' : Program}

theorem buildFunction_isBuiltFrom (hc : p.heap.Consistent) {fi : FunctionInfo}
    (hrun : buildFunction orders p fi = .ok p') :
    IsBuiltFrom fi.statements (p.functions.length + 1) p'.heap := by
  have hfresh := Heap.fresh_newFunction hc (p.functions.length + 1) fi.identifier
    fi.definitionFilePath fi.statementList
  have hallocated := functionAllocated p.heap (p.functions.length + 1)
    fi.identifier fi.definitionFilePath fi.statementList
  unfold Program.buildFunction at hrun
  simp only [bind, Except.bind, pure, Except.pure] at hrun
  split at hrun
  · exact absurd hrun (by simp)
  · rename_i hcreate
    obtain rfl := Except.ok.inj hrun
    exact ⟨_, _, _, _, hfresh, p.heap.statements_newStatements fi.statementList,
      hallocated.theCfg, hcreate⟩

/-- An old function is a copy still, and the new one is a copy of itself. -/
theorem Invariant.copiedFrom_buildFunction (hp : p.Invariant memory)
    {fi : FunctionInfo} (hfi : ∀ st ∈ fi.statementList, st.1.isParsed = true)
    (hrun : Program.buildFunction orders p fi = .ok p') (functionMap : FunctionMap) :
    CopiedFrom fi.statements functionMap (p.functions.length + 1) p'.heap ∧
      ∀ g ∈ p.functions, ∀ statements,
        CopiedFrom statements functionMap g p.heap →
          CopiedFrom statements functionMap g p'.heap := by
  obtain ⟨home, hflow, -⟩ := hp.flow
  have hbuilt := buildFunction_isBuiltFrom hflow.consistent hrun
  obtain ⟨this, k, h', l, hthis, hk, hfresh, hparsed, -, hcreate, rfl⟩ :=
    buildFunction_eq_ok hflow.consistent hfi hrun
  obtain ⟨N, hb⟩ := createControlFlowGraph_built hfresh hparsed hcreate
  rw [← hthis] at hbuilt ⊢
  refine ⟨⟨h', id, hbuilt, .refl fun e he => hb.edgeType e ?_,
    fun v _ => .inl rfl⟩, fun g hg statements hcopied => ?_⟩
  · rw [hk.theCfg]
    exact he
  · have hne : g ≠ this := by
      have hlt := ((hp.mem_functions g).mp hg).2
      rw [hthis, Nat.add_comm]
      exact Nat.ne_of_lt hlt
    have hstays := fun ρ k₀ (hcopy : FunctionCopy g ρ k₀ p.heap) =>
      hcopy.built hflow hg hne hk hb
    obtain ⟨k₀, ρ, _, hcopy, _⟩ := id hcopied
    exact hcopied.congr (fun ρ k₀ hcopy => (hstays ρ k₀ hcopy).1)
      (hstays ρ k₀ hcopy).2

/-- The statements of the first functions of a program. -/
theorem statementsOf_append {pre : List FunctionInfo} {g : FunctionPtr}
    (hg : g ≤ pre.length) (post : List FunctionInfo) :
    statementsOf (pre ++ post) g = statementsOf pre g := by
  cases g with
  | zero => rfl
  | succ i => rw [statementsOf, statementsOf, List.getElem?_append_left hg]

theorem copiedFrom_build {fis : List FunctionInfo}
    (hfis : ∀ fi ∈ fis, ∀ st ∈ fi.statementList, st.1.isParsed = true)
    (hrun : build memory orders fis = .ok p) (functionMap : FunctionMap) :
    ∀ g ∈ p.functions, CopiedFrom (statementsOf fis g) functionMap g p.heap := by
  have hbuilt := foldlM_ok_invariant hrun
    (fun pre p => p.Invariant memory ∧ p.functions.length = pre.length ∧
      ∀ g ∈ p.functions, CopiedFrom (statementsOf pre g) functionMap g p.heap)
    ⟨.initial memory, rfl, fun _ hg => absurd hg List.not_mem_nil⟩ ?_
  · exact hbuilt.2.2
  intro pre fi post p p' hl hinv hstep
  obtain ⟨hp, hlength, hcopied⟩ := hinv
  have hfi := hfis fi (by simp [hl])
  have hp' := hp.buildFunction hfi hstep
  obtain ⟨hnew, hold⟩ := hp.copiedFrom_buildFunction hfi hstep functionMap
  have hfunctions : p'.functions = p.functions ++ [p.functions.length + 1] := by
    obtain ⟨home, hflow, -⟩ := hp.flow
    obtain ⟨this, _, _, _, rfl, -, -, -, -, -, rfl⟩ :=
      buildFunction_eq_ok hflow.consistent hfi hstep
    rfl
  refine ⟨hp', by simp [hfunctions, hlength], fun g hg => ?_⟩
  rw [hfunctions] at hg
  rcases List.mem_append.mp hg with hg | hg
  · have hle : g ≤ pre.length := by
      have hlt := ((hp.mem_functions g).mp hg).2
      rw [hlength, Nat.add_comm] at hlt
      exact Nat.le_of_lt_succ hlt
    rw [statementsOf_append hle]
    exact hold g hg _ (hcopied g hg)
  · rw [List.mem_singleton.mp hg]
    have hlast : statementsOf (pre ++ [fi]) (p.functions.length + 1) =
        fi.statements := by
      rw [statementsOf, hlength, List.getElem?_concat_length]
      rfl
    rw [hlast]
    exact hnew

/-! ## Linking them -/

theorem Invariant.copiedFrom_linkFunction (hp : p.Invariant memory)
    {this : FunctionPtr} (hthis : this ∈ p.functions)
    (hrun : Program.linkFunction orders p this = .ok p') {g : FunctionPtr}
    (hg : g ∈ p.functions) {statements : List Statement}
    (hcopied : CopiedFrom statements p.functionMap g p.heap) :
    CopiedFrom statements p.functionMap g p'.heap := by
  obtain ⟨home, hflow, hlinked⟩ := hp.flow
  obtain ⟨h', home', hlink, -, -, -, hcopied'⟩ :=
    hflow.link_induction
      (Q := CopiedFrom statements p.functionMap g) hlinked hthis
      hp.functionMap_mem (orders.link this) p.unresolvedFunctionCalls
      (fun k hedge hgraph hfunction hvertex => by
        have hsame : ∀ v ∈ (p.heap.graph g).vertices,
            (k.vertex v).statement = (p.heap.vertex v).statement := by
          intro v hv
          rw [hvertex v (hp.lt_nextVertex hg hv)]
        exact hcopied.congr (fun ρ k₀ hcopy => hcopy.congr (by rw [hgraph])
          (by rw [hfunction]) (fun e _ => by rw [hedge]) hsame) hsame)
      fun home' q k k' hk hcall hname hQ hrun' =>
        hQ.replaceCall hk hthis hcall hg hname hrun'
  unfold Program.linkFunction at hrun
  rw [hlink] at hrun
  rw [← Except.ok.inj hrun]
  exact hcopied'

/-- No call that could be resolved is left in a function that is linked, and
none comes back. -/
theorem Invariant.resolution_linkFunction (hp : p.Invariant memory)
    {this : FunctionPtr} (hthis : this ∈ p.functions)
    (hrun : Program.linkFunction orders p this = .ok p') {g : FunctionPtr}
    (hg : g ∈ p.functions) (hdone : g = this ∨
      ∀ v ∈ (p.heap.graph g).vertices,
        (p.heap.vertex v).statement.resolution p.functionMap = none) :
    ∀ v ∈ (p'.heap.graph g).vertices,
      (p'.heap.vertex v).statement.resolution p.functionMap = none := by
  intro v hv
  obtain ⟨p₁, hrun', -, -, -, hlinked, -⟩ := hp.linkFunction orders hthis
  obtain rfl := Except.ok.inj (hrun'.symm.trans hrun)
  by_cases heq : g = this
  · subst heq
    rcases (hlinked.mem_vertices v).mp hv with ⟨hmem, hres⟩ | ⟨hle, hlt⟩
    · rw [hlinked.statement_old v (hp.lt_nextVertex hg hmem)]
      exact hres
    · obtain ⟨f, params, hst⟩ := hlinked.statement_new v hle hlt
      rw [hst]
      rfl
  · rw [hlinked.vertices_of_ne g heq] at hv
    rw [hlinked.statement_old v (hp.lt_nextVertex hg hv)]
    exact hdone.resolve_left heq v hv

end Program

/-! ## Whole programs -/

/-- The program that is parsed from `fis` and linked in some order. -/
def LinkedFrom (fis : List FunctionInfo) (p : Program) : Prop :=
  ∃ memory orders built, ∃ seq : List FunctionPtr,
    (∀ fi ∈ fis, ∀ st ∈ fi.statementList, st.1.isParsed = true) ∧
    Program.build memory orders fis = .ok built ∧
    seq.Perm built.functions ∧
    seq.foldlM (Program.linkFunction orders) built = .ok p

theorem linkedFrom_of_parse {memory : VertexPtr → Vertex} {orders : PassOrders}
    {fis : List FunctionInfo} {p : Program}
    (hfis : ∀ fi ∈ fis, ∀ st ∈ fi.statementList, st.1.isParsed = true)
    (hrun : Program.parse memory orders fis = .ok p) : LinkedFrom fis p := by
  unfold Program.parse at hrun
  cases hbuild : Program.build memory orders fis with
  | error err =>
      rw [hbuild] at hrun
      exact absurd hrun (by simp [bind, Except.bind])
  | ok built =>
      rw [hbuild] at hrun
      exact ⟨memory, orders, built, built.functions, hfis, hbuild,
        List.Perm.refl _, hrun⟩

namespace LinkedFrom

variable {fis : List FunctionInfo} {p : Program} (hp : LinkedFrom fis p)

include hp

theorem linkedProgram : LinkedProgram p := by
  obtain ⟨memory, orders, built, seq, hfis, hbuild, hseq, hlink⟩ := hp
  exact ⟨memory, orders, fis, built, seq, hfis, hbuild, hseq, hlink⟩

/-- The functions are numbered as they were parsed. -/
theorem functions_eq : p.functions = List.range' 1 fis.length := by
  obtain ⟨memory, orders, built, seq, hfis, hbuild, hseq, hlink⟩ := hp
  have hbuilt := Program.Invariant.build hfis hbuild
  obtain ⟨p', hrun, -, hfunctions, -⟩ := hbuilt.linkFunctions orders
    fun f hf => hseq.mem_iff.mp hf
  obtain rfl := Except.ok.inj (hrun.symm.trans hlink)
  rw [hfunctions, hbuilt.functions_eq, (functionMap_build hbuild).1]

/-- The graph of a function is a copy of the one made from its statements, with
the calls resolved. -/
theorem exists_copy {g : FunctionPtr} (hg : g ∈ p.functions) :
    ∃ k ρ, IsBuiltFrom (statementsOf fis g) g k ∧ FunctionCopy g ρ k p.heap ∧
      ∀ v ∈ (k.graph g).vertices, (p.heap.vertex (ρ v)).statement =
        (k.vertex v).statement.resolvedWith (calledFunctionOf fis) := by
  obtain ⟨memory, orders, built, seq, hfis, hbuild, hseq, hlink⟩ := hp
  have hbuilt := Program.Invariant.build hfis hbuild
  have hmap := (functionMap_build hbuild).2
  have hrun := foldlM_ok_invariant hlink
    (fun pre p => p.Invariant memory ∧ p.functions = built.functions ∧
      p.functionMap = built.functionMap ∧
      (∀ g ∈ built.functions,
        CopiedFrom (statementsOf fis g) built.functionMap g p.heap) ∧
      ∀ g ∈ pre, ∀ v ∈ (p.heap.graph g).vertices,
        (p.heap.vertex v).statement.resolution built.functionMap = none)
    ⟨hbuilt, rfl, rfl, Program.copiedFrom_build hfis hbuild _,
      fun _ hg => absurd hg List.not_mem_nil⟩ ?_
  · obtain ⟨-, hfunctions, -, hcopied, hdone⟩ := hrun
    rw [hfunctions] at hg
    obtain ⟨k, ρ, hk, hcopy, hst⟩ := hcopied g hg
    refine ⟨k, ρ, hk, hcopy, fun v hv => ?_⟩
    rw [← hmap]
    refine (hst v hv).eq_resolvedWith (hdone g (hseq.mem_iff.mpr hg) _ ?_)
    rw [hcopy.vertices]
    exact Finset.mem_image_of_mem ρ hv
  intro pre this post q q' hl hinv hstep
  obtain ⟨hq, hfunctions, hfunctionMap, hcopied, hdone⟩ := hinv
  have hmemSeq : ∀ g ∈ pre ++ [this], g ∈ q.functions := by
    intro g hg
    rw [hfunctions, ← hseq.mem_iff, hl]
    rcases List.mem_append.mp hg with hg | hg
    · exact List.mem_append_left _ hg
    · simp [List.mem_singleton.mp hg]
  have hthis : this ∈ q.functions := hmemSeq this (by simp)
  obtain ⟨q₁, hrun', hq₁, hfunctions₁, hmap₁, -, -⟩ := hq.linkFunction orders hthis
  obtain rfl := Except.ok.inj (hrun'.symm.trans hstep)
  refine ⟨hq₁, hfunctions₁.trans hfunctions, hmap₁.trans hfunctionMap,
    fun g hg => ?_, fun g hg => ?_⟩
  · rw [← hfunctionMap]
    exact hq.copiedFrom_linkFunction hthis hstep (hfunctions.symm ▸ hg)
      (hfunctionMap.symm ▸ hcopied g hg)
  · rw [← hfunctionMap]
    refine hq.resolution_linkFunction hthis hstep (hmemSeq g hg) ?_
    rcases List.mem_append.mp hg with hpre | hlast
    · rw [hfunctionMap]
      exact .inr (hdone g hpre)
    · exact .inl (List.mem_singleton.mp hlast)

end LinkedFrom

end CoFlo.Ports
