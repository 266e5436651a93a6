import CoFlo.Ports.MatchedCalls
import CoFlo.Verified.StepMachine

/-!
# The calls that stay unresolved

`Link` enters every call it cannot resolve into a multimap that is shared by
all functions of the program, and `PrintUnresolvedFunctionCalls` prints the
names in it.  Its loop reads the name off the statement of an entry and goes on
at the `upper_bound` of that name, so that it prints a name once however many
calls there are.
-/

namespace CoFlo.Ports

open CoFlo.Verified CoFlo.Verified.StepMachine CoFlo.Verified.FoldInvariant

/-! ## The loop that prints -/

/-- `GetIdentifier()`, of a `FunctionCallUnresolved`. -/
def Statement.callIdentifier : Statement → String
  | functionCallUnresolved identifier _ => identifier
  | _ => ""

/-- The iterator of the loop, as the entries from there on, and the names that
have been printed below the heading. -/
structure PrintState where
  it : UnresolvedFunctionCallMap
  output : List String

/-- One round of the loop of `Program::PrintUnresolvedFunctionCalls`. -/
def printUnresolvedCall (h : Heap) (m : UnresolvedFunctionCallMap)
    (s : PrintState) : Option PrintState :=
  match s.it with
  | [] => none
  | (_, fc) :: _ =>
      let identifier := (h.vertex fc).statement.callIdentifier
      some ⟨m.upperBound identifier, s.output ++ [identifier]⟩

/-- What is left to print are the names greater than all that have been. -/
structure PrintInv (m : UnresolvedFunctionCallMap) (s : PrintState) : Prop where
  it_eq : s.it = m.filter fun p => ∀ identifier ∈ s.output, identifier < p.1
  pairwise : s.output.Pairwise (· < ·)
  output_mem : ∀ identifier ∈ s.output, ∃ v, (identifier, v) ∈ m
  mem_or : ∀ p ∈ m, p ∈ s.it ∨ p.1 ∈ s.output

section print

variable {h : Heap} {m : UnresolvedFunctionCallMap} (hm : m.Sorted)
  (hkey : ∀ p ∈ m, (h.vertex p.2).statement.callIdentifier = p.1)

include hm hkey

theorem PrintInv.step {s s' : PrintState} (hs : PrintInv m s)
    (hstep : printUnresolvedCall h m s = some s') :
    PrintInv m s' ∧ s'.it.length < s.it.length := by
  unfold printUnresolvedCall at hstep
  cases hit : s.it with
  | nil =>
      rw [hit] at hstep
      exact absurd hstep (by simp)
  | cons p rest =>
      obtain ⟨k, fc⟩ := p
      have hmemIt : (k, fc) ∈ s.it := by
        rw [hit]
        exact List.mem_cons_self
      have hmem := hmemIt
      rw [hs.it_eq, List.mem_filter, decide_eq_true_iff] at hmem
      rw [hit] at hstep
      obtain rfl := Option.some.inj hstep
      rw [hkey _ hmem.1, hm.upperBound_eq]
      have hless : ∀ identifier ∈ s.output, identifier < k := hmem.2
      have hsortedIt : s.it.Pairwise fun p q => p.1 ≤ q.1 := by
        rw [hs.it_eq]
        exact hm.sublist List.filter_sublist
      rw [hit] at hsortedIt
      have hfirst := (List.pairwise_cons.mp hsortedIt).1
      have hnew : m.filter (fun p => k < p.1) = m.filter fun p =>
          ∀ identifier ∈ s.output ++ [k], identifier < p.1 := by
        refine List.filter_congr fun p _ => ?_
        rw [decide_eq_decide]
        constructor
        · intro hk identifier hidentifier
          rcases List.mem_append.mp hidentifier with hold | hlast
          · exact lt_trans (hless identifier hold) hk
          · rw [List.mem_singleton.mp hlast]
            exact hk
        · intro hall
          exact hall k (by simp)
      have hshorter : m.filter (fun p => k < p.1) =
          ((k, fc) :: rest).filter fun p => k < p.1 := by
        rw [← hit, hs.it_eq, List.filter_filter]
        refine List.filter_congr fun p _ => ?_
        rw [← Bool.decide_and, decide_eq_decide]
        refine (and_iff_left_of_imp fun hk => ?_).symm
        exact fun identifier hidentifier =>
          lt_trans (hless identifier hidentifier) hk
      constructor
      · exact
          { it_eq := hnew
            pairwise := by
              refine List.pairwise_append.mpr
                ⟨hs.pairwise, List.pairwise_singleton _ _, fun x hx y hy => ?_⟩
              rw [List.mem_singleton.mp hy]
              exact hless x hx
            output_mem := fun identifier hidentifier => by
              rcases List.mem_append.mp hidentifier with hold | hlast
              · exact hs.output_mem identifier hold
              · rw [List.mem_singleton.mp hlast]
                exact ⟨fc, hmem.1⟩
            mem_or := fun p hp => by
              show p ∈ m.filter (fun p => k < p.1) ∨ p.1 ∈ s.output ++ [k]
              by_cases hk : k < p.1
              · exact .inl (List.mem_filter.mpr ⟨hp, decide_eq_true hk⟩)
              · right
                rw [List.mem_append, List.mem_singleton]
                rcases hs.mem_or p hp with hpit | hout
                · right
                  rw [hit] at hpit
                  rcases List.mem_cons.mp hpit with rfl | hrest
                  · rfl
                  · exact le_antisymm (not_lt.mp hk) (hfirst p hrest)
                · exact .inl hout }
      · show (m.filter fun p => k < p.1).length < _
        rw [hshorter]
        refine List.length_filter_lt_length_iff_exists.mpr
          ⟨(k, fc), List.mem_cons_self, ?_⟩
        simp

/-- The loop ends and prints the keys of the map, each of them once. -/
theorem printUnresolvedCall_spec :
    ∃ s, Reaches (printUnresolvedCall h m) ⟨m, []⟩ s ∧
      printUnresolvedCall h m s = none ∧ s.output.Pairwise (· < ·) ∧
      ∀ identifier, identifier ∈ s.output ↔ ∃ v, (identifier, v) ∈ m := by
  have hinit : PrintInv m ⟨m, []⟩ :=
    { it_eq := (List.filter_eq_self.mpr fun p _ => by simp).symm
      pairwise := List.Pairwise.nil
      output_mem := fun _ hidentifier => absurd hidentifier List.not_mem_nil
      mem_or := fun _ hp => .inl hp }
  obtain ⟨s, hreach, hend⟩ := terminates_of_measure (fun s => s.it.length)
    (fun t u ht hstep => ht.step hm hkey hstep) hinit
  have hs : PrintInv m s := hreach.invariant
    (fun t u ht hstep => (ht.step hm hkey hstep).1) hinit
  refine ⟨s, hreach, hend, hs.pairwise, fun identifier =>
    ⟨hs.output_mem identifier, ?_⟩⟩
  rintro ⟨v, hv⟩
  refine (hs.mem_or _ hv).resolve_left ?_
  unfold printUnresolvedCall at hend
  cases hit : s.it with
  | nil => exact List.not_mem_nil
  | cons p rest =>
      rw [hit] at hend
      exact absurd hend (by simp)

end print

/-! ## What `Link` enters into the map -/

theorem mem_addUnresolved {h : Heap} {functionMap : FunctionMap}
    {m : UnresolvedFunctionCallMap} {vs : List VertexPtr} {identifier : String}
    {v : VertexPtr} :
    (identifier, v) ∈ h.addUnresolved functionMap m vs ↔
      (identifier, v) ∈ m ∨
        v ∈ vs ∧ (h.vertex v).statement.unresolvedName functionMap =
          some identifier := by
  induction vs generalizing m with
  | nil => simp [Heap.addUnresolved]
  | cons w vs ih =>
      rw [Heap.addUnresolved, List.foldl_cons]
      refine ih.trans ?_
      cases hname : (h.vertex w).statement.unresolvedName functionMap with
      | none =>
          dsimp only
          have hw : v = w → (h.vertex v).statement.unresolvedName functionMap ≠
              some identifier := by
            rintro rfl
            rw [hname]
            simp
          rw [List.mem_cons]
          tauto
      | some name =>
          dsimp only
          rw [Multimap.mem_insertEntry, Prod.mk.injEq, List.mem_cons]
          have hw : v = w → ((h.vertex v).statement.unresolvedName functionMap =
              some identifier ↔ identifier = name) := by
            rintro rfl
            rw [hname, Option.some.injEq]
            exact eq_comm
          tauto

theorem sorted_addUnresolved {h : Heap} {functionMap : FunctionMap}
    {m : UnresolvedFunctionCallMap} (hm : m.Sorted) (vs : List VertexPtr) :
    (h.addUnresolved functionMap m vs).Sorted := by
  induction vs generalizing m with
  | nil => exact hm
  | cons w vs ih =>
      rw [Heap.addUnresolved, List.foldl_cons]
      refine ih ?_
      cases (h.vertex w).statement.unresolvedName functionMap with
      | none => exact hm
      | some name => exact hm.insertEntry name w

theorem Statement.unresolvedName_eq_some {functionMap : FunctionMap}
    {st : Statement} {identifier : String} :
    st.unresolvedName functionMap = some identifier ↔
      (∃ params, st = .functionCallUnresolved identifier params) ∧
        functionMap identifier = none := by
  cases st <;> simp only [Statement.unresolvedName]
  case functionCallUnresolved name params =>
    split_ifs with hname
    · simp only [Option.some.injEq, functionCallUnresolved.injEq,
        exists_and_left, exists_eq', and_true]
      exact (and_iff_left_of_imp fun heq => heq ▸ hname).symm
    · simp only [functionCallUnresolved.injEq, exists_and_left, exists_eq',
        and_true]
      refine iff_of_false (by simp) ?_
      rintro ⟨rfl, hnone⟩
      exact hname hnone
  all_goals simp

/-- The program after the functions of `pre` have been linked. -/
structure UnresolvedInv (memory : VertexPtr → Vertex) (built : Program)
    (pre : List FunctionPtr) (p : Program) : Prop where
  invariant : p.Invariant memory
  functions : p.functions = built.functions
  functionMap : p.functionMap = built.functionMap
  nextVertex_le : built.heap.nextVertex ≤ p.heap.nextVertex
  statement : ∀ v, v < built.heap.nextVertex →
    (p.heap.vertex v).statement = (built.heap.vertex v).statement
  vertices_of_notMem : ∀ f, f ∉ pre →
    (p.heap.graph f).vertices = (built.heap.graph f).vertices
  resolution : ∀ f ∈ pre, ∀ v ∈ (p.heap.graph f).vertices,
    (p.heap.vertex v).statement.resolution built.functionMap = none
  sorted : p.unresolvedFunctionCalls.Sorted
  mem_unresolved : ∀ identifier v,
    (identifier, v) ∈ p.unresolvedFunctionCalls ↔
      ∃ f ∈ pre, v ∈ (built.heap.graph f).vertices ∧
        (built.heap.vertex v).statement.unresolvedName built.functionMap =
          some identifier

theorem UnresolvedInv.linkFunction {memory : VertexPtr → Vertex}
    {built p : Program} {pre : List FunctionPtr} {this : FunctionPtr}
    (hbuilt : built.Invariant memory)
    (hi : UnresolvedInv memory built pre p) (hthis : this ∈ built.functions)
    (hnew : this ∉ pre) (hpre : ∀ f ∈ pre, f ∈ built.functions)
    (orders : PassOrders) :
    ∃ p', Program.linkFunction orders p this = .ok p' ∧
      UnresolvedInv memory built (pre ++ [this]) p' := by
  obtain ⟨p', hrun, hinv, hfunctions, hmap, hlinked, hunresolved⟩ :=
    hi.invariant.linkFunction orders (hi.functions ▸ hthis)
  rw [hi.functionMap] at hlinked hunresolved
  have hlt : ∀ f ∈ built.functions, ∀ v ∈ (p.heap.graph f).vertices,
      v < p.heap.nextVertex := fun f hf v hv =>
    hi.invariant.lt_nextVertex (hi.functions ▸ hf) hv
  refine ⟨p', hrun, ?_⟩
  exact
    { invariant := hinv
      functions := hfunctions.trans hi.functions
      functionMap := hmap.trans hi.functionMap
      nextVertex_le := Nat.le_trans hi.nextVertex_le hlinked.nextVertex_le
      statement := fun v hv => by
        rw [hlinked.statement_old v (Nat.lt_of_lt_of_le hv hi.nextVertex_le)]
        exact hi.statement v hv
      vertices_of_notMem := fun f hf => by
        rw [List.mem_append, not_or, List.mem_singleton] at hf
        rw [hlinked.vertices_of_ne f hf.2]
        exact hi.vertices_of_notMem f hf.1
      resolution := fun f hf v hv => by
        rcases List.mem_append.mp hf with hf | hf
        · have hne : f ≠ this := fun heq => hnew (heq ▸ hf)
          rw [hlinked.vertices_of_ne f hne] at hv
          rw [hlinked.statement_old v (hlt f (hpre f hf) v hv)]
          exact hi.resolution f hf v hv
        · obtain rfl := List.mem_singleton.mp hf
          rcases (hlinked.mem_vertices v).mp hv with ⟨hmem, hres⟩ | ⟨hle, hv⟩
          · rw [hlinked.statement_old v (hlt f hthis v hmem)]
            exact hres
          · obtain ⟨g, params, hst⟩ := hlinked.statement_new v hle hv
            rw [hst]
            rfl
      sorted := by
        rw [hunresolved]
        exact sorted_addUnresolved hi.sorted _
      mem_unresolved := fun identifier v => by
        rw [hunresolved, mem_addUnresolved, SetOrder.mem_enum,
          hi.mem_unresolved, hi.vertices_of_notMem this hnew]
        have hst : v ∈ (built.heap.graph this).vertices →
            (p.heap.vertex v).statement = (built.heap.vertex v).statement :=
          fun hv => hi.statement v (hbuilt.lt_nextVertex hthis hv)
        constructor
        · rintro (⟨f, hf, hv⟩ | ⟨hv, hname⟩)
          · exact ⟨f, List.mem_append_left _ hf, hv⟩
          · rw [hst hv] at hname
            exact ⟨this, by simp, hv, hname⟩
        · rintro ⟨f, hf, hv, hname⟩
          rcases List.mem_append.mp hf with hf | hf
          · exact .inl ⟨f, hf, hv, hname⟩
          · obtain rfl := List.mem_singleton.mp hf
            exact .inr ⟨hv, (hst hv).symm ▸ hname⟩ }

theorem build_unresolvedFunctionCalls {memory : VertexPtr → Vertex}
    {orders : PassOrders} {fis : List FunctionInfo} {built : Program}
    (hbuild : Program.build memory orders fis = .ok built) :
    built.unresolvedFunctionCalls = [] := by
  unfold Program.build at hbuild
  have hinit : (Program.initial memory).unresolvedFunctionCalls = [] := rfl
  generalize Program.initial memory = p₀ at hbuild hinit
  induction fis generalizing p₀ with
  | nil => exact Except.ok.inj hbuild ▸ hinit
  | cons fi fis ih =>
      rw [List.foldlM_cons] at hbuild
      cases hfi : Program.buildFunction orders p₀ fi with
      | error err =>
          rw [hfi] at hbuild
          exact absurd hbuild (by simp [bind, Except.bind])
      | ok p₁ =>
          rw [hfi] at hbuild
          refine ih p₁ hbuild ?_
          unfold Program.buildFunction at hfi
          simp only [bind, Except.bind, pure, Except.pure] at hfi
          split at hfi
          · exact absurd hfi (by simp)
          · rw [← Except.ok.inj hfi]
            exact hinit

/-- After `Program::Parse` the loop prints, in ascending order, the names of
the calls in the graphs of the program that are not the name of a function,
and no call with such a name is left. -/
theorem parse_printUnresolvedCalls {memory : VertexPtr → Vertex}
    {orders : PassOrders} {fis : List FunctionInfo} {built : Program}
    (hfis : ∀ fi ∈ fis, ∀ st ∈ fi.statementList, st.1.isParsed = true)
    (hbuild : Program.build memory orders fis = .ok built) :
    ∃ p s, Program.parse memory orders fis = .ok p ∧
      Reaches (printUnresolvedCall p.heap p.unresolvedFunctionCalls)
        ⟨p.unresolvedFunctionCalls, []⟩ s ∧
      printUnresolvedCall p.heap p.unresolvedFunctionCalls s = none ∧
      s.output.Pairwise (· < ·) ∧
      (∀ identifier, identifier ∈ s.output ↔
        (∃ f ∈ built.functions, ∃ v ∈ (built.heap.graph f).vertices,
          ∃ params, (built.heap.vertex v).statement =
            .functionCallUnresolved identifier params) ∧
        built.functionMap identifier = none) ∧
      ∀ f ∈ p.functions, ∀ v ∈ (p.heap.graph f).vertices,
        ∀ identifier params, (p.heap.vertex v).statement =
            .functionCallUnresolved identifier params →
          p.functionMap identifier = none := by
  have hbuilt := Program.Invariant.build hfis hbuild
  have hinit : UnresolvedInv memory built [] built :=
    { invariant := hbuilt
      functions := rfl
      functionMap := rfl
      nextVertex_le := Nat.le_refl _
      statement := fun _ _ => rfl
      vertices_of_notMem := fun _ _ => rfl
      resolution := fun _ hf => absurd hf List.not_mem_nil
      sorted := by
        rw [build_unresolvedFunctionCalls hbuild]
        exact List.Pairwise.nil
      mem_unresolved := fun identifier v => by
        rw [build_unresolvedFunctionCalls hbuild]
        simp }
  obtain ⟨p, hrun, hi⟩ := foldlM_invariant (Program.linkFunction orders)
    (UnresolvedInv memory built) built.functions built hinit (by
      intro pre this post p hl hi
      have hnodup : built.functions.Nodup := by
        rw [hbuilt.functions_eq]
        exact List.nodup_range'
      refine hi.linkFunction hbuilt (by simp [hl]) ?_ (by
        intro f hf
        simp [hl, hf]) orders
      rw [hl] at hnodup
      exact fun hmem => (List.nodup_append.mp hnodup).2.2 this hmem this
        List.mem_cons_self rfl)
  have hkey : ∀ q ∈ p.unresolvedFunctionCalls,
      (p.heap.vertex q.2).statement.callIdentifier = q.1 := by
    rintro ⟨identifier, v⟩ hq
    obtain ⟨f, hf, hv, hname⟩ := (hi.mem_unresolved identifier v).mp hq
    obtain ⟨⟨params, hst⟩, _⟩ := Statement.unresolvedName_eq_some.mp hname
    rw [hi.statement v (hbuilt.lt_nextVertex hf hv), hst]
    rfl
  obtain ⟨s, hreach, hend, hpairwise, hmem⟩ :=
    printUnresolvedCall_spec hi.sorted hkey
  refine ⟨p, s, ?_, hreach, hend, hpairwise, fun identifier => ?_,
    fun f hf v hv identifier params hst => ?_⟩
  · unfold Program.parse
    rw [hbuild]
    exact hrun
  · rw [hmem]
    constructor
    · rintro ⟨v, hv⟩
      obtain ⟨f, hf, hv, hname⟩ := (hi.mem_unresolved identifier v).mp hv
      obtain ⟨hst, hnone⟩ := Statement.unresolvedName_eq_some.mp hname
      exact ⟨⟨f, hf, v, hv, hst⟩, hnone⟩
    · rintro ⟨⟨f, hf, v, hv, hst⟩, hnone⟩
      exact ⟨v, (hi.mem_unresolved identifier v).mpr
        ⟨f, hf, hv, Statement.unresolvedName_eq_some.mpr ⟨hst, hnone⟩⟩⟩
  · have hres := hi.resolution f (hi.functions ▸ hf) v hv
    rw [hst] at hres
    rw [hi.functionMap]
    exact hres

/-- `f` calls `puts` twice, `g` and `atoi`; `g`, which two files define, calls `atoi`
and `f`. -/
def libraryCalls : List FunctionInfo :=
  [⟨"a.c", "f", [(.functionCallUnresolved "puts" "", .unknown),
      (.functionCallUnresolved "g" "1", .unknown),
      (.functionCallUnresolved "puts" "2", .unknown),
      (.functionCallUnresolved "atoi" "", .unknown)]⟩,
    ⟨"a.c", "g", [(.functionCallUnresolved "atoi" "s", .unknown),
      (.functionCallUnresolved "f" "", .unknown)]⟩,
    ⟨"b.c", "g", []⟩]

theorem parse_printUnresolvedCalls_libraryCalls :
    ∃ built p s, Program.build blankMemory .ascending libraryCalls = .ok built ∧
      Program.parse blankMemory .ascending libraryCalls = .ok p ∧
      Reaches (printUnresolvedCall p.heap p.unresolvedFunctionCalls)
        ⟨p.unresolvedFunctionCalls, []⟩ s ∧
      printUnresolvedCall p.heap p.unresolvedFunctionCalls s = none ∧
      s.output = ["atoi", "puts"] ∧ s.output.Pairwise (· < ·) ∧
      (∀ identifier, identifier ∈ s.output ↔
        (∃ f ∈ built.functions, ∃ v ∈ (built.heap.graph f).vertices,
          ∃ params, (built.heap.vertex v).statement =
            .functionCallUnresolved identifier params) ∧
        built.functionMap identifier = none) ∧
      ∀ f ∈ p.functions, ∀ v ∈ (p.heap.graph f).vertices,
        ∀ identifier params, (p.heap.vertex v).statement =
            .functionCallUnresolved identifier params →
          p.functionMap identifier = none := by
  have hbuilt : (Program.build blankMemory .ascending libraryCalls).Holds
      fun built => built.functions = [1, 2, 3] := by
    decide +kernel
  have hprinted : (Program.parse blankMemory .ascending libraryCalls).Holds fun p =>
      (printUnresolvedCall p.heap p.unresolvedFunctionCalls
        (run (printUnresolvedCall p.heap p.unresolvedFunctionCalls) 2
          ⟨p.unresolvedFunctionCalls, []⟩)).isNone = true ∧
      (run (printUnresolvedCall p.heap p.unresolvedFunctionCalls) 2
        ⟨p.unresolvedFunctionCalls, []⟩).output = ["atoi", "puts"] := by
    decide +kernel
  obtain ⟨built, hbuild, -⟩ := hbuilt
  obtain ⟨p', hparse', hend', houtput⟩ := hprinted
  obtain ⟨p, s, hparse, hreach, hend, hpairwise, hmem, hleft⟩ :=
    parse_printUnresolvedCalls (by decide) hbuild
  obtain rfl : p' = p := Except.ok.inj (hparse'.symm.trans hparse)
  rw [(reaches_run 2 _).end_unique (Option.isNone_iff_eq_none.mp hend') hreach hend]
    at houtput
  exact ⟨built, p', s, hbuild, hparse, hreach, hend, houtput, hpairwise, hmem, hleft⟩

end CoFlo.Ports
