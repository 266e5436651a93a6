import CoFlo.Ports.LoopExits
import CoFlo.Ports.SourceFlow

/-!
# When parsing goes through

`Program::Parse` builds the graphs of the functions one after the other, and
links their calls.  Linking never fails, and of the passes that make a graph
only `FixupBackEdges` can: when it looks for the way out of a loop over a
`switch` with a single case.  So without such a switch every list of functions
whose labels are defined is parsed and linked, whatever the orders in which the
sets are walked and whatever the vertex objects held before (`parse_cases`).
-/

namespace CoFlo.Ports

open CoFlo.Verified.FoldInvariant

namespace Program

variable {memory : VertexPtr → Vertex} {orders : PassOrders} {p : Program}

/-- A function is built, or has a switch with a single case. -/
theorem Invariant.buildFunction_cases (hp : p.Invariant memory) {fi : FunctionInfo}
    (hdef : LabelsDefined fi.statements) (orders : PassOrders) :
    (∃ p', Program.buildFunction orders p fi = .ok p') ∨
      (∃ k, Program.buildFunction orders p fi = .error ⟨.endDereference, k⟩) ∧
        ∃ st ∈ fi.statements, st.hasOneWayOut = true := by
  obtain ⟨home, hflow, -⟩ := hp.flow
  have hf := Heap.fresh_newFunction hflow.consistent (p.functions.length + 1)
    fi.identifier fi.definitionFilePath fi.statementList
  have hlist : Heap.statements ((p.heap.newStatements fi.statementList).2.newFunction
      (p.functions.length + 1) fi.identifier fi.definitionFilePath)
        (p.heap.newStatements fi.statementList).1 = fi.statements :=
    p.heap.statements_newStatements fi.statementList
  obtain ⟨k, ρ, hrun, hk⟩ := connectedFlow_spec hf
  unfold Program.buildFunction
  simp only [bind, Except.bind, pure, Except.pure]
  rcases createControlFlowGraph_spec hf hrun hk (orders.fixup (p.functions.length + 1))
      (orders.removal (p.functions.length + 1)) with
    ⟨hno, herror⟩ | ⟨-, _, _, h', hok, -⟩
  · obtain ⟨e, d, hloop⟩ := hk.consistent.noWayOut_iff.mp hno
    obtain ⟨v, hv, -, hways⟩ :=
      hk.hasOneWayOut_of_narrowLoop hf (by rw [hlist]; exact hdef) hloop
    refine .inr ⟨⟨k, by rw [herror]⟩, _, ?_, hways⟩
    rw [← hlist]
    exact (mem_statements_iff hf).mpr ⟨v, hv, rfl⟩
  · exact .inl ⟨_, by rw [hok]⟩

/-- All functions are built, or the first ones are, and the next one has a switch
with a single case and is where it goes wrong. -/
theorem build_cases {fis : List FunctionInfo}
    (hfis : ∀ fi ∈ fis, ∀ st ∈ fi.statementList, st.1.isParsed = true)
    (hdef : ∀ fi ∈ fis, LabelsDefined fi.statements) (memory : VertexPtr → Vertex)
    (orders : PassOrders) :
    (∃ built, Program.build memory orders fis = .ok built ∧ built.Invariant memory) ∨
      ∃ pre fi post q k, fis = pre ++ fi :: post ∧
        Program.build memory orders pre = .ok q ∧
        Program.buildFunction orders q fi = .error ⟨.endDereference, k⟩ ∧
        Program.build memory orders fis = .error ⟨.endDereference, k⟩ ∧
          ∃ st ∈ fi.statements, st.hasOneWayOut = true := by
  have hbuild := foldlM_cases (Program.buildFunction orders)
    (fun _ p => p.Invariant memory)
    (fun _ fi err => (∃ k, err = ⟨.endDereference, k⟩) ∧
      ∃ st ∈ fi.statements, st.hasOneWayOut = true)
    fis (Program.initial memory) (.initial memory) ?_
  · rcases hbuild with hbuilt | ⟨pre, fi, post, q, _, hl, hpre, herr, hrun, ⟨k, rfl⟩, hways⟩
    · exact .inl hbuilt
    · exact .inr ⟨pre, fi, post, q, k, hl, hpre, herr, hrun, hways⟩
  intro pre fi post p hl hp
  have hmem : fi ∈ fis := by simp [hl]
  rcases hp.buildFunction_cases (hdef fi hmem) orders with
    ⟨p', hrun⟩ | ⟨⟨k, hrun⟩, hways⟩
  · exact .inl ⟨p', hrun, hp.buildFunction (hfis fi hmem) hrun⟩
  · exact .inr ⟨_, hrun, ⟨k, rfl⟩, hways⟩

end Program

/-- `Parse` builds and links the whole program, or builds the first functions and
comes to one with a switch that has a single case, and dereferences the end of a
set when it builds this one. -/
theorem parse_cases {fis : List FunctionInfo}
    (hfis : ∀ fi ∈ fis, ∀ st ∈ fi.statementList, st.1.isParsed = true)
    (hdef : ∀ fi ∈ fis, LabelsDefined fi.statements) (memory : VertexPtr → Vertex)
    (orders : PassOrders) :
    (∃ p, Program.parse memory orders fis = .ok p ∧ LinkedFrom fis p) ∨
      ∃ pre fi post q k, fis = pre ++ fi :: post ∧
        Program.build memory orders pre = .ok q ∧
        Program.buildFunction orders q fi = .error ⟨.endDereference, k⟩ ∧
        Program.parse memory orders fis = .error ⟨.endDereference, k⟩ ∧
          ∃ st ∈ fi.statements, st.hasOneWayOut = true := by
  unfold Program.parse
  rcases Program.build_cases hfis hdef memory orders with
    ⟨built, hrun, hbuilt⟩ | ⟨pre, fi, post, q, k, hl, hpre, herr, hrun, hways⟩
  · left
    obtain ⟨p, hlink, -⟩ := hbuilt.linkFunctions orders fun _ hf => hf
    have hparse : Program.parse memory orders fis = .ok p := by
      unfold Program.parse
      rw [hrun]
      exact hlink
    exact ⟨p, hparse, linkedFrom_of_parse hfis hparse⟩
  · right
    rw [hrun]
    exact ⟨pre, fi, post, q, k, hl, hpre, herr, rfl, hways⟩

theorem parse_cases_pollLoop :
    ∃ p, Program.parse blankMemory .ascending pollLoop = .ok p ∧
      LinkedFrom pollLoop p := by
  have hlabelled : ∀ fi ∈ pollLoop, WellLabelled fi.statements := by decide
  have hways : ∀ fi ∈ pollLoop, ∀ st ∈ fi.statements, st.hasOneWayOut = false := by
    decide
  refine (parse_cases (by decide) (fun fi hfi => (hlabelled fi hfi).defined)
    blankMemory .ascending).resolve_right ?_
  rintro ⟨pre, fi, post, -, -, hl, -, -, -, st, hst, hway⟩
  have hfi : fi ∈ pollLoop := by rw [hl]; simp
  rw [hways fi hfi st hst] at hway
  exact absurd hway Bool.false_ne_true

end CoFlo.Ports
