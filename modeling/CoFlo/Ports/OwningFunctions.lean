import CoFlo.Ports.MatchedCalls

/-!
# Which vertices know their function

`CreateControlFlowGraph` calls `SetOwningFunction` on ENTRY, EXIT and the
statements of the list.  What `ResolveLinks` and `Link` construct in their
place is never told, and the constructor of `StatementBase` leaves
`m_owning_function` alone: these vertices know their function only if the
memory they were constructed in happened to name it.
-/

namespace CoFlo.Ports

/-- `GetOwningFunction()` of every vertex in a graph is the graph's function. -/
def Program.KnowsFunctions (p : Program) : Prop :=
  ∀ f ∈ p.functions, ∀ v ∈ (p.heap.graph f).vertices,
    (p.heap.vertex v).owningFunction = f

instance (p : Program) : Decidable p.KnowsFunctions :=
  inferInstanceAs (Decidable (∀ f ∈ p.functions,
    ∀ v ∈ (p.heap.graph f).vertices, (p.heap.vertex v).owningFunction = f))

/-- The memory in which the vertices that linking constructed were allocated
named their function. -/
def Program.MemoryNamesFunctions (p : Program) (memory : VertexPtr → Vertex) :
    Prop :=
  ∀ f ∈ p.functions, ∀ v ∈ (p.heap.graph f).vertices,
    (p.heap.vertex v).statement.isConstructedByLinking = true →
      (memory v).owningFunction = f

/-- The vertices know their function exactly when the memory did. -/
theorem Program.Invariant.knowsFunctions_iff {memory : VertexPtr → Vertex}
    {p : Program} (hp : p.Invariant memory) :
    p.KnowsFunctions ↔ p.MemoryNamesFunctions memory := by
  constructor
  · intro hknows f hf v hv hconstructed
    have howner := hp.owner f hf v hv
    rw [if_pos hconstructed] at howner
    exact howner.symm.trans (hknows f hf v hv)
  · intro hmemory f hf v hv
    rw [hp.owner f hf v hv]
    split_ifs with hconstructed
    · exact hmemory f hf v hv hconstructed
    · rfl

/-- The same after every function of a program has been built and linked. -/
theorem linkFunctions_knowsFunctions_iff {memory : VertexPtr → Vertex}
    {orders : PassOrders} {fis : List FunctionInfo} {built p : Program}
    {seq : List FunctionPtr}
    (hfis : ∀ fi ∈ fis, ∀ st ∈ fi.statementList, st.1.isParsed = true)
    (hbuild : Program.build memory orders fis = .ok built)
    (hseq : seq.Perm built.functions)
    (hlink : seq.foldlM (Program.linkFunction orders) built = .ok p) :
    p.KnowsFunctions ↔ p.MemoryNamesFunctions memory := by
  obtain ⟨p', hrun, hinv, _⟩ :=
    (Program.Invariant.build hfis hbuild).linkFunctions orders
      fun f hf => hseq.mem_iff.mp hf
  obtain rfl := Except.ok.inj (hlink.symm.trans hrun)
  exact hinv.knowsFunctions_iff

/-- In memory that is all zero the resolved calls know no function. -/
theorem mutualRecursion_knowsFunctions :
    (Program.parse blankMemory .ascending mutualRecursion).Holds
      fun p => ¬ p.KnowsFunctions := by
  decide +kernel

/-- Memory in which the resolved calls of `mutualRecursion` happen to name their
functions. -/
def namingMemory : VertexPtr → Vertex :=
  fun v => { blankMemory v with owningFunction := if v = 10 then 2 else 1 }

theorem linkFunctions_knowsFunctions_iff_namingMemory :
    ∃ built p, Program.build namingMemory .ascending mutualRecursion = .ok built ∧
      built.functions.foldlM (Program.linkFunction .ascending) built = .ok p ∧
      p.MemoryNamesFunctions namingMemory ∧ p.KnowsFunctions := by
  have hcheck : (Program.build namingMemory .ascending mutualRecursion).Holds fun built =>
      (built.functions.foldlM (Program.linkFunction .ascending) built).Holds fun p =>
        ∀ f ∈ p.functions, ∀ v ∈ (p.heap.graph f).vertices,
          (p.heap.vertex v).statement.isConstructedByLinking = true →
            (namingMemory v).owningFunction = f := by
    decide +kernel
  obtain ⟨built, hbuild, p, hrun, hmemory⟩ := hcheck
  exact ⟨built, p, hbuild, hrun, hmemory,
    (linkFunctions_knowsFunctions_iff (by decide) hbuild (List.Perm.refl _) hrun).mpr hmemory⟩

end CoFlo.Ports
