import CoFlo.Ports.FunctionCFGVisitor

/-!
# In-degrees

`filtered_in_degree` does not count an edge after the first `FunctionCall` edge it
meets, of whatever kind the edge is.  So what it counts depends on the order of the
in-edges, unless a vertex with a `FunctionCall` edge has no edges of other kinds that
count.  In a linked program such a vertex is an ENTRY, whose only other in-edges are
its marked self edge and `Return` edges; the result is the same for every order
(`filteredInDegree_eq_countedInEdges`).
-/

namespace CoFlo.Ports

namespace Heap

/-- The in-edges that are neither back edges nor `Return` edges. -/
def filteredInEdges (h : Heap) (v : VertexPtr) : Finset EdgePtr :=
  (h.vertex v).inEdges.filter fun e =>
    (h.edge e).isBackEdge = false ∧ (h.edge e).edgeType.isReturn = false

/-- The number of these, with all `FunctionCall` edges counting as one. -/
def countedInEdges (h : Heap) (v : VertexPtr) : Nat :=
  ((h.filteredInEdges v).filter fun e => (h.edge e).edgeType.isFunctionCall = false).card +
    if ∃ e ∈ h.filteredInEdges v, (h.edge e).edgeType.isFunctionCall = true then 1 else 0

theorem mem_filteredInEdges {h : Heap} {v : VertexPtr} {e : EdgePtr} :
    e ∈ h.filteredInEdges v ↔ e ∈ (h.vertex v).inEdges ∧
      (h.edge e).isBackEdge = false ∧ (h.edge e).edgeType.isReturn = false :=
  Finset.mem_filter

/-- What is counted when there are no `FunctionCall` edges. -/
theorem countedInEdges_of_notCall {h : Heap} {v : VertexPtr}
    (hcalls : ∀ e ∈ h.filteredInEdges v, (h.edge e).edgeType.isFunctionCall = false) :
    h.countedInEdges v = (h.filteredInEdges v).card := by
  unfold countedInEdges
  rw [Finset.filter_true_of_mem hcalls, if_neg]
  · rfl
  · rintro ⟨e, he, hcall⟩
    rw [hcalls e he] at hcall
    exact Bool.false_ne_true hcall

/-- What is counted when there are no others. -/
theorem countedInEdges_of_call {h : Heap} {v : VertexPtr}
    (hcalls : ∀ e ∈ h.filteredInEdges v, (h.edge e).edgeType.isFunctionCall = true) :
    h.countedInEdges v = if h.filteredInEdges v = ∅ then 0 else 1 := by
  unfold countedInEdges
  rw [Finset.filter_false_of_mem, Finset.card_empty, Nat.zero_add]
  · by_cases hempty : h.filteredInEdges v = ∅
    · rw [if_pos hempty, if_neg]
      rintro ⟨e, he, -⟩
      rw [hempty] at he
      exact Finset.notMem_empty e he
    · rw [if_neg hempty, if_pos]
      obtain ⟨e, he⟩ := Finset.nonempty_iff_ne_empty.mpr hempty
      exact ⟨e, he, hcalls e he⟩
  · intro e he hcall
    rw [hcalls e he] at hcall
    exact Bool.noConfusion hcall

end Heap

/-! ## The loop -/

theorem foldl_countInEdge {h : Heap} {l : List EdgePtr}
    (hcalls : ∀ e ∈ l, (h.edge e).edgeType.isFunctionCall = false) (n : Int) :
    l.foldl (countInEdge h false) (n, false) =
      (n + (l.filter fun e =>
        !(h.edge e).isBackEdge && !(h.edge e).edgeType.isReturn).length, false) := by
  induction l generalizing n with
  | nil => simp
  | cons e l ih =>
      have hcall := hcalls e List.mem_cons_self
      have hrest := fun n => ih (fun d hd => hcalls d (List.mem_cons_of_mem e hd)) n
      rw [List.foldl_cons, List.filter_cons]
      by_cases hback : (h.edge e).isBackEdge = true
      · simp only [countInEdge, hback, if_true, Bool.not_true, Bool.false_and,
          Bool.false_eq_true, if_false]
        exact hrest n
      · by_cases hreturn : (h.edge e).edgeType.isReturn = true
        · simp only [countInEdge, hback, hreturn, hcall, Bool.false_and,
            Bool.false_eq_true, if_false, Bool.not_true, Bool.and_false, Bool.true_eq_false,
            false_and, Bool.or_self]
          exact hrest n
        · simp only [countInEdge, hback, hreturn, hcall, Bool.false_and,
            Bool.false_eq_true, if_false, Bool.not_false, Bool.and_self, if_true,
            and_self, Bool.or_self, List.length_cons]
          rw [hrest]
          simp only [Prod.mk.injEq, and_true]
          omega

/-- Without calls that end at it, the in-degree of a vertex is the number of its
in-edges that are neither back edges nor `Return` edges. -/
theorem filteredInDegree_eq_card {h : Heap} {v : VertexPtr}
    (hcalls : ∀ e ∈ (h.vertex v).inEdges, (h.edge e).edgeType.isFunctionCall = false)
    (o : SetOrder) :
    filteredInDegree h o v false = (h.filteredInEdges v).card := by
  have hlist : ∀ e ∈ o.enum (h.vertex v).inEdges,
      (h.edge e).edgeType.isFunctionCall = false := by
    intro e he
    rw [SetOrder.mem_enum] at he
    exact hcalls e he
  have hcard := List.toFinset_card_of_nodup ((o.nodup_enum (h.vertex v).inEdges).filter
    fun e => !(h.edge e).isBackEdge && !(h.edge e).edgeType.isReturn)
  unfold filteredInDegree
  rw [foldl_countInEdge hlist, ← hcard]
  show (0 : Int) + _ = _
  rw [Int.zero_add]
  congr 2
  ext e
  simp [Heap.mem_filteredInEdges]

/-- After a call no edge counts. -/
theorem foldl_countInEdge_seen (h : Heap) (l : List EdgePtr) (n : Int) :
    l.foldl (countInEdge h false) (n, true) = (n, true) := by
  induction l with
  | nil => rfl
  | cons e l ih =>
      have hstep : countInEdge h false (n, true) e = (n, true) := by
        simp [countInEdge]
      rw [List.foldl_cons, hstep]
      exact ih

/-- Of edges that are calls, or do not count, the first one that is not a back edge
is counted. -/
theorem foldl_countInEdge_calls {h : Heap} {l : List EdgePtr}
    (hcalls : ∀ e ∈ l, (h.edge e).isBackEdge = false →
      (h.edge e).edgeType.isReturn = false → (h.edge e).edgeType.isFunctionCall = true)
    (n : Int) :
    (l.foldl (countInEdge h false) (n, false)).1 =
      n + if ∃ e ∈ l, (h.edge e).isBackEdge = false ∧ (h.edge e).edgeType.isReturn = false
        then 1 else 0 := by
  induction l with
  | nil => simp
  | cons e l ih =>
      have hrest := ih fun d hd => hcalls d (List.mem_cons_of_mem e hd)
      rw [List.foldl_cons]
      by_cases he : (h.edge e).isBackEdge = false ∧ (h.edge e).edgeType.isReturn = false
      · have hcall := hcalls e List.mem_cons_self he.1 he.2
        have hstep : countInEdge h false (n, false) e = (n + 1, true) := by
          simp [countInEdge, he.1, he.2, hcall]
        rw [hstep, foldl_countInEdge_seen, if_pos ⟨e, List.mem_cons_self, he⟩]
      · have hstep : countInEdge h false (n, false) e = (n, false) := by
          by_cases hback : (h.edge e).isBackEdge = false
          · have hreturn : (h.edge e).edgeType.isReturn = true :=
              Bool.not_eq_false _ ▸ fun hno => he ⟨hback, hno⟩
            cases htype : (h.edge e).edgeType <;>
              simp_all [countInEdge, EdgeType.isReturn, EdgeType.isFunctionCall]
          · simp [countInEdge, hback]
        rw [hstep, hrest]
        congr 2
        simp [he]

theorem filteredInDegree_eq_of_calls {h : Heap} {v : VertexPtr}
    (hcalls : ∀ e ∈ h.filteredInEdges v, (h.edge e).edgeType.isFunctionCall = true)
    (o : SetOrder) :
    filteredInDegree h o v false = if h.filteredInEdges v = ∅ then 0 else 1 := by
  unfold filteredInDegree
  rw [foldl_countInEdge_calls, Int.zero_add]
  · by_cases hempty : h.filteredInEdges v = ∅
    · rw [if_pos hempty, if_neg]
      rintro ⟨e, he, hcounts⟩
      have : e ∈ h.filteredInEdges v :=
        Heap.mem_filteredInEdges.mpr ⟨(o.mem_enum _).mp he, hcounts⟩
      rw [hempty] at this
      exact Finset.notMem_empty e this
    · rw [if_neg hempty, if_pos]
      obtain ⟨e, he⟩ := Finset.nonempty_iff_ne_empty.mpr hempty
      have hmem := Heap.mem_filteredInEdges.mp he
      exact ⟨e, (o.mem_enum _).mpr hmem.1, hmem.2⟩
  · intro e he hback hreturn
    apply hcalls
    exact Heap.mem_filteredInEdges.mpr ⟨(o.mem_enum _).mp he, hback, hreturn⟩

/-! ## The vertices of a program -/

namespace ProgramFlow

variable {functions : List FunctionPtr} {home : VertexPtr → FunctionPtr} {h : Heap}
  (hp : ProgramFlow functions home h)

include hp

/-- `FunctionCall` edges end at an ENTRY. -/
theorem inEdges_notCall {v : VertexPtr}
    (hentry : v ≠ (h.function (home v)).entryVertexDesc) :
    ∀ e ∈ (h.vertex v).inEdges, (h.edge e).edgeType.isFunctionCall = false := by
  intro e he
  have hsource := hp.consistent.source_ne_null_of_mem he
  have htarget := hp.consistent.target_eq_of_mem he
  cases htype : (h.edge e).edgeType with
  | functionCall c g =>
      obtain ⟨hcs, -, params, hst, hg⟩ := hp.callEdge e c g hsource htype
      have hc : home c ∈ functions := by
        rw [← hcs]
        exact hp.home_source e hsource
      have hgmem := (hp.resolved c g params hc hst).1
      have hhome : home v = g := by rw [← htarget, hg, hp.home_entry hgmem]
      exact absurd (by rw [hhome, ← htarget, hg]) hentry
  | _ => rfl

/-- Only `FunctionCall` edges count at an ENTRY. -/
theorem filteredInEdges_entry {f : FunctionPtr} (hf : f ∈ functions) :
    ∀ e ∈ h.filteredInEdges (h.function f).entryVertexDesc,
      (h.edge e).edgeType.isFunctionCall = true := by
  intro e he
  obtain ⟨hin, hback, hreturn⟩ := Heap.mem_filteredInEdges.mp he
  have hsource := hp.consistent.source_ne_null_of_mem hin
  have htarget := hp.consistent.target_eq_of_mem hin
  rcases hp.edgeType e hsource with hintra | hcall | hret
  · -- an edge of the function itself is the self edge of the ENTRY, which is marked
    have hhome : home (h.edge e).source = f := by
      rw [← hp.home_eq_home e hsource hintra, htarget, hp.home_entry hf]
    have hself := hp.enter e hsource hintra (by rw [htarget, hhome])
    rw [hself, hhome, hp.entrySelf f hf] at hback
    exact Bool.noConfusion hback
  · exact hcall
  · rw [hreturn] at hret
    exact Bool.noConfusion hret

/-- In a program the order of the in-edges does not matter. -/
theorem filteredInDegree_eq {v : VertexPtr} (hv : home v ∈ functions) (o : SetOrder) :
    filteredInDegree h o v false = h.countedInEdges v := by
  by_cases hentry : v = (h.function (home v)).entryVertexDesc
  · have hcalls := hp.filteredInEdges_entry hv
    rw [← hentry] at hcalls
    rw [filteredInDegree_eq_of_calls hcalls, Heap.countedInEdges_of_call hcalls]
    split_ifs <;> rfl
  · have hcalls := hp.inEdges_notCall hentry
    rw [filteredInDegree_eq_card hcalls, Heap.countedInEdges_of_notCall]
    intro e he
    exact hcalls e (Heap.mem_filteredInEdges.mp he).1

end ProgramFlow

/-- Both copies of `filtered_in_degree` count, in any order, the in-edges of a vertex
that are neither back edges nor `Return` edges, with all `FunctionCall` edges as one. -/
theorem filteredInDegree_eq_countedInEdges {p : Program} (hp : LinkedProgram p)
    {v : VertexPtr} (hv : v ∈ p.vertices) (o o' : SetOrder) :
    filteredInDegree p.heap o v false = p.heap.countedInEdges v ∧
      filteredInDegree' p.heap o' v = filteredInDegree p.heap o v false := by
  obtain ⟨home, hflow, -⟩ := hp.flow
  have hhome := hflow.home_of_mem_vertices hv
  have hsame : filteredInDegree' p.heap o' v = filteredInDegree p.heap o' v false := rfl
  rw [hsame, hflow.filteredInDegree_eq hhome, hflow.filteredInDegree_eq hhome]
  exact ⟨rfl, rfl⟩

/-- A function that is called twice. -/
def calledTwice : List FunctionInfo :=
  [⟨"f.c", "f", [(.functionCallUnresolved "g" "", .unknown),
      (.functionCallUnresolved "g" "", .unknown)]⟩,
    ⟨"f.c", "g", []⟩]

/-- Both calls enter the ENTRY of `g`, and count as one. -/
theorem filteredInDegree_eq_calledTwice :
    ∃ p, Program.parse blankMemory .ascending calledTwice = .ok p ∧
      ∃ v ∈ p.vertices, (p.heap.vertex v).statement = .entry ∧
        p.heap.inDegree v = 3 ∧ p.heap.countedInEdges v = 1 ∧
        filteredInDegree p.heap .ascending v false = p.heap.countedInEdges v ∧
        filteredInDegree' p.heap .descending v = filteredInDegree p.heap .ascending v false := by
  have hcheck : (Program.parse blankMemory .ascending calledTwice).Holds fun p =>
      ∃ v ∈ p.vertices, (p.heap.vertex v).statement = .entry ∧
        p.heap.inDegree v = 3 ∧ p.heap.countedInEdges v = 1 := by
    decide +kernel
  obtain ⟨p, hrun, v, hv, hentry, hdegree, hcount⟩ := hcheck
  exact ⟨p, hrun, v, hv, hentry, hdegree, hcount,
    filteredInDegree_eq_countedInEdges (linkedProgram_of_parse (by decide) hrun) hv _ _⟩

end CoFlo.Ports
