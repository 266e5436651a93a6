import CoFlo.Ports.InDegree
import CoFlo.Ports.KahnOrder
import CoFlo.Ports.PrintedCalls
import CoFlo.Verified.FiringBound
import Mathlib.Algebra.BigOperators.Group.Finset.Piecewise
import Mathlib.Data.Nat.Count

/-!
# Tokens in a visit of `PrintControlFlowGraph`

Seen from the in-degree map, an edge that is examined and not skipped brings a
token to its target, and a vertex takes as many as its in-degree is before it
is put on the set again.  Along a run that has not ended this gives the numbers
of visits in terms of each other: a vertex brings at most one token to each
out-edge in a visit (`Endless.crossings_le`), and has been paid for all its visits
but the first one of the printed ENTRY (`Endless.degrees`).  `FunctionCall` edges
are crossed after a frame has been pushed only, and there are no more visits of
EXITs than frames.
-/

namespace CoFlo.Ports

open CoFlo.Verified.FiringBound CoFlo.Verified.StepMachine FunctionCFGVisitor

/-- The in-edges that are not back edges. -/
def Heap.unmarkedInEdges (h : Heap) (v : VertexPtr) : Finset EdgePtr :=
  (h.vertex v).inEdges.filter fun e => (h.edge e).isBackEdge = false

namespace PrintControlFlowGraph

/-! ## What a step does -/

/-- The edge that the next step takes out of the in-degree of its target. -/
def State.crossing (h : Heap) (s : State) : Option EdgePtr :=
  s.visiting.bind fun x =>
    x.ei.head?.filter fun e => !(skipEdge h e s.visitor).1

/-- The call for which the next step pushes a frame. -/
def State.entering (h : Heap) (s : State) : Option VertexPtr :=
  (s.discovering h).filter fun u =>
    (h.vertex u).statement.calledFunction.any fun g => g ∉ s.callees h

/-- The edges the vertex that is being visited has not examined yet. -/
def State.pending (s : State) : List EdgePtr :=
  s.visiting.elim [] (·.ei)

/-- What a round of the loop over the out-edges does to the set and the map. -/
inductive EdgeExamined (h : Heap) (o : IterationOrder) (s t : State)
    (e : EdgePtr) : Prop where
  | skip (hskip : (skipEdge h e s.visitor).1 = true)
      (hset : t.noRemainingInEdgesSet = s.noRemainingInEdgesSet)
      (hmap : t.inDegreeMap = s.inDegreeMap)
  | count (hskip : (skipEdge h e s.visitor).1 = false)
      (hid : s.inDegreeMap.lookup (filteredInDegree h o.inEdges · false)
        (h.edge e).target ≠ 1)
      (hset : t.noRemainingInEdgesSet = s.noRemainingInEdgesSet)
      (hmap : t.inDegreeMap.underlyingMap =
        Function.update s.inDegreeMap.underlyingMap (h.edge e).target
          (some (s.inDegreeMap.lookup (filteredInDegree h o.inEdges · false)
            (h.edge e).target - 1)))
  | push (hskip : (skipEdge h e s.visitor).1 = false)
      (hid : s.inDegreeMap.lookup (filteredInDegree h o.inEdges · false)
        (h.edge e).target = 1)
      (hset : t.noRemainingInEdgesSet = e :: s.noRemainingInEdgesSet)
      (hmap : t.inDegreeMap.underlyingMap =
        Function.update s.inDegreeMap.underlyingMap (h.edge e).target none)

/-- What a step does when nothing goes wrong. -/
inductive PrintStep (h : Heap) (o : IterationOrder) (s t : State) : Prop where
  | discover (e : EdgePtr) (rest : List EdgePtr) (hvisiting : s.visiting = none)
      (hset : s.noRemainingInEdgesSet = e :: rest)
      (hrest : t.noRemainingInEdgesSet = rest)
      (hmap : t.inDegreeMap = s.inDegreeMap)
      (hnext : t.visiting = some ⟨(h.edge e).target,
        o.outEdges.enum (h.vertex (h.edge e).target).outEdges, 0, none⟩)
      (hcalls : Discovers h (h.edge e).target s.visitor t.visitor)
  | examine (x y : TopologicalVisitKahn.Visiting) (e : EdgePtr)
      (hvisiting : s.visiting = some x) (hei : x.ei = e :: y.ei)
      (hnext : t.visiting = some y) (hu : y.u = x.u)
      (hcalls : SameCalls s.visitor t.visitor)
      (hexamined : EdgeExamined h o s t e)
  | complete (x : TopologicalVisitKahn.Visiting) (hvisiting : s.visiting = some x)
      (hei : x.ei = []) (hnext : t.visiting = none)
      (hset : t.noRemainingInEdgesSet = s.noRemainingInEdgesSet)
      (hmap : t.inDegreeMap = s.inDegreeMap)
      (hcalls : Completes h x.u s.visitor t.visitor)

section

variable {h : Heap} {o : IterationOrder} {f : FunctionPtr}
  {cfgVerbose cfgVertexIds : Bool} {s t : State}

theorem skipEdge_of_examineEdge {e : EdgePtr} {r : EdgeReturnValue}
    {v v' : FunctionCFGVisitor} (hcall : examineEdge h e v = .ok (r, v')) :
    (skipEdge h e v).1 = true ↔ r = .terminateBranch := by
  have hr : r = if (skipEdge h e v).1 then .terminateBranch else .ok :=
    (congrArg Prod.fst (Except.ok.inj hcall)).symm
  rw [hr]
  cases (skipEdge h e v).1 <;> decide

theorem step_printStep (hstep : step h o f cfgVerbose cfgVertexIds s = some t)
    (ht : t.stop = none) : PrintStep h o s t := by
  obtain ⟨-, hmoves⟩ := TopologicalVisitKahn.step_moves _ _ _ _ hstep
  cases hmoves with
  | discover hvisiting hset hcall hr =>
      exact .discover _ _ hvisiting hset rfl rfl rfl
        (discoverVertex_discovers h o _ hcall)
  | pass hvisiting hset hcall =>
      exact absurd (discoverVertex_ok hcall) (by decide)
  | skip hvisiting hei hcall =>
      exact .examine _ ⟨_, _, _, _⟩ _ hvisiting hei rfl rfl
        (examineEdge_sameCalls h hcall)
        (.skip ((skipEdge_of_examineEdge hcall).mpr rfl) rfl rfl)
  | count hvisiting hei hcall hr hid hmap =>
      have hskip := (skipEdge_of_examineEdge hcall).not.mpr hr
      exact .examine _ ⟨_, _, _, _⟩ _ hvisiting hei rfl rfl
        (examineEdge_sameCalls h hcall)
        (.count (Bool.not_eq_true _ ▸ hskip) hid rfl hmap)
  | push hvisiting hei hcall hr hid hmap htree =>
      have hskip := (skipEdge_of_examineEdge hcall).not.mpr hr
      have hsame := examineEdge_sameCalls h hcall
      have hvisitor := congrArg Prod.snd (Except.ok.inj htree)
      dsimp only at hvisitor
      rw [hvisitor] at hsame
      exact .examine _ ⟨_, _, _, _⟩ _ hvisiting hei rfl rfl hsame
        (.push (Bool.not_eq_true _ ▸ hskip) hid rfl hmap)
  | complete hvisiting hei hcall =>
      exact .complete _ hvisiting hei rfl rfl rfl
        (vertexVisitComplete_completes h o _ hcall)
  | fault hstop => exact absurd ht hstop

/-! ## What is seen of the state before -/

theorem State.discovering_of_head (hstop : s.stop = none)
    (hvisiting : s.visiting = none) {e : EdgePtr} {rest : List EdgePtr}
    (hset : s.noRemainingInEdgesSet = e :: rest) :
    s.discovering h = some (h.edge e).target := by
  simp [State.discovering, hstop, hvisiting, hset]

theorem State.discovering_of_visiting {x : TopologicalVisitKahn.Visiting}
    (hvisiting : s.visiting = some x) : s.discovering h = none := by
  simp [State.discovering, hvisiting]

theorem State.completing_of_nil (hstop : s.stop = none)
    {x : TopologicalVisitKahn.Visiting} (hvisiting : s.visiting = some x)
    (hei : x.ei = []) : s.completing = some x.u := by
  simp [State.completing, hstop, hvisiting, hei]

theorem State.crossing_of_idle (hvisiting : s.visiting = none) :
    s.crossing h = none := by
  simp [State.crossing, hvisiting]

theorem State.crossing_of_nil {x : TopologicalVisitKahn.Visiting}
    (hvisiting : s.visiting = some x) (hei : x.ei = []) :
    s.crossing h = none := by
  simp [State.crossing, hvisiting, hei]

theorem State.crossing_of_cons {x : TopologicalVisitKahn.Visiting}
    (hvisiting : s.visiting = some x) {e : EdgePtr} {ei : List EdgePtr}
    (hei : x.ei = e :: ei) :
    s.crossing h = if (skipEdge h e s.visitor).1 = true then none else some e := by
  cases hskip : (skipEdge h e s.visitor).1 <;>
    simp [State.crossing, hvisiting, hei, hskip]

/-- An edge is not crossed by examining another one. -/
theorem crossed_ne {d e : EdgePtr} {v : FunctionCFGVisitor} (hed : e ≠ d) :
    ¬ (if (skipEdge h d v).1 = true then none else some d) = some e := by
  split_ifs
  · simp
  · simpa using fun heq => hed heq.symm

theorem State.pending_of_idle (hvisiting : s.visiting = none) :
    s.pending = [] := by
  rw [State.pending, hvisiting, Option.elim_none]

theorem State.pending_of_visiting {x : TopologicalVisitKahn.Visiting}
    (hvisiting : s.visiting = some x) : s.pending = x.ei := by
  rw [State.pending, hvisiting, Option.elim_some]

theorem State.entering_of_visiting {x : TopologicalVisitKahn.Visiting}
    (hvisiting : s.visiting = some x) : s.entering h = none := by
  rw [State.entering, State.discovering_of_visiting hvisiting]
  rfl

/-- A frame is pushed for a call of a function that has none. -/
theorem State.entering_eq_some {u : VertexPtr} :
    s.entering h = some u ↔ s.discovering h = some u ∧
      ∃ g, (h.vertex u).statement.calledFunction = some g ∧ g ∉ s.callees h := by
  simp only [State.entering, Option.filter_eq_some_iff, Option.any_eq_true,
    decide_eq_true_eq]

/-- The step pushes the frame that the state before shows. -/
theorem PrintInv.pushedBy_eq (hs : PrintInv h s)
    (hstep : step h o f cfgVerbose cfgVertexIds s = some t) :
    pushedBy h s t = (s.entering h).toList := by
  unfold pushedBy State.entering
  cases hu : s.discovering h with
  | none => rfl
  | some u =>
      obtain ⟨-, hdiscovers⟩ := step_of_discovering hstep hu
      cases hg : (h.vertex u).statement.calledFunction with
      | none => simp [hg]
      | some g =>
          by_cases hmem : g ∈ s.callees h
          · have hflag := (hdiscovers.recursive g hg ((hs.mem_callSet g).mpr hmem)).2
            simp [hg, hmem, hflag, Option.filter_some]
          · have hflag := (hdiscovers.pushes g hg fun hset =>
              hmem ((hs.mem_callSet g).mp hset)).2
            simp [hg, hmem, hflag, Option.filter_some]

/-! ## Which edges are not skipped -/

theorem isBackEdge_of_skipEdge {e : EdgePtr} {v : FunctionCFGVisitor}
    (hskip : (skipEdge h e v).1 = false) : (h.edge e).isBackEdge = false := by
  unfold skipEdge at hskip
  split_ifs at hskip with hself hback
  exact Bool.not_eq_true _ ▸ hback

/-- A `FunctionCall` edge is skipped when the call is recursive. -/
theorem notRecursive_of_skipEdge {e : EdgePtr} {v : FunctionCFGVisitor}
    (hcall : (h.edge e).edgeType.isFunctionCall = true) {g : FunctionPtr}
    (hst : (h.vertex (h.edge e).source).statement.calledFunction = some g)
    (hskip : (skipEdge h e v).1 = false) :
    v.lastDiscoveredVertexIsRecursive = false := by
  obtain ⟨params, hst⟩ := Statement.calledFunction_eq_some.mp hst
  unfold skipEdge skipFromCall at hskip
  rw [hst] at hskip
  cases hty : (h.edge e).edgeType <;> simp_all [EdgeType.isFunctionCall]
  split_ifs at hskip with hself hback hflag
  exact Bool.not_eq_true _ ▸ hflag

/-- A `Return` edge is skipped unless it is that of the call on top of the stack. -/
theorem frames_of_skipEdge {e : EdgePtr} {c : VertexPtr} {v : FunctionCFGVisitor}
    (htype : (h.edge e).edgeType = .returnEdge c)
    (hskip : (skipEdge h e v).1 = false) (hne : v.callStack.callStack ≠ []) :
    ∃ x ∈ v.callStack.callStack,
      x.functionCallWhichPushedThisFrame = c ∧ c ≠ null := by
  cases hstack : v.callStack.callStack with
  | nil => exact absurd hstack hne
  | cons x rest =>
      refine ⟨x, List.mem_cons_self, ?_⟩
      unfold skipEdge skipReturn at hskip
      rw [htype, hstack] at hskip
      by_cases hnull : x.functionCallWhichPushedThisFrame = null
      · simp only [hnull, if_true] at hskip
        split_ifs at hskip
      · by_cases heq : c = x.functionCallWhichPushedThisFrame
        · exact ⟨heq.symm, heq ▸ hnull⟩
        · simp only [hnull, heq, if_false, not_false_eq_true, decide_true,
            if_true, ne_eq] at hskip
          split_ifs at hskip

end

/-! ## A run that does not end -/

/-- A run of `PrintControlFlowGraph` that goes on for ever. -/
structure Endless (h : Heap) (o : IterationOrder) (f : FunctionPtr)
    (cfgVerbose cfgVertexIds : Bool) (s : Nat → State) : Prop where
  first : s 0 = start h o f cfgVerbose cfgVertexIds
  next : ∀ n, step h o f cfgVerbose cfgVertexIds (s n) = some (s (n + 1))
  inv : ∀ n, PrintInv h (s n)

section counters

variable (h : Heap) (s : Nat → State)

/-- How often the vertex is discovered in the first `n` steps. -/
def discoveries (v : VertexPtr) (n : Nat) : Nat :=
  Nat.count (fun i => (s i).discovering h = some v) n

/-- How many tokens the edge brings in the first `n` steps. -/
def crossings (e : EdgePtr) (n : Nat) : Nat :=
  Nat.count (fun i => (s i).crossing h = some e) n

/-- How many frames are pushed in the first `n` steps. -/
def pushes (n : Nat) : Nat :=
  Nat.count (fun i => (s i).entering h ≠ none) n

/-- How many EXITs are discovered in the first `n` steps. -/
def exits (n : Nat) : Nat :=
  Nat.count (fun i => ((s i).discovering h).any fun u =>
    (h.vertex u).statement = .exit) n

/-- How many tokens the vertex is brought in the first `n` steps. -/
def tokens (v : VertexPtr) (n : Nat) : Nat :=
  ∑ e ∈ h.unmarkedInEdges v, crossings h s e n

/-- How often an edge to the vertex is put on the set in the first `n` steps;
`entry` is on it from the start. -/
def fired (entry v : VertexPtr) (n : Nat) : Int :=
  (discoveries h s v n + (s n).noRemainingInEdgesSet.countP
    fun e => (h.edge e).target = v : Nat) - if v = entry then 1 else 0

variable {h s}

theorem discoveries_succ (v : VertexPtr) (n : Nat) :
    discoveries h s v (n + 1) =
      discoveries h s v n + if (s n).discovering h = some v then 1 else 0 :=
  Nat.count_succ _ _

theorem crossings_succ (e : EdgePtr) (n : Nat) :
    crossings h s e (n + 1) =
      crossings h s e n + if (s n).crossing h = some e then 1 else 0 :=
  Nat.count_succ _ _

theorem pushes_succ (n : Nat) :
    pushes h s (n + 1) = pushes h s n + ((s n).entering h).toList.length := by
  have hsucc : pushes h s (n + 1) =
      pushes h s n + if (s n).entering h ≠ none then 1 else 0 := Nat.count_succ _ _
  rw [hsucc]
  cases (s n).entering h <;> rfl

theorem exits_succ (n : Nat) :
    exits h s (n + 1) = exits h s n +
      if (((s n).discovering h).any fun u => (h.vertex u).statement = .exit) = true
        then 1 else 0 :=
  Nat.count_succ _ _

/-- The EXITs are among the vertices. -/
theorem discoveries_le_exits {v : VertexPtr}
    (hv : (h.vertex v).statement = .exit) (n : Nat) :
    discoveries h s v n ≤ exits h s n := by
  refine Nat.count_mono_left fun i _ hi => ?_
  rw [hi]
  exact decide_eq_true hv

theorem tokens_succ (v : VertexPtr) (n : Nat) :
    tokens h s v (n + 1) = tokens h s v n +
      if ∃ e ∈ h.unmarkedInEdges v, (s n).crossing h = some e then 1 else 0 := by
  have hsum : tokens h s v (n + 1) = tokens h s v n +
      ∑ e ∈ h.unmarkedInEdges v, if (s n).crossing h = some e then 1 else 0 := by
    unfold tokens
    rw [← Finset.sum_add_distrib]
    exact Finset.sum_congr rfl fun e _ => crossings_succ e n
  rw [hsum]
  cases (s n).crossing h with
  | none => simp
  | some d => simp only [Option.some.injEq, Finset.sum_ite_eq, exists_eq_right']

theorem fired_of_same {entry v : VertexPtr} {n : Nat}
    (hdiscovering : (s n).discovering h = none)
    (hset : (s (n + 1)).noRemainingInEdgesSet = (s n).noRemainingInEdgesSet) :
    fired h s entry v (n + 1) = fired h s entry v n := by
  unfold fired
  rw [discoveries_succ, hset, hdiscovering, if_neg (by simp), Nat.add_zero]

theorem fired_of_push {entry v : VertexPtr} {n : Nat} {e : EdgePtr}
    (hdiscovering : (s n).discovering h = none)
    (hset : (s (n + 1)).noRemainingInEdgesSet =
      e :: (s n).noRemainingInEdgesSet) :
    fired h s entry v (n + 1) =
      fired h s entry v n + if (h.edge e).target = v then 1 else 0 := by
  unfold fired
  rw [discoveries_succ, hset, hdiscovering, if_neg (by simp), Nat.add_zero,
    List.countP_cons]
  simp only [decide_eq_true_eq]
  split_ifs <;> omega

/-- A token for the target of the edge. -/
theorem tokens_of_crossing (hc : h.Consistent) {n : Nat} {e : EdgePtr}
    (hnull : (h.edge e).target ≠ null) (hcrossing : (s n).crossing h = some e)
    (hback : (h.edge e).isBackEdge = false) :
    tokens h s (h.edge e).target (n + 1) = tokens h s (h.edge e).target n + 1 := by
  rw [tokens_succ, if_pos]
  exact ⟨e, Finset.mem_filter.mpr
    ⟨(hc.mem_inEdges _ e).mpr ⟨rfl, hnull⟩, hback⟩, hcrossing⟩

/-- And for no other vertex. -/
theorem tokens_of_ne (hc : h.Consistent) {n : Nat} {e : EdgePtr} {v : VertexPtr}
    (hcrossing : (s n).crossing h = some e) (hv : (h.edge e).target ≠ v) :
    tokens h s v (n + 1) = tokens h s v n := by
  rw [tokens_succ, if_neg, Nat.add_zero]
  rintro ⟨d, hd, hcrossing'⟩
  have hed := Option.some.inj (hcrossing.symm.trans hcrossing')
  have htarget := ((hc.mem_inEdges v d).mp (Finset.mem_filter.mp hd).1).1
  exact hv (hed ▸ htarget)


end counters

/-! ## What is paid for by what -/

/-- The step is in the visit of an EXIT. -/
def State.inExit (h : Heap) (s : State) : Nat :=
  if (s.visiting.any fun x => (h.vertex x.u).statement = .exit) = true then 1 else 0

/-- What is still to be done in the visit of a vertex. -/
def State.left (s : State) : Nat :=
  s.visiting.elim 0 fun x => x.ei.length + 1

namespace Endless

variable {h : Heap} {o : IterationOrder} {f : FunctionPtr}
  {cfgVerbose cfgVertexIds : Bool} {s : Nat → State}
  (hs : Endless h o f cfgVerbose cfgVertexIds s)

include hs

theorem stop (n : Nat) : (s n).stop = none :=
  (TopologicalVisitKahn.step_moves _ _ _ _ (hs.next n)).1

theorem printStep (n : Nat) : PrintStep h o (s n) (s (n + 1)) :=
  step_printStep (hs.next n) (hs.stop (n + 1))

theorem exists_first : ∃ cfg, s 0 =
    ⟨[(h.function f).entryVertexSelfEdge], .empty, none,
      { FunctionCFGVisitor.new with callStack := ⟨[.new null cfg], ∅⟩ }, none⟩ := by
  rw [hs.first]
  exact start_eq_of_stop (hs.first ▸ hs.stop 0)

/-- Every step is part of a visit, or discovers a vertex. -/
theorem steps_eq (hc : h.Consistent) (n : Nat) :
    n + (s n).left = ∑ v ∈ Finset.range h.nextVertex,
      discoveries h s v n * ((h.vertex v).outEdges.card + 2) := by
  induction n with
  | zero =>
      obtain ⟨cfg, hfirst⟩ := hs.exists_first
      rw [hfirst]
      simp [State.left, discoveries]
  | succ n ih =>
      have hsum : ∑ v ∈ Finset.range h.nextVertex,
            discoveries h s v (n + 1) * ((h.vertex v).outEdges.card + 2) =
          n + (s n).left + ∑ v ∈ Finset.range h.nextVertex,
            (if (s n).discovering h = some v then
              (h.vertex v).outEdges.card + 2 else 0) := by
        rw [ih, ← Finset.sum_add_distrib]
        refine Finset.sum_congr rfl fun v _ => ?_
        rw [discoveries_succ, Nat.add_mul]
        split_ifs <;> simp
      rw [hsum]
      cases hs.printStep n with
      | discover e rest hvisiting hset hrest hmap hnext hcalls =>
          have hlt := Finset.mem_range.mpr (hc.target_lt e)
          rw [State.discovering_of_head (hs.stop n) hvisiting hset]
          simp only [Option.some.injEq]
          rw [Finset.sum_ite_eq, if_pos hlt]
          simp only [State.left, hvisiting, hnext, Option.elim_some,
            Option.elim_none, SetOrder.length_enum]
          omega
      | examine x y e hvisiting hei hnext hu hcalls hexamined =>
          rw [State.discovering_of_visiting hvisiting]
          simp only [State.left, hvisiting, hnext, hei, Option.elim_some,
            List.length_cons, reduceCtorEq, if_false, Finset.sum_const_zero]
          omega
      | complete x hvisiting hei hnext hset hmap hcalls =>
          rw [State.discovering_of_visiting hvisiting]
          simp only [State.left, hvisiting, hnext, hei, Option.elim_some,
            Option.elim_none, List.length_nil, reduceCtorEq, if_false,
            Finset.sum_const_zero]

/-- The edges that are pending are different out-edges of the vertex that is
being visited. -/
theorem pending_out (n : Nat) : (s n).pending.Nodup ∧
    ∀ x, (s n).visiting = some x → ∀ e ∈ x.ei, e ∈ (h.vertex x.u).outEdges := by
  induction n with
  | zero =>
      obtain ⟨cfg, hfirst⟩ := hs.exists_first
      rw [hfirst]
      exact ⟨List.nodup_nil, fun x hx => absurd hx (by simp)⟩
  | succ n ih =>
      unfold State.pending at ih ⊢
      cases hs.printStep n with
      | discover e rest hvisiting hset hrest hmap hnext hcalls =>
          rw [hnext]
          refine ⟨o.outEdges.nodup_enum _, fun x hx d hd => ?_⟩
          rw [← Option.some.inj hx, SetOrder.mem_enum] at hd
          rwa [← Option.some.inj hx]
      | examine x y e hvisiting hei hnext hu hcalls hexamined =>
          rw [hvisiting, Option.elim_some, hei, List.nodup_cons] at ih
          rw [hnext]
          refine ⟨ih.1.2, fun x' hx' d hd => ?_⟩
          rw [← Option.some.inj hx'] at hd ⊢
          rw [hu]
          exact ih.2 x rfl d (hei ▸ List.mem_cons_of_mem e hd)
      | complete x hvisiting hei hnext hset hmap hcalls =>
          rw [hnext]
          exact ⟨List.nodup_nil, fun x hx => absurd hx (by simp)⟩

/-- A visit brings a token to the other end of an edge once at most, and not
before the edge has been examined. -/
theorem crossings_add_le (hc : h.Consistent) (n : Nat) (e : EdgePtr) :
    crossings h s e n + (if e ∈ (s n).pending then 1 else 0) ≤
      discoveries h s (h.edge e).source n := by
  induction n with
  | zero =>
      obtain ⟨cfg, hfirst⟩ := hs.exists_first
      rw [hfirst]
      simp [State.pending, crossings]
  | succ n ih =>
      obtain ⟨hnodup, hout⟩ := hs.pending_out n
      rw [crossings_succ, discoveries_succ]
      cases hs.printStep n with
      | discover d rest hvisiting hset hrest hmap hnext hcalls =>
          rw [State.crossing_of_idle hvisiting,
            State.discovering_of_head (hs.stop n) hvisiting hset,
            State.pending_of_visiting hnext]
          rw [State.pending_of_idle hvisiting, if_neg List.not_mem_nil] at ih
          by_cases hmem : e ∈ (h.vertex (h.edge d).target).outEdges
          · have hsource := ((hc.mem_outEdges _ e).mp hmem).1
            rw [hsource] at ih ⊢
            rw [if_pos rfl, if_pos ((o.outEdges.mem_enum _).mpr hmem),
              if_neg (by simp)]
            omega
          · rw [if_neg fun hin => hmem ((o.outEdges.mem_enum _).mp hin),
              if_neg (by simp)]
            omega
      | examine x y d hvisiting hei hnext hu hcalls hexamined =>
          rw [State.crossing_of_cons hvisiting hei,
            State.discovering_of_visiting hvisiting,
            State.pending_of_visiting hnext, if_neg (by simp : ¬ none = some _)]
          rw [State.pending_of_visiting hvisiting, hei] at ih hnodup
          have hnot := (List.nodup_cons.mp hnodup).1
          by_cases hed : e = d
          · subst hed
            rw [if_pos List.mem_cons_self] at ih
            rw [if_neg hnot]
            split_ifs <;> omega
          · rw [if_neg (crossed_ne hed)]
            by_cases hmem : e ∈ y.ei
            · rw [if_pos (List.mem_cons_of_mem d hmem)] at ih
              rw [if_pos hmem]
              omega
            · rw [if_neg hmem]
              omega
      | complete x hvisiting hei hnext hset hmap hcalls =>
          rw [State.crossing_of_nil hvisiting hei,
            State.discovering_of_visiting hvisiting,
            State.pending_of_idle hnext, if_neg List.not_mem_nil,
            if_neg (by simp), if_neg (by simp)]
          omega

theorem crossings_le (hc : h.Consistent) (n : Nat) (e : EdgePtr) :
    crossings h s e n ≤ discoveries h s (h.edge e).source n := by
  have hle := hs.crossings_add_le hc n e
  omega

/-! ## Frames -/

/-- As many EXITs have been visited as frames have been popped, and one more
during the visit. -/
theorem exits_add (hc : h.Consistent) (n : Nat) :
    exits h s n + (s n).openCalls.length = pushes h s n + (s n).inExit h := by
  induction n with
  | zero =>
      obtain ⟨cfg, hfirst⟩ := hs.exists_first
      rw [hfirst]
      simp [exits, pushes, State.inExit, State.openCalls, State.frames,
        CallStackFrame.new]
  | succ n ih =>
      have hcalls := congrArg List.length
        ((hs.inv n).pushedBy_append hc (hs.next n) (hs.stop (n + 1)))
      rw [(hs.inv n).pushedBy_eq (hs.next n), List.length_append,
        List.length_append] at hcalls
      rw [exits_succ, pushes_succ]
      unfold State.inExit at ih ⊢
      unfold poppedBy State.completing at hcalls
      rw [if_pos (hs.stop n)] at hcalls
      cases hs.printStep n with
      | discover e rest hvisiting hset hrest hmap hnext _ =>
          rw [State.discovering_of_head (hs.stop n) hvisiting hset, hnext]
          rw [hvisiting] at ih hcalls
          simp only [Option.bind_none, List.length_nil, Option.any_none,
            Bool.false_eq_true, if_false] at ih hcalls
          simp only [Option.any_some]
          omega
      | examine x y e hvisiting hei hnext hu _ hexamined =>
          rw [State.discovering_of_visiting hvisiting, hnext]
          rw [hvisiting] at ih hcalls
          simp only [Option.bind_some, hei, reduceCtorEq, if_false,
            List.length_nil] at hcalls
          simp only [Option.any_some, Option.any_none, hu, Bool.false_eq_true,
            if_false] at ih ⊢
          omega
      | complete x hvisiting hei hnext hset hmap _ =>
          rw [State.discovering_of_visiting hvisiting, hnext,
            State.entering_of_visiting hvisiting]
          rw [hvisiting, State.entering_of_visiting hvisiting] at hcalls
          rw [hvisiting] at ih
          simp only [Option.bind_some, hei, if_true, hs.stop (n + 1), and_true,
            Option.toList_none, List.length_nil] at hcalls
          simp only [Option.any_some, Option.any_none, decide_eq_true_eq,
            Bool.false_eq_true, if_false, Option.toList_none,
            List.length_nil] at ih ⊢
          by_cases hexit : (h.vertex x.u).statement = .exit
          · obtain ⟨calls, bottom, hframes, -⟩ := (hs.inv n).frames
            have hpos : (s n).frames.length = calls.length + 1 := by
              rw [hframes, List.length_append]
              rfl
            rw [if_pos hexit, List.length_map, List.length_take] at hcalls
            rw [if_pos hexit] at ih
            omega
          · rw [if_neg hexit, List.length_nil] at hcalls
            rw [if_neg hexit] at ih
            omega

/-- No more than one EXIT has been visited without a frame of a call. -/
theorem exits_le (hc : h.Consistent) (n : Nat) :
    exits h s n ≤ pushes h s n + 1 := by
  have heq := hs.exits_add hc n
  unfold State.inExit at heq
  split_ifs at heq <;> omega

/-- A `FunctionCall` edge is crossed after its call has pushed a frame. -/
theorem calls_add_le {functions : List FunctionPtr} {home : VertexPtr → FunctionPtr}
    (hp : ProgramFlow functions home h) {e : EdgePtr} (he : (h.edge e).source ≠ null)
    (hcall : (h.edge e).edgeType.isFunctionCall = true) (n : Nat) :
    crossings h s e n + (if e ∈ (s n).pending ∧
        (s n).visitor.lastDiscoveredVertexIsRecursive = false then 1 else 0) ≤
      pushes h s n := by
  obtain ⟨g, hg⟩ : ∃ g,
      (h.vertex (h.edge e).source).statement.calledFunction = some g := by
    cases htype : (h.edge e).edgeType with
    | functionCall c g =>
        obtain ⟨hsource, -, params, hst, -⟩ := hp.callEdge e c g he htype
        exact ⟨g, Statement.calledFunction_eq_some.mpr ⟨params, hsource ▸ hst⟩⟩
    | _ => simp [htype, EdgeType.isFunctionCall] at hcall
  induction n with
  | zero =>
      obtain ⟨cfg, hfirst⟩ := hs.exists_first
      rw [hfirst]
      simp [State.pending, crossings]
  | succ n ih =>
      obtain ⟨hnodup, -⟩ := hs.pending_out n
      rw [crossings_succ, pushes_succ]
      cases hs.printStep n with
      | discover d rest hvisiting hset hrest hmap hnext hcalls =>
          rw [State.crossing_of_idle hvisiting, State.pending_of_visiting hnext,
            if_neg (by simp)]
          split_ifs with hmem
          · -- The vertex that is discovered is the call.
            have hout := (o.outEdges.mem_enum _).mp hmem.1
            have hsource := ((hp.consistent.mem_outEdges _ e).mp hout).1
            have hnew : g ∉ (s n).callees h := by
              intro hin
              rw [hsource] at hg
              have hflag := (hcalls.recursive g hg
                (((hs.inv n).mem_callSet g).mpr hin)).2
              rw [hmem.2] at hflag
              exact Bool.false_ne_true hflag
            have henter : (s n).entering h = some (h.edge d).target :=
              State.entering_eq_some.mpr
                ⟨State.discovering_of_head (hs.stop n) hvisiting hset, g,
                  hsource ▸ hg, hnew⟩
            rw [henter, Option.toList_some, List.length_singleton]
            omega
          · omega
      | examine x y d hvisiting hei hnext hu hcalls hexamined =>
          rw [State.crossing_of_cons hvisiting hei,
            State.pending_of_visiting hnext, State.entering_of_visiting hvisiting,
            hcalls.lastDiscoveredVertexIsRecursive, Option.toList_none,
            List.length_nil]
          rw [State.pending_of_visiting hvisiting, hei] at ih hnodup
          have hnot := (List.nodup_cons.mp hnodup).1
          by_cases hed : e = d
          · subst hed
            have hdone : ¬ (e ∈ y.ei ∧
                (s n).visitor.lastDiscoveredVertexIsRecursive = false) :=
              fun hcond => hnot hcond.1
            rw [if_neg hdone]
            cases hskip : (skipEdge h e (s n).visitor).1 with
            | true =>
                rw [if_pos (rfl : true = true), if_neg (by simp)]
                omega
            | false =>
                have hflag := notRecursive_of_skipEdge hcall hg hskip
                rw [if_pos ⟨List.mem_cons_self, hflag⟩] at ih
                rw [if_neg Bool.false_ne_true, if_pos rfl]
                omega
          · rw [if_neg (crossed_ne hed)]
            by_cases hmem : e ∈ y.ei ∧
                (s n).visitor.lastDiscoveredVertexIsRecursive = false
            · rw [if_pos ⟨List.mem_cons_of_mem d hmem.1, hmem.2⟩] at ih
              rw [if_pos hmem]
              omega
            · rw [if_neg hmem]
              omega
      | complete x hvisiting hei hnext hset hmap hcalls =>
          rw [State.crossing_of_nil hvisiting hei, State.pending_of_idle hnext,
            State.entering_of_visiting hvisiting, if_neg (by simp),
            if_neg fun hcond => List.not_mem_nil hcond.1, Option.toList_none,
            List.length_nil]
          omega

/-- Edges from one function to another bring as many tokens as frames have been
pushed, or one more. -/
theorem crossings_le_pushes {functions : List FunctionPtr}
    {home : VertexPtr → FunctionPtr} (hp : ProgramFlow functions home h)
    {e : EdgePtr} (he : (h.edge e).source ≠ null)
    (htype : (h.edge e).edgeType.isFunctionCall = true ∨
      (h.edge e).edgeType.isReturn = true) (n : Nat) :
    crossings h s e n ≤ pushes h s n + 1 := by
  cases hty : (h.edge e).edgeType with
  | functionCall c g =>
      have hle := hs.calls_add_le hp he (by rw [hty]; rfl) n
      omega
  | returnEdge c =>
      obtain ⟨hhome, -, g, params, d, hst, hsource, -⟩ := hp.returnEdge e c he hty
      have hexit : (h.vertex (h.edge e).source).statement = .exit := by
        rw [hsource]
        exact hp.exitStatement (hp.resolved c g params hhome hst).1
      calc crossings h s e n ≤ discoveries h s (h.edge e).source n :=
            hs.crossings_le hp.consistent n e
        _ ≤ exits h s n := discoveries_le_exits hexit n
        _ ≤ pushes h s n + 1 := hs.exits_le hp.consistent n
  | _ => simp [hty, EdgeType.isFunctionCall, EdgeType.isReturn] at htype

/-! ## In-degrees -/

/-- Every visit of a vertex, but for the first of the printed ENTRY, has been paid
for with as many tokens as the in-degree. -/
theorem counter (hc : h.Consistent) (v : VertexPtr) (n : Nat) :
    Counter (filteredInDegree h o.inEdges v false)
      ((s n).inDegreeMap.lookup (filteredInDegree h o.inEdges · false) v)
      (fired h s (h.edge (h.function f).entryVertexSelfEdge).target v n)
      (tokens h s v n) := by
  induction n with
  | zero =>
      obtain ⟨cfg, hfirst⟩ := hs.exists_first
      have hfired : fired h s (h.edge (h.function f).entryVertexSelfEdge).target v 0 =
          0 := by
        unfold fired
        rw [hfirst]
        by_cases heq : (h.edge (h.function f).entryVertexSelfEdge).target = v
        · simp [discoveries, heq]
        · simp [discoveries, heq, Ne.symm heq]
      have htokens : tokens h s v 0 = 0 := by simp [tokens, crossings]
      rw [hfired, htokens, hfirst]
      exact .start _
  | succ n ih =>
      cases hs.printStep n with
      | discover e rest hvisiting hset hrest hmap hnext hcalls =>
          have hfired : fired h s (h.edge (h.function f).entryVertexSelfEdge).target
              v (n + 1) = fired h s
                (h.edge (h.function f).entryVertexSelfEdge).target v n := by
            unfold fired
            rw [discoveries_succ, hrest, hset, List.countP_cons,
              State.discovering_of_head (hs.stop n) hvisiting hset]
            simp only [Option.some.injEq, decide_eq_true_eq]
            omega
          rw [hfired, tokens_succ, State.crossing_of_idle hvisiting, hmap]
          simpa using ih
      | examine x y e hvisiting hei hnext hu hcalls hexamined =>
          have hsource := (hs.inv n).visiting x hvisiting e
            (hei ▸ List.mem_cons_self)
          have hnull : (h.edge e).target ≠ null :=
            fun heq => hsource ((hc.source_eq_null e).mpr heq)
          have hsame := State.discovering_of_visiting (h := h) hvisiting
          have hcrossing := State.crossing_of_cons (h := h) hvisiting hei
          cases hexamined with
          | skip hskip hset hmap =>
              rw [hskip, if_pos rfl] at hcrossing
              rw [fired_of_same hsame hset, tokens_succ, hcrossing, hmap]
              simpa using ih
          | count hskip hid hset hmap =>
              rw [hskip, if_neg Bool.false_ne_true] at hcrossing
              rw [fired_of_same hsame hset,
                TopologicalVisitKahn.lookup_update hmap]
              by_cases hv : (h.edge e).target = v
              · subst hv
                rw [Function.update_self, Option.getD_some,
                  tokens_of_crossing hc hnull hcrossing
                    (isBackEdge_of_skipEdge hskip)]
                exact ih.count hid
              · rw [Function.update_of_ne (Ne.symm hv),
                  tokens_of_ne hc hcrossing hv]
                exact ih
          | push hskip hid hset hmap =>
              rw [hskip, if_neg Bool.false_ne_true] at hcrossing
              rw [fired_of_push hsame hset,
                TopologicalVisitKahn.lookup_update hmap]
              by_cases hv : (h.edge e).target = v
              · subst hv
                rw [Function.update_self, Option.getD_none, if_pos rfl,
                  tokens_of_crossing hc hnull hcrossing
                    (isBackEdge_of_skipEdge hskip)]
                exact ih.fire hid
              · rw [Function.update_of_ne (Ne.symm hv), if_neg hv, Int.add_zero,
                  tokens_of_ne hc hcrossing hv]
                exact ih
      | complete x hvisiting hei hnext hset hmap hcalls =>
          rw [fired_of_same (State.discovering_of_visiting hvisiting) hset, tokens_succ, State.crossing_of_nil hvisiting hei, hmap]
          simpa using ih

end Endless

end PrintControlFlowGraph

end CoFlo.Ports
