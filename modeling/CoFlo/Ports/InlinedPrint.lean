import CoFlo.Ports.VisitCalls
import Mathlib.Data.Set.Card

/-!
# `PrintControlFlowGraph` walks over the inlined program

When no function calls itself in the end, and every function that is called is
one in which all ways lead from ENTRY to EXIT, the visit discovers the vertices
of the printed function in a topological order, and after a call all of the
called function before it goes on.  One in-degree map and one set serve all the
calls: a function is left when nothing of it is on the set any more, and with
every entry of it erased from the map (`walksOver_of_inlinable`).
-/

namespace CoFlo.Ports

open CoFlo.Verified CoFlo.Verified.Detours CoFlo.Verified.StepMachine
open CoFlo.Verified.Transcript Relation

namespace PrintControlFlowGraph

/-! ## A call -/

/-- A visit that comes to the ENTRY of `g`, with nothing of what `g` may call in the
map or among the open calls, walks over `g` up to its EXIT and leaves everything else
as it was. -/
def WalksOver (functions : List FunctionPtr) (home : VertexPtr → FunctionPtr) (h : Heap)
    (o : IterationOrder) (f : FunctionPtr) (cfgVerbose cfgVertexIds : Bool)
    (g : FunctionPtr) : Prop :=
  ∀ (s : State) (e : EdgePtr) (rest : List EdgePtr) (map : VertexPtr → Option Int)
    (calls : DFSCallStack), Idle s (e :: rest) map calls →
    (h.edge e).target = (h.function g).entryVertexDesc →
    (∀ g', ReflTransGen h.Calls g g' → ∀ v, home v = g' → map v = none) →
    (∀ g', TransGen h.Calls g g' → g' ∉ calls.callSet) →
    ∃ t recursive order l, Visits h o f cfgVerbose cfgVertexIds s l t ∧
      Busy t (h.function g).exitVertexDesc (o.outEdges.enum
        (h.vertex (h.function g).exitVertexDesc).outEdges) rest map calls recursive ∧
      InlinedWalk.IsOrder (h.graphs functions) g order ∧
      InlinedWalk.Walk (h.graphs functions) (openIn calls.callStack) order l

section inlined

variable {functions : List FunctionPtr} {home : VertexPtr → FunctionPtr} {h : Heap}
  (hp : ProgramFlow functions home h) (hlinked : CallsLinked functions home h)
  {g : FunctionPtr} (hg : g ∈ functions) (hw : h.Walkable g) {o : IterationOrder}
  {before map : VertexPtr → Option Int} {rs : List EdgePtr}
  {k : KahnVisit.State VertexPtr EdgePtr} {f : FunctionPtr}
  {cfgVerbose cfgVertexIds : Bool} {s : State} {rest : List EdgePtr}
  {calls : DFSCallStack}

include hp hg hw hlinked

/-- The visit of a call, with all of the function it calls. -/
theorem Tracks.exists_call {c : VertexPtr} (hc : c ∈ (h.graph g).vertices)
    {g' : FunctionPtr} (hcalled : (h.vertex c).statement.calledFunction = some g')
    (hacyclic : ∀ g', ReflTransGen h.Calls g g' → ¬ TransGen h.Calls g' g')
    (hbefore : ∀ g', ReflTransGen h.Calls g g' → ∀ v, home v = g' → before v = none)
    (hset : ∀ g', TransGen h.Calls g g' → g' ∉ calls.callSet)
    (ih : WalksOver functions home h o f cfgVerbose cfgVertexIds g')
    {e : EdgePtr} (htarget : (h.edge e).target = c)
    (hk : Tracks home h o g before rs map k)
    (hpending : k.pending = some (o.outEdges.enum (h.vertex c).outEdges))
    (hs : Idle s (e :: (rs ++ rest)) map calls) :
    ∃ t rs' map' k' order inner,
      Visits h o f cfgVerbose cfgVertexIds s
        ((openIn calls.callStack, c) :: inner) t ∧
      Idle t (rs' ++ rest) map' calls ∧ Tracks home h o g before rs' map' k' ∧
      k'.pending = some [] ∧ k'.discovered = k.discovered ∧
      InlinedWalk.IsOrder (h.graphs functions) g' order ∧
      InlinedWalk.Walk (h.graphs functions) (c :: openIn calls.callStack) order
        inner := by
  have hcalls : h.Calls g g' := ⟨c, hc, hcalled⟩
  have hother : g ≠ g' := fun heq => hacyclic g .refl (.single (heq ▸ hcalls))
  have hg' := callee_mem hp hg hcalls
  obtain ⟨hhome, hne⟩ := home_of_mem hp hg hc
  obtain ⟨d, b, r, hedges⟩ := exists_callEdges hp hlinked (hhome ▸ hg) hne hcalled
  have hnew : g' ∉ calls.callSet := hset g' (.single hcalls)
  -- What the function may call is not `g`, so nothing of it is in the map.
  have hempty : ∀ g'', ReflTransGen h.Calls g' g'' → ∀ v, home v = g'' →
      map v = none := by
    intro g'' hreach v hv
    have hv' : home v ≠ g := fun heq => hacyclic g .refl (by
      rw [heq] at hv
      exact TransGen.head' hcalls (hv ▸ hreach))
    rw [hk.outside v hv']
    exact hbefore g'' (.head hcalls hreach) v hv
  have hclosed : ∀ g'', TransGen h.Calls g' g'' → g'' ∉ insert g' calls.callSet := by
    intro g'' hreach hmem
    rcases Finset.mem_insert.mp hmem with heq | hmem
    · exact hacyclic g' (.single hcalls) (heq ▸ hreach)
    · exact hset g'' (.head hcalls hreach) hmem
  obtain ⟨s₁, hs₁, hidle₁⟩ : ∃ t, Visits h o f cfgVerbose cfgVertexIds s
      [(openIn calls.callStack, c)] t ∧ _ :=
    exists_entered hp hg hw hc hcalled hedges hnew
      (hempty g' .refl _ (hp.home_entry hg')) htarget hs
  obtain ⟨s₂, recursive, order, inner, hs₂, hbusy₂, horder, hwalk⟩ :=
    ih s₁ b (rs ++ rest) map _ hidle₁ hedges.call_target hempty hclosed
  rw [openIn_cons hne] at hwalk
  obtain ⟨t, rs', map', k', ht, hidle, hk', hpending', hdiscovered⟩ :
      ∃ t rs' map' k', Visits h o f cfgVerbose cfgVertexIds s₂ [] t ∧ _ :=
    hk.exists_returned hp hg hw hc hcalled hedges hother hnew hpending hbusy₂
  have hrun := hs₁.trans (hs₂.trans ht)
  rw [List.append_nil] at hrun
  exact ⟨t, rs', map', k', order, inner, hrun, hidle, hk', hpending', hdiscovered,
    horder, hwalk⟩

section callees

variable (hacyclic : ∀ g', ReflTransGen h.Calls g g' → ¬ TransGen h.Calls g' g')
  (hbefore : ∀ g', ReflTransGen h.Calls g g' → ∀ v, home v = g' → before v = none)
  (hset : ∀ g', TransGen h.Calls g g' → g' ∉ calls.callSet)
  (ih : ∀ g', h.Calls g g' → WalksOver functions home h o f cfgVerbose cfgVertexIds g')

include hacyclic hbefore hset ih

/-- The next vertex of a function, with all that it calls. -/
theorem Tracks.exists_next {e : EdgePtr} (hk : Tracks home h o g before (e :: rs) map k)
    (hpending : k.pending = none) (hv : (h.edge e).target ∈ (h.graph g).vertices)
    (hlast : (h.edge e).target ≠ (h.function g).exitVertexDesc)
    (hs : Idle s (e :: (rs ++ rest)) map calls) :
    ∃ t rs' map' k' l, Visits h o f cfgVerbose cfgVertexIds s l t ∧
      Idle t (rs' ++ rest) map' calls ∧ Tracks home h o g before rs' map' k' ∧
      k'.pending = none ∧ k'.discovered = k.discovered ++ [(h.edge e).target] ∧
      ∀ vs l', InlinedWalk.Walk (h.graphs functions) (openIn calls.callStack) vs l' →
        InlinedWalk.Walk (h.graphs functions) (openIn calls.callStack)
          ((h.edge e).target :: vs) (l ++ l') := by
  cases hcalled : (h.vertex (h.edge e).target).statement.calledFunction with
  | none =>
      obtain ⟨s₁, recursive, hs₁, hbusy⟩ : ∃ t recursive,
          Visits h o f cfgVerbose cfgVertexIds s
            [(openIn calls.callStack, (h.edge e).target)] t ∧ _ :=
        hs.discover rfl hcalled
      obtain ⟨t, rs', map', k', ht, hidle, hk', hpending', hdiscovered⟩ :
          ∃ t rs' map' k', Visits h o f cfgVerbose cfgVertexIds s₁ [] t ∧ _ :=
        hk.exists_plain hp hg hw hpending hv hlast
          (fun d hd => answers_plain hp hg hw hv hcalled hlast hd) hbusy
      exact ⟨t, rs', map', k', _, hs₁.trans ht, hidle, hk', hpending', hdiscovered,
        fun _ _ hwalk => .plain hcalled hwalk⟩
  | some g' =>
      obtain ⟨k₁, hk₁, hpending₁, hdiscovered₁⟩ := hk.discover hpending
      obtain ⟨t, rs₁, map₁, k₂, order, inner, ht, hidle, hk₂, hpending₂, hdiscovered₂,
        horder, hinner⟩ :=
        hk₁.exists_call hp hlinked hg hw hv hcalled hacyclic hbefore hset
          (ih g' ⟨_, hv, hcalled⟩) rfl hpending₁ hs
      exact ⟨t, rs₁, map₁, _, _, ht, hidle, hk₂.complete hp hg hw hpending₂, rfl,
        hdiscovered₂.trans hdiscovered₁,
        fun _ _ hwalk => .call hcalled horder hinner hwalk⟩

end callees

end inlined

/-! ## All functions -/

section runs

variable {functions : List FunctionPtr} {home : VertexPtr → FunctionPtr} {h : Heap}
  (hp : ProgramFlow functions home h) (hlinked : CallsLinked functions home h)
  {o : IterationOrder} {f : FunctionPtr} {cfgVerbose cfgVertexIds : Bool}

include hp hlinked

/-- Each function is walked over, on the number of functions that it may call. -/
theorem walksOver_of_inlinable {g : FunctionPtr} (hg : g ∈ functions)
    (hin : h.Inlinable g) :
    WalksOver functions home h o f cfgVerbose cfgVertexIds g := by
  induction hn : Set.ncard {g' | TransGen h.Calls g g'} using Nat.strong_induction_on
    generalizing g with
  | _ n ih =>
      intro s e rest map calls hs htarget hbefore hset
      have hw := hin.walkable g .refl
      have hcallees : ∀ g', h.Calls g g' →
          WalksOver functions home h o f cfgVerbose cfgVertexIds g' := by
        intro g' hcalls
        have hless : Set.ncard {g'' | TransGen h.Calls g' g''} <
            Set.ncard {g' | TransGen h.Calls g g'} := by
          refine Set.ncard_lt_ncard ⟨fun g'' hreach => .head hcalls hreach, fun hall => ?_⟩
            (finite_calls hp hg)
          exact hin.acyclic g' (.single hcalls) (hall (TransGen.single hcalls))
        refine ih _ (hn ▸ hless) (callee_mem hp hg hcalls) ⟨fun g'' hreach => ?_,
          fun g'' hreach => ?_⟩ rfl
        · exact hin.acyclic g'' (.head hcalls hreach)
        · exact hin.walkable g'' (.head hcalls hreach)
      have hk : Tracks home h o g map [e] map _ :=
        Tracks.init hp hg hw htarget (hbefore g .refl)
      have hexit : (h.vertex (h.function g).exitVertexDesc).statement.calledFunction =
          none := by
        rw [hp.exitStatement hg]
        rfl
      obtain ⟨t, recursive, order, l, hrun, hbusy, horder, hwalk⟩ :=
        hk.exists_rest hp hg hw (hbefore g .refl)
          (R := InlinedWalk.Walk (h.graphs functions) (openIn calls.callStack))
          (.plain hexit (.nil _))
          (fun _ hk hpending hv hlast hs => hk.exists_next hp hlinked hg hw hin.acyclic
            hbefore hset hcallees hpending hv hlast hs)
          (h.graph g).vertices.card rfl hs List.not_mem_nil (Nat.zero_add _)
      exact ⟨t, recursive, order, l, hrun, hbusy, horder, hwalk⟩

end runs

/-- `PrintControlFlowGraph` of a function in which calls can be replaced by what they
call visits the vertices of the inlined function in a topological order, each call
with all it calls before anything else; it prints the statements in this order, leaves
no entry in the in-degree map, and ends when it looks for the call of the printed
function. -/
theorem printControlFlowGraph_walks {p : Program} (hp : LinkedProgram p)
    {f : FunctionPtr} (hf : f ∈ p.functions) (hin : p.heap.Inlinable f)
    (o : IterationOrder) (cfgVerbose cfgVertexIds : Bool) :
    ∃ t order l, Visits p.heap o f cfgVerbose cfgVertexIds
        (start p.heap o f cfgVerbose cfgVertexIds) l t ∧
      t.stop = some (.visitorFault .nullDereference) ∧
      InlinedWalk.IsOrder (p.heap.graphs p.functions) f order ∧
      InlinedWalk.Walk (p.heap.graphs p.functions) [] order l ∧
      InlinedWalk.Topological (p.heap.graphs p.functions) f l ∧
      (∀ v, t.inDegreeMap.underlyingMap v = none) ∧
      t.visitor.told = l.filterMap fun n => FunctionCFGVisitor.statementLine p.heap
        (printOptions p.heap f cfgVerbose cfgVertexIds) n.2 := by
  obtain ⟨home, hflow, hlinked⟩ := hp.flow
  have hself := hflow.entrySelf f hf
  obtain ⟨cfg, hidle, htold⟩ := exists_idle_start hp hf o cfgVerbose cfgVertexIds
  have hover : WalksOver p.functions home p.heap o f cfgVerbose cfgVertexIds f :=
    walksOver_of_inlinable hflow hlinked hf hin
  obtain ⟨s, recursive, order, l, hs, hbusy, horder, hwalk⟩ :=
    hover _ _ [] _ _ hidle (by rw [hself]) (fun _ _ _ _ => rfl) fun g _ =>
      Finset.notMem_empty g
  have hexit : ∀ e ∈ o.outEdges.enum
      (p.heap.vertex (p.heap.function f).exitVertexDesc).outEdges,
      Answers p.heap [.new null cfg] recursive e true := by
    intro e he
    rw [SetOrder.mem_enum, mem_outEdges_iff hflow hf (hflow.exit_mem f hf)] at he
    exact answers_exit hflow hf he (.inl rfl)
  rw [← List.append_nil (o.outEdges.enum _)] at hbusy
  obtain ⟨s', hs', hbusy'⟩ : ∃ t, Visits p.heap o f cfgVerbose cfgVertexIds s [] t ∧ _ :=
    hbusy.skips hexit
  obtain ⟨t, ht, hfault, hmap⟩ :
      ∃ t, Visits p.heap o f cfgVerbose cfgVertexIds s' [] t ∧ _ :=
    hbusy'.fault (hflow.exitStatement hf)
  have hrun := hs.trans (hs'.trans ht)
  rw [List.nil_append, List.append_nil] at hrun
  refine ⟨t, order, l, hrun, hfault, horder, hwalk, hwalk.topological horder,
    fun v => congrFun hmap v, ?_⟩
  have hlines := Visits.told hrun
  rw [htold] at hlines
  exact hlines

/-! ## A function that is called twice -/

/-- `if (c) g(1); g(2);`, where `g` calls `h`. -/
def sharedHelper : List FunctionInfo :=
  [⟨"f.c", "f", [(.ifUnlinked "c" "A" "B", .unknown), (.label "A", .unknown),
      (.functionCallUnresolved "g" "1", .unknown), (.label "B", .unknown),
      (.functionCallUnresolved "g" "2", .unknown)]⟩,
    ⟨"f.c", "g", [(.functionCallUnresolved "h" "", .unknown)]⟩,
    ⟨"f.c", "h", []⟩]

theorem printControlFlowGraph_walks_sharedHelper :
    ∃ p, Program.parse blankMemory .ascending sharedHelper = .ok p ∧
      p.heap.Inlinable 1 ∧ ∃ t l, Visits p.heap .ascending 1 true false
          (start p.heap .ascending 1 true false) l t ∧
        InlinedWalk.Topological (p.heap.graphs p.functions) 1 l := by
  have hcheck : (Program.parse blankMemory .ascending sharedHelper).Holds fun p =>
      1 ∈ p.functions ∧ OrderedBy p.heap 1 [7, 15, 4, 14, 2, 8, 6] ∧
        OrderedBy p.heap 2 [11, 16, 10] ∧ OrderedBy p.heap 3 [13, 12] ∧
        (∀ c ∈ (p.heap.graph 1).vertices,
          (p.heap.vertex c).statement.calledFunction.all (· = 2) = true) ∧
        (∀ c ∈ (p.heap.graph 2).vertices,
          (p.heap.vertex c).statement.calledFunction.all (· = 3) = true) ∧
        ∀ c ∈ (p.heap.graph 3).vertices,
          (p.heap.vertex c).statement.calledFunction = none := by
    decide +kernel
  obtain ⟨p, hrun, hf, h1, h2, h3, hcalls1, hcalls2, hcalls3⟩ := hcheck
  -- Each function calls the next one only.
  have hnext : ∀ g g' : Nat, 1 ≤ g ∧ g ≤ 3 → p.heap.Calls g g' → g' = g + 1 ∧ g' ≤ 3 := by
    rintro g g' ⟨hlow, hhigh⟩ ⟨c, hc, hcalled⟩
    obtain rfl | rfl | rfl : g = 1 ∨ g = 2 ∨ g = 3 := by omega
    · have hall := hcalls1 c hc
      rw [hcalled] at hall
      simp_all
    · have hall := hcalls2 c hc
      rw [hcalled] at hall
      simp_all
    · rw [hcalls3 c hc] at hcalled
      exact absurd hcalled (by simp)
  have hlater : ∀ g g' : Nat, 1 ≤ g ∧ g ≤ 3 → TransGen p.heap.Calls g g' →
      g < g' ∧ g' ≤ 3 := by
    intro g g' hg hreach
    induction hreach with
    | single hcalls =>
        have heq := hnext _ _ hg hcalls
        omega
    | tail _ hcalls ih =>
        have heq := hnext _ _ (by omega) hcalls
        omega
  have hrange : ∀ g : Nat, ReflTransGen p.heap.Calls 1 g → 1 ≤ g ∧ g ≤ 3 := by
    intro g hreach
    rcases reflTransGen_iff_eq_or_transGen.mp hreach with rfl | hreach
    · omega
    · have hlt := hlater 1 g (by omega) hreach
      omega
  have hin : p.heap.Inlinable 1 :=
    { acyclic := fun (g : Nat) hreach hcycle => by
        have hlt := hlater g g (hrange g hreach) hcycle
        omega
      walkable := fun (g : Nat) hreach => by
        obtain ⟨hlow, hhigh⟩ := hrange g hreach
        obtain rfl | rfl | rfl : g = 1 ∨ g = 2 ∨ g = 3 := by omega
        · exact h1.walkable
        · exact h2.walkable
        · exact h3.walkable }
  obtain ⟨t, -, l, hvisits, -, -, -, htopological, -⟩ :=
    printControlFlowGraph_walks (linkedProgram_of_parse (by decide) hrun) hf hin
      .ascending true false
  exact ⟨p, hrun, hin, t, l, hvisits, htopological⟩

end PrintControlFlowGraph

end CoFlo.Ports
