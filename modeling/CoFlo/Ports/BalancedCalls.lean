import CoFlo.Ports.VisitCalls

/-!
# The pushes and pops of `PrintControlFlowGraph`

`vertex_visit_complete` pops a frame at every EXIT, also at the one of the printed
function, where only the frame of `start_vertex` is left
(`emptyFunction_not_balancedCalls`).

When each function that is called is one in which all ways lead from ENTRY to EXIT,
and a call is followed by what it calls, then the visit comes from a call to the EXIT
of the called function and leaves it again, with nothing of it on the set, in the map
or on the stack (`leaves_of_callsReturn`).  Between the calls only the frame of
`start_vertex` is there.  So the EXIT of the printed function is then the only one that
finds no frame of a call (`balancedCalls_iff`).
-/

namespace CoFlo.Ports

open CoFlo.Verified CoFlo.Verified.StepMachine CoFlo.Verified.Transcript Relation

namespace PrintControlFlowGraph

/-! ## Pushes and pops -/

/-- A run with the calls whose frames have been pushed and popped. -/
inductive CallTrace (h : Heap) (o : IterationOrder) (this : FunctionPtr)
    (cfgVerbose cfgVertexIds : Bool) :
    State → List VertexPtr → List VertexPtr → Prop where
  | refl : CallTrace h o this cfgVerbose cfgVertexIds
      (start h o this cfgVerbose cfgVertexIds) [] []
  | tail {s t : State} {pushed popped : List VertexPtr}
      (hs : CallTrace h o this cfgVerbose cfgVertexIds s pushed popped)
      (hstep : step h o this cfgVerbose cfgVertexIds s = some t) :
      CallTrace h o this cfgVerbose cfgVertexIds t (pushedBy h s t ++ pushed)
        (poppedBy h s t ++ popped)

/-- The step pops the frame of a call, if it pops one. -/
def State.PopsSafely (h : Heap) (s : State) : Prop :=
  ∀ u, s.completing = some u → (h.vertex u).statement = .exit →
    ∃ x rest, s.frames = x :: rest ∧ x.functionCallWhichPushedThisFrame ≠ null

/-- `PopCallStack` always finds the frame of a call, and at the end the frames
that were pushed for calls have been popped, and no others. -/
def BalancedCalls (h : Heap) (o : IterationOrder) (this : FunctionPtr)
    (cfgVerbose cfgVertexIds : Bool) : Prop :=
  (∀ s, Reaches (step h o this cfgVerbose cfgVertexIds)
      (start h o this cfgVerbose cfgVertexIds) s → s.PopsSafely h) ∧
    ∀ s pushed popped,
      CallTrace h o this cfgVerbose cfgVertexIds s pushed popped →
        s.stop = none → step h o this cfgVerbose cfgVertexIds s = none →
          popped.Perm pushed

section

variable {h : Heap} {o : IterationOrder} {this : FunctionPtr}
  {cfgVerbose cfgVertexIds : Bool}

theorem CallTrace.reaches {s : State} {pushed popped : List VertexPtr}
    (hs : CallTrace h o this cfgVerbose cfgVertexIds s pushed popped) :
    Reaches (step h o this cfgVerbose cfgVertexIds)
      (start h o this cfgVerbose cfgVertexIds) s := by
  induction hs with
  | refl => exact .refl
  | tail _ hstep ih => exact .tail ih hstep

/-- What has been pushed is what has been popped and what is still there. -/
theorem CallTrace.perm {p : Program} (hp : LinkedProgram p) {f : FunctionPtr}
    (hf : f ∈ p.functions) {s : State} {pushed popped : List VertexPtr}
    (hs : CallTrace p.heap o f cfgVerbose cfgVertexIds s pushed popped)
    (hstop : s.stop = none) : pushed.Perm (popped ++ s.openCalls) := by
  obtain ⟨home, hflow, _⟩ := hp.flow
  induction hs with
  | refl =>
      obtain ⟨cfg, hstart⟩ := start_eq_of_stop hstop
      rw [hstart]
      exact List.Perm.refl _
  | @tail s t pushed popped htrace hstep ih =>
      have hstop' := (TopologicalVisitKahn.step_moves _ _ _ _ hstep).1
      have hinv := printInv_of_reaches hp hf htrace.reaches hstop'
      have heq := hinv.pushedBy_append hflow.consistent hstep hstop
      calc (pushedBy p.heap s t ++ pushed).Perm
            (pushedBy p.heap s t ++ (popped ++ s.openCalls)) :=
          (ih hstop').append_left _
        _ |>.Perm (popped ++ (pushedBy p.heap s t ++ s.openCalls)) :=
          List.perm_append_comm_assoc _ _ _
        _ |>.Perm (popped ++ (poppedBy p.heap s t ++ t.openCalls)) := by rw [heq]
        _ |>.Perm (poppedBy p.heap s t ++ popped ++ t.openCalls) := by
          rw [List.append_assoc]
          exact List.perm_append_comm_assoc _ _ _

end

/-- A function that does nothing. -/
def emptyFunction : List FunctionInfo :=
  [⟨"f.c", "f", []⟩]

/-- Its EXIT pops the frame of `start_vertex`. -/
theorem emptyFunction_not_balancedCalls :
    ∃ p, LinkedProgram p ∧ 1 ∈ p.functions ∧
      ¬ BalancedCalls p.heap .ascending 1 true true := by
  have hcheck : (Program.parse blankMemory .ascending emptyFunction).Holds
      fun p => 1 ∈ p.functions ∧
        (run (step p.heap .ascending 1 true true) 6
          (start p.heap .ascending 1 true true)).completing = some 2 ∧
        (p.heap.vertex 2).statement = .exit ∧
        (State.frames (run (step p.heap .ascending 1 true true) 6
          (start p.heap .ascending 1 true true))).map
            (·.functionCallWhichPushedThisFrame) = [null] := by
    decide +kernel
  obtain ⟨p, hrun, hf, hu, hexit, hframes⟩ := hcheck
  refine ⟨p, linkedProgram_of_parse (by decide) hrun, hf, fun hbalanced => ?_⟩
  obtain ⟨x, rest, hx, hcall⟩ :=
    hbalanced.1 _ (reaches_run 6 _) 2 hu hexit
  rw [hx, List.map_cons, List.cons_eq_cons] at hframes
  exact hcall hframes.1

/-! ## Calls that return -/

/-- A call that the step discovers is one of another function than the printed one, in
which all ways lead from ENTRY to EXIT; and the visit of a call that is not recursive
is completed only when the ENTRY of the called function comes next. -/
structure State.CallsReturn (h : Heap) (f : FunctionPtr) (s : State) : Prop where
  callee : ∀ u g, s.discovering h = some u →
    (h.vertex u).statement.calledFunction = some g → g ≠ f ∧ h.Walkable g
  enters : ∀ u g, s.completing = some u →
    (h.vertex u).statement.calledFunction = some g →
      s.visitor.lastDiscoveredVertexIsRecursive = false →
        (s.noRemainingInEdgesSet.head?.map fun e => (h.edge e).target) =
          some (h.function g).entryVertexDesc

/-! ## A function that is called -/

/-- A visit that comes to the ENTRY of `g` when the frame of its call has been pushed,
with nothing of it or of what has no frame in the map, goes on to its EXIT, leaves
everything else as it was, and does not come to the printed function `f`. -/
def Leaves (home : VertexPtr → FunctionPtr) (h : Heap) (o : IterationOrder)
    (f : FunctionPtr) (cfgVerbose cfgVertexIds : Bool) (g : FunctionPtr)
    (callSet : Finset FunctionPtr) : Prop :=
  ∀ (s : State) (e : EdgePtr) (rest : List EdgePtr) (map : VertexPtr → Option Int)
    (frames : List CallStackFrame), Idle s (e :: rest) map ⟨frames, callSet⟩ →
    (h.edge e).target = (h.function g).entryVertexDesc →
    (∀ v, home v = g ∨ home v ≠ f ∧ home v ∉ callSet → map v = none) →
    (∀ t, Reaches (step h o f cfgVerbose cfgVertexIds) s t → t.CallsReturn h f) →
    ∃ t recursive l, Visits h o f cfgVerbose cfgVertexIds s l t ∧
      Busy t (h.function g).exitVertexDesc (o.outEdges.enum
        (h.vertex (h.function g).exitVertexDesc).outEdges) rest map
        ⟨frames, callSet⟩ recursive ∧
      ∀ n ∈ l, home n.2 ≠ f

section leaves

variable {functions : List FunctionPtr} {home : VertexPtr → FunctionPtr} {h : Heap}
  (hp : ProgramFlow functions home h) (hlinked : CallsLinked functions home h)
  {g : FunctionPtr} (hg : g ∈ functions) {o : IterationOrder} {f : FunctionPtr}
  {cfgVerbose cfgVertexIds : Bool}

include hp hlinked hg

/-- The next vertex of a function that is called, with all that it calls. -/
theorem Tracks.exists_left (hw : h.Walkable g) (hne : g ≠ f)
    {before map : VertexPtr → Option Int} {rs rest : List EdgePtr}
    {k : KahnVisit.State VertexPtr EdgePtr} {s : State} {e : EdgePtr}
    {frames : List CallStackFrame} {callSet : Finset FunctionPtr} (hopen : g ∈ callSet)
    (hbefore : ∀ v, home v = g ∨ home v ≠ f ∧ home v ∉ callSet → before v = none)
    (ih : ∀ g' ∈ functions, g' ∉ callSet → g' ≠ f → h.Walkable g' →
      Leaves home h o f cfgVerbose cfgVertexIds g' (insert g' callSet))
    (hreturn : ∀ t, Reaches (step h o f cfgVerbose cfgVertexIds) s t →
      t.CallsReturn h f)
    (hk : Tracks home h o g before (e :: rs) map k) (hpending : k.pending = none)
    (hv : (h.edge e).target ∈ (h.graph g).vertices)
    (hlast : (h.edge e).target ≠ (h.function g).exitVertexDesc)
    (hs : Idle s (e :: (rs ++ rest)) map ⟨frames, callSet⟩) :
    ∃ t rs' map' k' l, Visits h o f cfgVerbose cfgVertexIds s l t ∧
      Idle t (rs' ++ rest) map' ⟨frames, callSet⟩ ∧
      Tracks home h o g before rs' map' k' ∧ k'.pending = none ∧
      k'.discovered = k.discovered ++ [(h.edge e).target] ∧ ∀ n ∈ l, home n.2 ≠ f := by
  obtain ⟨hhome, hnull⟩ := home_of_mem hp hg hv
  have hfirst : ∀ n ∈ [(openIn frames, (h.edge e).target)], home n.2 ≠ f := by
    intro n hn
    rw [List.mem_singleton.mp hn, hhome]
    exact hne
  cases hcalled : (h.vertex (h.edge e).target).statement.calledFunction with
  | none =>
      obtain ⟨s₁, recursive, hs₁, hbusy⟩ : ∃ t recursive,
          Visits h o f cfgVerbose cfgVertexIds s
            [(openIn frames, (h.edge e).target)] t ∧ _ := hs.discover rfl hcalled
      obtain ⟨t, rs', map', k', ht, hidle, hk', hpending', hdiscovered⟩ :
          ∃ t rs' map' k', Visits h o f cfgVerbose cfgVertexIds s₁ [] t ∧ _ :=
        hk.exists_plain hp hg hw hpending hv hlast
          (fun d hd => answers_plain hp hg hw hv hcalled hlast hd) hbusy
      exact ⟨t, rs', map', k', _, hs₁.trans ht, hidle, hk', hpending', hdiscovered,
        hfirst⟩
  | some g' =>
      obtain ⟨d, b, r, hedges⟩ := exists_callEdges hp hlinked (hhome ▸ hg) hnull hcalled
      by_cases hmem : g' ∈ callSet
      · obtain ⟨s₁, hs₁, hbusy⟩ : ∃ t, Visits h o f cfgVerbose cfgVertexIds s
            [(openIn frames, (h.edge e).target)] t ∧ _ := hs.recur rfl hcalled hmem
        obtain ⟨t, rs', map', k', ht, hidle, hk', hpending', hdiscovered⟩ :
            ∃ t rs' map' k', Visits h o f cfgVerbose cfgVertexIds s₁ [] t ∧ _ :=
          hk.exists_plain hp hg hw hpending hv hlast
            (fun x hx => answers_recursive hp hg hw hv hcalled hedges hx) hbusy
        exact ⟨t, rs', map', k', _, hs₁.trans ht, hidle, hk', hpending', hdiscovered,
          hfirst⟩
      · have hg' := callee_mem hp hg ⟨_, hv, hcalled⟩
        have hother : g ≠ g' := fun heq => hmem (heq ▸ hopen)
        obtain ⟨hne', hw'⟩ := (hreturn s .refl).callee _ g'
          (State.discovering_of_head hs.stop hs.visiting hs.set) hcalled
        have hempty : ∀ v, home v = g' ∨ home v ≠ f ∧ home v ∉ insert g' callSet →
            map v = none := by
          intro v hv'
          have hout : home v ≠ f ∧ home v ∉ callSet := by
            rcases hv' with heq | ⟨hvf, hvset⟩
            · exact ⟨heq ▸ hne', heq ▸ hmem⟩
            · exact ⟨hvf, fun hvmem => hvset (Finset.mem_insert_of_mem hvmem)⟩
          rw [hk.outside v fun heq => hout.2 (heq ▸ hopen)]
          exact hbefore v (.inr hout)
        obtain ⟨k₁, hk₁, hpending₁, hdiscovered₁⟩ := hk.discover hpending
        obtain ⟨s₁, hs₁, hidle₁⟩ : ∃ t, Visits h o f cfgVerbose cfgVertexIds s
            [(openIn frames, (h.edge e).target)] t ∧ _ :=
          exists_entered hp hg hw hv hcalled hedges hmem
            (hempty _ (.inl (hp.home_entry hg'))) rfl hs
        obtain ⟨s₂, recursive, l, hs₂, hbusy₂, hl⟩ :=
          ih g' hg' hmem hne' hw' s₁ b (rs ++ rest) map _ hidle₁ hedges.call_target hempty
            fun t ht => hreturn t (hs₁.reaches.trans ht)
        obtain ⟨t, rs', map', k', ht, hidle, hk', hpending', hdiscovered⟩ :
            ∃ t rs' map' k', Visits h o f cfgVerbose cfgVertexIds s₂ [] t ∧ _ :=
          hk₁.exists_returned hp hg hw hv hcalled hedges hother hmem hpending₁ hbusy₂
        refine ⟨t, rs', map', _, _, hs₁.trans (hs₂.trans ht), hidle,
          hk'.complete hp hg hw hpending', rfl, hdiscovered.trans hdiscovered₁,
          fun n hn => ?_⟩
        rw [List.append_nil] at hn
        rcases List.mem_append.mp hn with hn | hn
        · exact hfirst n hn
        · exact hl n hn

/-- Each function that is called is left again, on the number of functions that have
no frame. -/
theorem leaves_of_callsReturn (hw : h.Walkable g) (hne : g ≠ f)
    {callSet : Finset FunctionPtr} (hopen : g ∈ callSet) :
    Leaves home h o f cfgVerbose cfgVertexIds g callSet := by
  induction hn : (functions.toFinset \ callSet).card using Nat.strong_induction_on
    generalizing g callSet with
  | _ n ih =>
      intro s e rest map frames hs htarget hbefore hreturn
      have hcallees : ∀ g' ∈ functions, g' ∉ callSet → g' ≠ f → h.Walkable g' →
          Leaves home h o f cfgVerbose cfgVertexIds g' (insert g' callSet) := by
        intro g' hg' hmem hne' hw'
        have hless : (functions.toFinset \ insert g' callSet).card <
            (functions.toFinset \ callSet).card := by
          rw [Finset.sdiff_insert]
          exact Finset.card_erase_lt_of_mem
            (Finset.mem_sdiff.mpr ⟨List.mem_toFinset.mpr hg', hmem⟩)
        exact ih _ (hn ▸ hless) hg' hw' hne' (Finset.mem_insert_self g' callSet) rfl
      have hk : Tracks home h o g map [e] map _ :=
        Tracks.init hp hg hw htarget fun v hv => hbefore v (.inl hv)
      obtain ⟨t, recursive, -, l, hrun, hbusy, -, hl⟩ :=
        hk.exists_rest hp hg hw (fun v hv => hbefore v (.inl hv))
          (R := fun _ l => ∀ n ∈ l, home n.2 ≠ f)
          (fun n hn => by
            rw [List.mem_singleton.mp hn, hp.home_exit hg]
            exact hne)
          (fun {s' e' rs map' k} hreach hk hpending hv hlast hs => by
            obtain ⟨t, rs', map'', k', l, ht, hidle, hk', hpending', hdiscovered, hl⟩ :=
              hk.exists_left hp hlinked hg hw hne hopen hbefore hcallees
                (fun t ht => hreturn t (hreach.trans ht)) hpending hv hlast hs
            refine ⟨t, rs', map'', k', l, ht, hidle, hk', hpending', hdiscovered,
              fun vs l' hl' n hn => ?_⟩
            rcases List.mem_append.mp hn with hn | hn
            · exact hl n hn
            · exact hl' n hn)
          (h.graph g).vertices.card rfl hs List.not_mem_nil (Nat.zero_add _)
      exact ⟨t, recursive, l, hrun, hbusy, hl⟩

end leaves

/-! ## Edges inside a function -/

section inside

variable {functions : List FunctionPtr} {home : VertexPtr → FunctionPtr} {h : Heap}
  (hp : ProgramFlow functions home h) {o : IterationOrder} {f : FunctionPtr}
  {cfgVerbose cfgVertexIds : Bool} {s : State} {calls : DFSCallStack}
  {recursive : Bool}

theorem exists_answer {frames : List CallStackFrame} {e : EdgePtr}
    (htype : (h.edge e).edgeType.isIntraprocedural = true) :
    ∃ skip, Answers h frames recursive e skip := by
  have hreturn : (h.edge e).edgeType.isReturn = false := by
    cases hty : (h.edge e).edgeType <;>
      simp_all [EdgeType.isIntraprocedural, EdgeType.isReturn]
  by_cases hpassed : (h.edge e).source = (h.edge e).target ∨
      (h.edge e).isBackEdge = true
  · exact ⟨true, answers_true hpassed⟩
  · rw [not_or, Bool.not_eq_true] at hpassed
    cases hsource : (h.vertex (h.edge e).source).statement.calledFunction with
    | none => exact ⟨false, answers_false hpassed.1 hpassed.2 hreturn hsource⟩
    | some g => exact ⟨_, answers_of_call hpassed.1 hpassed.2 hreturn hsource⟩

include hp

/-- Examining edges inside a function puts edges on the set that lead to vertices of
this function, and changes the map for these only. -/
theorem Busy.exists_inside {u : VertexPtr} (hu : u ≠ null) {l ei set : List EdgePtr}
    {map : VertexPtr → Option Int}
    (hl : ∀ e ∈ l, (h.edge e).source = u ∧
      (h.edge e).edgeType.isIntraprocedural = true)
    (hs : Busy s u (l ++ ei) set map calls recursive) :
    ∃ t added map', Visits h o f cfgVerbose cfgVertexIds s [] t ∧
      Busy t u ei (added ++ set) map' calls recursive ∧
      (∀ e ∈ added, home (h.edge e).target = home u) ∧
      ∀ v, home v ≠ home u → map' v = map v := by
  induction l generalizing s set map with
  | nil =>
      exact ⟨s, [], map, .done s, hs, fun e he => absurd he List.not_mem_nil,
        fun _ _ => rfl⟩
  | cons e l ih =>
      obtain ⟨hsource, htype⟩ := hl e List.mem_cons_self
      have hrest := fun d hd => hl d (List.mem_cons_of_mem e hd)
      have htarget : home (h.edge e).target = home u := by
        rw [hp.home_eq_home e (hsource ▸ hu) htype, hsource]
      obtain ⟨skip, hanswer⟩ : ∃ skip, Answers h calls.callStack recursive e skip :=
        exists_answer htype
      cases skip with
      | true =>
          obtain ⟨t, hst, ht⟩ : ∃ t, Visits h o f cfgVerbose cfgVertexIds s [] t ∧ _ :=
            hs.skip hanswer
          obtain ⟨w, added, map', htw, hw, hadded, hmap⟩ := ih hrest ht
          exact ⟨w, added, map', hst.trans htw, hw, hadded, hmap⟩
      | false =>
          obtain ⟨t, hst, ht⟩ : ∃ t, Visits h o f cfgVerbose cfgVertexIds s [] t ∧ _ :=
            hs.take hanswer rfl rfl
          have hupdate : ∀ (x : Option Int) v, home v ≠ home u →
              Function.update map (h.edge e).target x v = map v := by
            intro x v hv
            apply Function.update_of_ne
            rintro rfl
            exact hv htarget
          split_ifs at ht
          · obtain ⟨w, added, map', htw, hw, hadded, hmap⟩ := ih hrest ht
            refine ⟨w, added ++ [e], map', hst.trans htw, ?_, fun d hd => ?_,
              fun v hv => (hmap v hv).trans (hupdate _ v hv)⟩
            · rwa [List.append_assoc]
            · rcases List.mem_append.mp hd with hd | hd
              · exact hadded d hd
              · rw [List.mem_singleton.mp hd, htarget]
          · obtain ⟨w, added, map', htw, hw, hadded, hmap⟩ := ih hrest ht
            exact ⟨w, added, map', hst.trans htw, hw, hadded,
              fun v hv => (hmap v hv).trans (hupdate _ v hv)⟩

end inside

/-! ## The printed function -/

/-- Between two visits, with nothing of other functions than the printed one on the
set, in the map or on the stack. -/
structure InPrinted (home : VertexPtr → FunctionPtr) (h : Heap) (f : FunctionPtr)
    (cfg : GraphPtr) (s : State) (set : List EdgePtr) (map : VertexPtr → Option Int) :
    Prop where
  idle : Idle s set map ⟨[.new null cfg], ∅⟩
  home_target : ∀ e ∈ set, home (h.edge e).target = f
  map_eq_none : ∀ v, home v ≠ f → map v = none

section printed

variable {functions : List FunctionPtr} {home : VertexPtr → FunctionPtr} {h : Heap}
  (hp : ProgramFlow functions home h) (hlinked : CallsLinked functions home h)
  {o : IterationOrder} {f : FunctionPtr} (hf : f ∈ functions)
  {cfgVerbose cfgVertexIds : Bool} {s : State} {cfg : GraphPtr} {e : EdgePtr}
  {rest : List EdgePtr} {map : VertexPtr → Option Int}

include hp hf

/-- The visit of a vertex that is neither a call nor EXIT. -/
theorem InPrinted.exists_plain (hs : InPrinted home h f cfg s (e :: rest) map)
    (hcall : (h.vertex (h.edge e).target).statement.calledFunction = none)
    (hexit : (h.edge e).target ≠ (h.function f).exitVertexDesc) :
    ∃ t set' map', Visits h o f cfgVerbose cfgVertexIds s
        [(openIn [.new null cfg], (h.edge e).target)] t ∧
      InPrinted home h f cfg t set' map' := by
  have hhome := hs.home_target e List.mem_cons_self
  have hne := (hp.allocated _ (hhome ▸ hf)).1
  have hexitSt : (h.vertex (h.edge e).target).statement ≠ .exit := by
    intro hst
    have heq := (hp.statement_exit (h.edge e).target (hhome ▸ hf)).mp hst
    rw [hhome] at heq
    exact hexit heq
  obtain ⟨s₁, recursive, hs₁, hbusy⟩ : ∃ t recursive, Visits h o f cfgVerbose
      cfgVertexIds s [(openIn [.new null cfg], (h.edge e).target)] t ∧ _ :=
    hs.idle.discover rfl hcall
  rw [← List.append_nil (o.outEdges.enum _)] at hbusy
  obtain ⟨s₂, added, map', hs₂, hbusy₂, hadded, hmap⟩ :
      ∃ t added map', Visits h o f cfgVerbose cfgVertexIds s₁ [] t ∧ _ :=
    hbusy.exists_inside hp hne fun d hd => by
      rw [SetOrder.mem_enum, hp.consistent.mem_outEdges] at hd
      exact ⟨hd.1, isIntraprocedural_of_plain hp hhome hne hcall hexit hd.1⟩
  obtain ⟨t, ht, hidle⟩ : ∃ t, Visits h o f cfgVerbose cfgVertexIds s₂ [] t ∧ _ :=
    hbusy₂.complete hexitSt
  refine ⟨t, _, map', hs₁.trans (hs₂.trans ht), hidle, fun d hd => ?_, fun v hv => ?_⟩
  · rcases List.mem_append.mp hd with hd | hd
    · exact (hadded d hd).trans hhome
    · exact hs.home_target d (List.mem_cons_of_mem e hd)
  · rw [hmap v (hhome ▸ hv)]
    exact hs.map_eq_none v hv

section call

variable {g : FunctionPtr}
  (hcalled : (h.vertex (h.edge e).target).statement.calledFunction = some g)
  {d b r : EdgePtr} (hedges : CallEdges h (h.edge e).target g d b r)

include hcalled hedges

/-- A call is entered: when its visit is completed, its `FunctionCall` edge is on top of
the set. -/
theorem InPrinted.exists_entered (hs : InPrinted home h f cfg s (e :: rest) map)
    (hg : g ∈ functions) (hother : g ≠ f)
    (hreturn : ∀ t, Reaches (step h o f cfgVerbose cfgVertexIds) s t →
      t.CallsReturn h f) :
    ∃ t set' map', Visits h o f cfgVerbose cfgVertexIds s
        [(openIn [.new null cfg], (h.edge e).target)] t ∧
      Idle t (b :: set') map'
        ⟨[.new (h.edge e).target (h.function g).theCfg, .new null cfg], insert g ∅⟩ ∧
      (∀ d ∈ set', home (h.edge d).target = f) ∧ ∀ v, home v ≠ f → map' v = none := by
  have hhome := hs.home_target e List.mem_cons_self
  have hne := (hp.allocated _ (hhome ▸ hf)).1
  have hout : ∀ x, x ∈ o.outEdges.enum (h.vertex (h.edge e).target).outEdges ↔
      (h.edge x).source = (h.edge e).target := by
    intro x
    rw [SetOrder.mem_enum, hp.consistent.mem_outEdges, and_iff_left hne]
  have hinside : ∀ x, x ∈ o.outEdges.enum (h.vertex (h.edge e).target).outEdges ∧ x ≠ b →
      (h.edge x).source = (h.edge e).target ∧
        (h.edge x).edgeType.isIntraprocedural = true := by
    intro x hx
    have hsource := (hout x).mp hx.1
    exact ⟨hsource, (hedges.out x hsource).resolve_right hx.2⟩
  obtain ⟨s₁, hs₁, hbusy₁⟩ : ∃ t, Visits h o f cfgVerbose cfgVertexIds s
      [(openIn [.new null cfg], (h.edge e).target)] t ∧ _ :=
    hs.idle.enter rfl hcalled (Finset.notMem_empty g)
  obtain ⟨l₁, l₂, hl, hl₁, hl₂⟩ :=
    exists_split (o.outEdges.nodup_enum _) ((hout b).mpr hedges.call_source)
  rw [hl, ← List.append_nil l₂] at hbusy₁
  obtain ⟨s₂, added₁, map₁, hs₂, hbusy₂, hadded₁, hmap₁⟩ :
      ∃ t added map', Visits h o f cfgVerbose cfgVertexIds s₁ [] t ∧ _ :=
    hbusy₁.exists_inside hp hne fun x hx => hinside x (hl₁ x hx)
  have hnone : map₁ (h.function g).entryVertexDesc = none := by
    have hentry : home (h.function g).entryVertexDesc ≠ f := by
      rw [hp.home_entry hg]
      exact hother
    rw [hmap₁ _ (hhome ▸ hentry)]
    exact hs.map_eq_none _ hentry
  have hone : (map₁ (h.function g).entryVertexDesc).getD
      (filteredInDegree h o.inEdges (h.function g).entryVertexDesc false) = 1 := by
    rw [hnone, Option.getD_none]
    exact filteredInDegree_entry hp hg (hedges.call_source ▸ hne) hedges.call
      hedges.call_target _
  obtain ⟨s₃, hs₃, hbusy₃⟩ : ∃ t, Visits h o f cfgVerbose cfgVertexIds s₂ [] t ∧ _ :=
    hbusy₂.take (hedges.answers_call hp hg hcalled) hedges.call_target hone
  rw [if_pos rfl, ← hnone, Function.update_eq_self] at hbusy₃
  obtain ⟨s₄, added₂, map₂, hs₄, hbusy₄, hadded₂, hmap₂⟩ :
      ∃ t added map', Visits h o f cfgVerbose cfgVertexIds s₃ [] t ∧ _ :=
    hbusy₃.exists_inside hp hne fun x hx => hinside x (hl₂ x hx)
  have hreach := hs₁.reaches.trans (hs₂.reaches.trans (hs₃.reaches.trans hs₄.reaches))
  -- What the other edges have put on the set is below the `FunctionCall` edge.
  have hadded : added₂ = [] := by
    obtain ⟨n, first, hvisiting, -⟩ := hbusy₄.visiting
    have hnext := (hreturn s₄ hreach).enters _ g
      (State.completing_of_nil hbusy₄.stop hvisiting rfl) hcalled
      hbusy₄.lastIsRecursive
    cases added₂ with
    | nil => rfl
    | cons x added₂ =>
        rw [hbusy₄.set, List.cons_append, List.head?_cons, Option.map_some,
          Option.some.injEq] at hnext
        have hx := hadded₂ x List.mem_cons_self
        rw [hnext, hp.home_entry hg, hhome] at hx
        exact absurd hx hother
  rw [hadded, List.nil_append] at hbusy₄
  have hexit : (h.vertex (h.edge e).target).statement ≠ .exit := by
    intro hexit
    rw [hexit] at hcalled
    exact absurd hcalled (by simp [Statement.calledFunction])
  obtain ⟨t, ht, hidle⟩ : ∃ t, Visits h o f cfgVerbose cfgVertexIds s₄ [] t ∧ _ :=
    hbusy₄.complete hexit
  refine ⟨t, _, map₂, hs₁.trans (hs₂.trans (hs₃.trans (hs₄.trans ht))), hidle,
    fun x hx => ?_, fun v hv => ?_⟩
  · rcases List.mem_append.mp hx with hx | hx
    · exact (hadded₁ x hx).trans hhome
    · exact hs.home_target x (List.mem_cons_of_mem e hx)
  · rw [hmap₂ v (hhome ▸ hv), hmap₁ v (hhome ▸ hv)]
    exact hs.map_eq_none v hv

/-- The function that was called is left, and the visit goes on in the printed one. -/
theorem InPrinted.exists_returned (hhome : home (h.edge e).target = f)
    (hg : g ∈ functions) (hother : g ≠ f) {s : State} {set : List EdgePtr}
    {recursive : Bool}
    (hset : ∀ d ∈ set, home (h.edge d).target = f)
    (hmap : ∀ v, home v ≠ f → map v = none)
    (hs : Busy s (h.function g).exitVertexDesc
      (o.outEdges.enum (h.vertex (h.function g).exitVertexDesc).outEdges) set map
        ⟨[.new (h.edge e).target (h.function g).theCfg, .new null cfg], insert g ∅⟩
        recursive) :
    ∃ t set' map', Visits h o f cfgVerbose cfgVertexIds s [] t ∧
      InPrinted home h f cfg t set' map' := by
  have hne := (hp.allocated _ (hhome ▸ hf)).1
  have htarget : home (h.edge r).target = f := by
    rw [hedges.return_target, hp.home_eq_home d (hedges.fall_source ▸ hne)
      hedges.fall_type.1, hedges.fall_source, hhome]
  obtain ⟨s₁, x, hs₁, hbusy₁, hanswer, hskips⟩ :
      ∃ t x, Visits h o f cfgVerbose cfgVertexIds s [] t ∧ _ :=
    hs.exists_returning hp hne hg (by rw [hhome]; exact hother.symm) hedges
  obtain ⟨s₂, hs₂, hbusy₂⟩ : ∃ t, Visits h o f cfgVerbose cfgVertexIds s₁ [] t ∧ _ :=
    hbusy₁.take hanswer rfl rfl
  have hupdate : ∀ (x : Option Int) v, home v ≠ f →
      Function.update map (h.edge r).target x v = none := by
    intro x v hv
    rw [Function.update_of_ne]
    · exact hmap v hv
    · rintro rfl
      exact hv htarget
  have hst := hp.exitStatement hg
  split_ifs at hbusy₂
  · obtain ⟨t, ht, hidle⟩ : ∃ t, Visits h o f cfgVerbose cfgVertexIds s₂ [] t ∧ _ :=
      hbusy₂.exists_left hne hcalled (Finset.notMem_empty g) hst hskips
    refine ⟨t, _, _, hs₁.trans (hs₂.trans ht), hidle, fun d hd => ?_, hupdate _⟩
    rcases List.mem_cons.mp hd with rfl | hd
    · exact htarget
    · exact hset d hd
  · obtain ⟨t, ht, hidle⟩ : ∃ t, Visits h o f cfgVerbose cfgVertexIds s₂ [] t ∧ _ :=
      hbusy₂.exists_left hne hcalled (Finset.notMem_empty g) hst hskips
    exact ⟨t, _, _, hs₁.trans (hs₂.trans ht), hidle, hset, hupdate _⟩

end call

include hlinked

/-- The visit goes on to the next point between two visits in the printed function, and
does not come to its EXIT. -/
theorem InPrinted.exists_next (hs : InPrinted home h f cfg s (e :: rest) map)
    (hexit : (h.edge e).target ≠ (h.function f).exitVertexDesc)
    (hreturn : ∀ t, Reaches (step h o f cfgVerbose cfgVertexIds) s t →
      t.CallsReturn h f) :
    ∃ t set' map' l, Visits h o f cfgVerbose cfgVertexIds s l t ∧ l ≠ [] ∧
      InPrinted home h f cfg t set' map' ∧
        ∀ n ∈ l, n.2 ≠ (h.function f).exitVertexDesc := by
  have hhome := hs.home_target e List.mem_cons_self
  have hne := (hp.allocated _ (hhome ▸ hf)).1
  cases hcalled : (h.vertex (h.edge e).target).statement.calledFunction with
  | none =>
      obtain ⟨t, set', map', ht, hprinted⟩ : ∃ t set' map', Visits h o f cfgVerbose
          cfgVertexIds s _ t ∧ _ := hs.exists_plain hp hf hcalled hexit
      refine ⟨t, set', map', _, ht, List.cons_ne_nil _ _, hprinted, fun n hn => ?_⟩
      rw [List.mem_singleton.mp hn]
      exact hexit
  | some g =>
      obtain ⟨hother, hw⟩ := (hreturn s .refl).callee _ g
        (State.discovering_of_head hs.idle.stop hs.idle.visiting hs.idle.set) hcalled
      have hg : g ∈ functions := by
        obtain ⟨params, hst⟩ := Statement.calledFunction_eq_some.mp hcalled
        exact (hp.resolved _ g params (hhome ▸ hf) hst).1
      obtain ⟨d, b, r, hedges⟩ := exists_callEdges hp hlinked (hhome ▸ hf) hne hcalled
      obtain ⟨s₁, set₁, map₁, hs₁, hidle₁, hset₁, hmap₁⟩ :=
        hs.exists_entered hp hf hcalled hedges hg hother hreturn
      obtain ⟨s₂, recursive, l, hs₂, hbusy₂, hl⟩ :=
        leaves_of_callsReturn hp hlinked hg hw hother (Finset.mem_insert_self g ∅) s₁ b
          set₁ map₁ _ hidle₁ hedges.call_target (fun v hv => hmap₁ v (by
            rcases hv with heq | ⟨hv, -⟩
            · exact heq ▸ hother
            · exact hv)) fun t ht => hreturn t (hs₁.reaches.trans ht)
      obtain ⟨t, set', map', ht, hprinted⟩ : ∃ t set' map', Visits h o f cfgVerbose
          cfgVertexIds s₂ [] t ∧ _ :=
        InPrinted.exists_returned hp hf hcalled hedges hhome hg hother hset₁ hmap₁ hbusy₂
      refine ⟨t, set', map', _, hs₁.trans (hs₂.trans ht), List.cons_ne_nil _ _, hprinted,
        fun n hn => ?_⟩
      rw [List.append_nil] at hn
      rcases List.mem_cons.mp hn with rfl | hn
      · exact hexit
      · intro heq
        apply hl n hn
        rw [heq, hp.home_exit hf]

end printed

/-! ## Runs -/

section runs

variable {h : Heap} {o : IterationOrder} {f : FunctionPtr}
  {cfgVerbose cfgVertexIds : Bool} {s t u : State}

/-- A step that does not go wrong pops the frame of a call, if it pops one. -/
theorem PrintInv.popsSafely (hs : PrintInv h s)
    (hstep : step h o f cfgVerbose cfgVertexIds s = some t) (ht : t.stop = none) :
    s.PopsSafely h := by
  intro v hv hexit
  obtain ⟨hstop, hmoves⟩ := TopologicalVisitKahn.step_moves _ _ _ _ hstep
  unfold State.completing at hv
  rw [if_pos hstop] at hv
  cases hmoves with
  | @complete x visitor hvisiting hei hcall =>
      rw [hvisiting, Option.bind_some, if_pos hei, Option.some.injEq] at hv
      have hcompletes :=
        FunctionCFGVisitor.vertexVisitComplete_completes h o _ hcall
      obtain ⟨frame, -, hframes, hne, -⟩ := hs.pop (hcompletes.pops (hv ▸ hexit)).1
      exact ⟨frame, _, hframes, hne⟩
  | discover hvisiting => simp [hvisiting] at hv
  | pass hvisiting => simp [hvisiting] at hv
  | skip hvisiting hei => simp [hvisiting, hei] at hv
  | count hvisiting hei => simp [hvisiting, hei] at hv
  | push hvisiting hei => simp [hvisiting, hei] at hv
  | fault hfault => exact absurd ht hfault

/-- The first step of a run. -/
theorem Visits.of_step {l : List (InlinedWalk.Node VertexPtr)}
    (hst : Visits h o f cfgVerbose cfgVertexIds s l t)
    (hstep : step h o f cfgVerbose cfgVertexIds s = some u) :
    (t = s ∧ l = []) ∨ ∃ l', l = s.visited h ++ l' ∧
      Visits h o f cfgVerbose cfgVertexIds u l' t := by
  cases hst with
  | done => exact .inl ⟨rfl, rfl⟩
  | next hnext hrest =>
      obtain ⟨hnext, rfl⟩ := hnext
      rw [hstep, Option.some.injEq] at hnext
      exact .inr ⟨_, rfl, hnext ▸ hrest⟩

variable {functions : List FunctionPtr} {home : VertexPtr → FunctionPtr}
  {cfg : GraphPtr}

/-- The run goes on to a point between two visits in the printed function, without
coming to its EXIT. -/
def ComesBack (home : VertexPtr → FunctionPtr) (h : Heap) (o : IterationOrder)
    (f : FunctionPtr) (cfgVerbose cfgVertexIds : Bool) (cfg : GraphPtr) (s : State) :
    Prop :=
  ∃ t l set map, Visits h o f cfgVerbose cfgVertexIds s l t ∧
    InPrinted home h f cfg t set map ∧ ∀ n ∈ l, n.2 ≠ (h.function f).exitVertexDesc

theorem InPrinted.step_eq_none {map : VertexPtr → Option Int}
    (hs : InPrinted home h f cfg s [] map) :
    step h o f cfgVerbose cfgVertexIds s = none := by
  unfold step TopologicalVisitKahn.step
  simp [hs.idle.stop, hs.idle.visiting, hs.idle.set]

/-- Every state of a run comes back, if the EXIT is never next in the printed
function. -/
theorem comesBack_of_reaches (hp : ProgramFlow functions home h)
    (hlinked : CallsLinked functions home h) (hf : f ∈ functions)
    (hreturn : ∀ t, Reaches (step h o f cfgVerbose cfgVertexIds) s t →
      t.CallsReturn h f)
    (hclear : ∀ t e rest map, Reaches (step h o f cfgVerbose cfgVertexIds) s t →
      InPrinted home h f cfg t (e :: rest) map →
        (h.edge e).target ≠ (h.function f).exitVertexDesc)
    {set : List EdgePtr} {map : VertexPtr → Option Int}
    (hs : InPrinted home h f cfg s set map)
    (hst : Reaches (step h o f cfgVerbose cfgVertexIds) s t) :
    ComesBack home h o f cfgVerbose cfgVertexIds cfg t := by
  refine hst.invariant_of_reaches
    (P := ComesBack home h o f cfgVerbose cfgVertexIds cfg) ?_
    ⟨s, [], set, map, .done s, hs, fun n hn => absurd hn List.not_mem_nil⟩
  rintro t u hreach ⟨w, l, set, map, hvisits, hw, hl⟩ hstep
  have hnext : ∃ w l set map, Visits h o f cfgVerbose cfgVertexIds t l w ∧
      ¬ (w = t ∧ l = []) ∧ InPrinted home h f cfg w set map ∧
        ∀ n ∈ l, n.2 ≠ (h.function f).exitVertexDesc := by
    by_cases hstay : w = t ∧ l = []
    · -- The next point between two visits is the one after this one.
      obtain ⟨rfl, -⟩ := hstay
      cases set with
      | nil =>
          rw [hw.step_eq_none] at hstep
          exact absurd hstep (by simp)
      | cons e rest =>
          obtain ⟨w', set', map', l', hvisits', hne, hw', hl'⟩ :=
            hw.exists_next hp hlinked hf (hclear w e rest map hreach hw)
              fun v hv => hreturn v (hreach.trans hv)
          exact ⟨w', l', set', map', hvisits', fun hstay => hne hstay.2, hw', hl'⟩
    · exact ⟨w, l, set, map, hvisits, hstay, hw, hl⟩
  obtain ⟨w, l, set, map, hvisits, hne, hw, hl⟩ := hnext
  obtain ⟨l', rfl, hvisits'⟩ := (hvisits.of_step hstep).resolve_left hne
  exact ⟨w, l', set, map, hvisits', hw, fun n hn => hl n (List.mem_append_right _ hn)⟩

theorem stop_eq_none_of_visits {l : List (InlinedWalk.Node VertexPtr)}
    (hst : Visits h o f cfgVerbose cfgVertexIds s l t) (ht : t.stop = none) :
    s.stop = none := by
  cases hst with
  | done => exact ht
  | next hnext => exact (TopologicalVisitKahn.step_moves _ _ _ _ hnext.1).1

theorem ComesBack.popsSafely (hinv : s.stop = none → PrintInv h s)
    (hs : ComesBack home h o f cfgVerbose cfgVertexIds cfg s) : s.PopsSafely h := by
  obtain ⟨t, l, set, map, hvisits, ht, -⟩ := hs
  have hstop := stop_eq_none_of_visits hvisits ht.idle.stop
  cases hvisits with
  | done =>
      intro v hv
      simp [State.completing, ht.idle.visiting] at hv
  | next hnext hrest =>
      exact (hinv hstop).popsSafely hnext.1
        (stop_eq_none_of_visits hrest ht.idle.stop)

theorem ComesBack.openCalls_eq_nil
    (hs : ComesBack home h o f cfgVerbose cfgVertexIds cfg s)
    (hend : step h o f cfgVerbose cfgVertexIds s = none) : s.openCalls = [] := by
  obtain ⟨t, l, set, map, hvisits, ht, -⟩ := hs
  cases hvisits with
  | done =>
      unfold State.openCalls State.frames
      rw [ht.idle.calls]
      simp [CallStackFrame.new]
  | next hnext =>
      rw [hnext.1] at hend
      exact absurd hend (by simp)

theorem ComesBack.discovering_ne
    (hs : ComesBack home h o f cfgVerbose cfgVertexIds cfg s)
    (hclear : ∀ e rest map, InPrinted home h f cfg s (e :: rest) map →
      (h.edge e).target ≠ (h.function f).exitVertexDesc) :
    s.discovering h ≠ some (h.function f).exitVertexDesc := by
  intro hu
  obtain ⟨t, l, set, map, hvisits, ht, hl⟩ := hs
  cases hvisits with
  | done =>
      obtain ⟨-, e, rest, hset, htarget⟩ := discovering_eq_some hu
      rw [ht.idle.set] at hset
      rw [hset] at ht
      exact hclear e rest map ht htarget
  | next hnext =>
      refine hl (openIn s.frames, (h.function f).exitVertexDesc) ?_ rfl
      rw [hnext.2, State.visited, hu]
      exact List.mem_append_left _ List.mem_cons_self

/-- The EXIT of the printed function pops the frame of `start_vertex`. -/
theorem InPrinted.exists_not_popsSafely (hp : ProgramFlow functions home h)
    (hf : f ∈ functions) {e : EdgePtr} {rest : List EdgePtr}
    {map : VertexPtr → Option Int} (hs : InPrinted home h f cfg s (e :: rest) map)
    (hexit : (h.edge e).target = (h.function f).exitVertexDesc) :
    ∃ t, Reaches (step h o f cfgVerbose cfgVertexIds) s t ∧ ¬ t.PopsSafely h := by
  have hst := hp.exitStatement hf
  obtain ⟨s₁, recursive, hs₁, hbusy⟩ : ∃ t recursive, Visits h o f cfgVerbose
      cfgVertexIds s [(openIn [.new null cfg], (h.edge e).target)] t ∧ _ :=
    hs.idle.discover rfl (by rw [hexit, hst]; rfl)
  rw [hexit, ← List.append_nil (o.outEdges.enum _)] at hbusy
  obtain ⟨t, ht, hbusy'⟩ : ∃ t, Visits h o f cfgVerbose cfgVertexIds s₁ [] t ∧ _ :=
    hbusy.skips fun d hd => by
      rw [SetOrder.mem_enum, mem_outEdges_iff hp hf (hp.exit_mem f hf)] at hd
      exact answers_exit hp hf hd (.inl rfl)
  refine ⟨t, hs₁.reaches.trans ht.reaches, fun hsafe => ?_⟩
  obtain ⟨n, first, hvisiting, -⟩ := hbusy'.visiting
  obtain ⟨x, frames, hframes, hne⟩ :=
    hsafe _ (State.completing_of_nil hbusy'.stop hvisiting rfl) hst
  rw [State.frames, hbusy'.calls, List.cons_eq_cons] at hframes
  exact hne (hframes.1 ▸ rfl)

end runs

/-- When every call of the run returns, each pop finds the frame of a call and the
frames popped are those that were pushed for calls, exactly if the visit does not come
to the EXIT of the printed function. -/
theorem balancedCalls_iff {p : Program} (hp : LinkedProgram p) {f : FunctionPtr}
    (hf : f ∈ p.functions) (o : IterationOrder) (cfgVerbose cfgVertexIds : Bool)
    (hreturn : ∀ s, Reaches (step p.heap o f cfgVerbose cfgVertexIds)
      (start p.heap o f cfgVerbose cfgVertexIds) s → s.CallsReturn p.heap f) :
    BalancedCalls p.heap o f cfgVerbose cfgVertexIds ↔
      ∀ s, Reaches (step p.heap o f cfgVerbose cfgVertexIds)
        (start p.heap o f cfgVerbose cfgVertexIds) s →
          s.discovering p.heap ≠ some (p.heap.function f).exitVertexDesc := by
  obtain ⟨home, hflow, hlinked⟩ := hp.flow
  obtain ⟨cfg, hidle, -⟩ := exists_idle_start hp hf o cfgVerbose cfgVertexIds
  have hstart : InPrinted home p.heap f cfg
      (start p.heap o f cfgVerbose cfgVertexIds)
      [(p.heap.function f).entryVertexSelfEdge] (fun _ => none) :=
    ⟨hidle, fun e he => by
      rw [List.mem_singleton.mp he, hflow.entrySelf f hf]
      exact hflow.home_entry hf, fun _ _ => rfl⟩
  by_cases hclear : ∀ s e rest map, Reaches (step p.heap o f cfgVerbose cfgVertexIds)
      (start p.heap o f cfgVerbose cfgVertexIds) s →
        InPrinted home p.heap f cfg s (e :: rest) map →
          (p.heap.edge e).target ≠ (p.heap.function f).exitVertexDesc
  · have hback : ∀ s, Reaches (step p.heap o f cfgVerbose cfgVertexIds)
        (start p.heap o f cfgVerbose cfgVertexIds) s →
          ComesBack home p.heap o f cfgVerbose cfgVertexIds cfg s := fun s hs =>
      comesBack_of_reaches hflow hlinked hf hreturn hclear hstart hs
    refine iff_of_true ⟨fun s hs => ?_, fun s pushed popped htrace hstop hend => ?_⟩
      fun s hs => (hback s hs).discovering_ne fun e rest map => hclear s e rest map hs
    · exact (hback s hs).popsSafely (printInv_of_reaches hp hf hs)
    · have hperm := htrace.perm hp hf hstop
      rw [(hback s htrace.reaches).openCalls_eq_nil hend, List.append_nil] at hperm
      exact hperm.symm
  · push Not at hclear
    obtain ⟨s, e, rest, map, hs, hprinted, hexit⟩ := hclear
    refine iff_of_false (fun hbalanced => ?_) fun hnever => ?_
    · obtain ⟨t, hst, hunsafe⟩ : ∃ t, Reaches (step p.heap o f cfgVerbose cfgVertexIds)
          s t ∧ _ := hprinted.exists_not_popsSafely hflow hf hexit
      exact hunsafe (hbalanced.1 t (hs.trans hst))
    · apply hnever s hs
      rw [State.discovering_of_head hprinted.idle.stop hprinted.idle.visiting
        hprinted.idle.set, hexit]

/-- `g(); L: goto L;`, where `g` is `if (c) g();`. -/
def callThenLoop : List FunctionInfo :=
  [⟨"f.c", "f", [(.functionCallUnresolved "g" "", .unknown), (.label "L", .unknown),
      (.gotoUnlinked "L", .unknown)]⟩,
    ⟨"f.c", "g", [(.ifUnlinked "c" "A" "B", .unknown), (.label "A", .unknown),
      (.functionCallUnresolved "g" "", .unknown), (.label "B", .unknown)]⟩]

/-- The frame of the call in `f` is pushed and popped, and the other call is recursive. -/
theorem balancedCalls_iff_callThenLoop :
    ∃ p, Program.parse blankMemory .ascending callThenLoop = .ok p ∧
      (∃ s, Reaches (step p.heap .ascending 1 true true)
        (start p.heap .ascending 1 true true) s ∧ s.openCalls = [14]) ∧
      BalancedCalls p.heap .ascending 1 true true := by
  have hcheck : (Program.parse blankMemory .ascending callThenLoop).Holds fun p =>
      1 ∈ p.functions ∧ OrderedBy p.heap 2 [12, 10, 15, 8, 13, 11] ∧
        (run (step p.heap .ascending 1 true true) 9
          (start p.heap .ascending 1 true true)).openCalls = [14] ∧
        checkRun (step p.heap .ascending 1 true true) (fun s =>
          (s.discovering p.heap).all fun u =>
            decide (u ≠ (p.heap.function 1).exitVertexDesc) &&
              (p.heap.vertex u).statement.calledFunction.all (· = 2)) 40
          (start p.heap .ascending 1 true true) = true ∧
        checkRun (step p.heap .ascending 1 true true) (fun s =>
          s.completing.all fun u =>
            (p.heap.vertex u).statement.calledFunction.all fun g =>
              s.visitor.lastDiscoveredVertexIsRecursive ||
                decide ((s.noRemainingInEdgesSet.head?.map fun e =>
                  (p.heap.edge e).target) = some (p.heap.function g).entryVertexDesc)) 40
          (start p.heap .ascending 1 true true) = true := by
    decide +kernel
  obtain ⟨p, hrun, hf, hordered, hopen, hdiscovers, hcompletes⟩ := hcheck
  have hdiscovering : ∀ s, Reaches (step p.heap .ascending 1 true true)
      (start p.heap .ascending 1 true true) s → ∀ u, s.discovering p.heap = some u →
        u ≠ (p.heap.function 1).exitVertexDesc ∧
          ∀ g, (p.heap.vertex u).statement.calledFunction = some g → g = 2 := by
    intro s hs u hu
    have hcheck := hs.of_checkRun hdiscovers
    rw [hu, Option.all_some, Bool.and_eq_true] at hcheck
    refine ⟨of_decide_eq_true hcheck.1, fun g hg => ?_⟩
    rw [hg, Option.all_some] at hcheck
    exact of_decide_eq_true hcheck.2
  refine ⟨p, hrun, ⟨_, reaches_run 9 _, hopen⟩,
    (balancedCalls_iff (linkedProgram_of_parse (by decide) hrun) hf .ascending true true
      fun s hs => ⟨fun u g hu hg => ?_, fun u g hu hg hflag => ?_⟩).mpr
      fun s hs hu => (hdiscovering s hs _ hu).1 rfl⟩
  · rw [(hdiscovering s hs u hu).2 g hg]
    exact ⟨by decide, hordered.walkable⟩
  · have hcheck := hs.of_checkRun hcompletes
    rw [hu, Option.all_some, hg, Option.all_some, hflag, Bool.false_or] at hcheck
    exact of_decide_eq_true hcheck

end PrintControlFlowGraph

end CoFlo.Ports
