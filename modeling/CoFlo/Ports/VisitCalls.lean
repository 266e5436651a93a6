import CoFlo.Ports.VisitTracks

/-!
# The visit of a call

A call that is not recursive is left by its `FunctionCall` edge, and the EXIT of
the function that is called by the `Return` edge of this call, in the place of the
fallthrough edge.  A recursive call is a vertex like any other one.  From what the
visit does at one vertex it follows how it comes through a function
(`Tracks.exists_rest`).
-/

namespace CoFlo.Ports

open CoFlo.Verified CoFlo.Verified.StepMachine CoFlo.Verified.Transcript Relation

namespace PrintControlFlowGraph

theorem exists_split {A : Type} {l : List A} (hl : l.Nodup) {a : A} (ha : a ∈ l) :
    ∃ l₁ l₂, l = l₁ ++ a :: l₂ ∧ (∀ x ∈ l₁, x ∈ l ∧ x ≠ a) ∧ ∀ x ∈ l₂, x ∈ l ∧ x ≠ a := by
  obtain ⟨l₁, l₂, rfl⟩ := List.append_of_mem ha
  obtain ⟨-, hcons, hdisjoint⟩ := List.nodup_append.mp hl
  refine ⟨l₁, l₂, rfl, fun x hx => ⟨by simp [hx], ?_⟩, fun x hx => ⟨by simp [hx], ?_⟩⟩
  · exact hdisjoint x hx a List.mem_cons_self
  · rintro rfl
    exact (List.nodup_cons.mp hcons).1 hx

section calls

variable {functions : List FunctionPtr} {home : VertexPtr → FunctionPtr} {h : Heap}
  (hp : ProgramFlow functions home h) {o : IterationOrder} {f : FunctionPtr}
  {cfgVerbose cfgVertexIds : Bool} {s : State} {set rest : List EdgePtr}
  {map : VertexPtr → Option Int} {calls : DFSCallStack}
  {frames : List CallStackFrame} {recursive : Bool}

/-! ## The edges of a call -/

/-- The fallthrough edge of a call is skipped, unless the call is recursive. -/
theorem CallEdges.answers_fall {c : VertexPtr} {g : FunctionPtr} {d b r : EdgePtr}
    (hedges : CallEdges h c g d b r)
    (hcalled : (h.vertex c).statement.calledFunction = some g) :
    Answers h frames false d true := by
  by_cases hpassed : (h.edge d).source = (h.edge d).target ∨
      (h.edge d).isBackEdge = true
  · exact answers_true hpassed
  · rw [not_or, Bool.not_eq_true] at hpassed
    have hanswer : Answers h frames false d (h.edge d).edgeType.isFallthrough :=
      answers_of_call hpassed.1 hpassed.2 hedges.fall_type.2
        (by rw [hedges.fall_source]; exact hcalled)
    rwa [hedges.fall] at hanswer

include hp

/-- The `FunctionCall` edge is followed. -/
theorem CallEdges.answers_call {c : VertexPtr} {g : FunctionPtr} (hg : g ∈ functions)
    {d b r : EdgePtr} (hedges : CallEdges h c g d b r)
    (hcalled : (h.vertex c).statement.calledFunction = some g) :
    Answers h frames recursive b recursive := by
  have hne : (h.edge b).source ≠ (h.edge b).target := by
    rw [hedges.call_source, hedges.call_target]
    intro heq
    rw [heq, hp.entryStatement hg] at hcalled
    exact absurd hcalled (by simp [Statement.calledFunction])
  have hanswer : Answers h frames recursive b (if recursive then
      (h.edge b).edgeType.isFunctionCall else (h.edge b).edgeType.isFallthrough) :=
    answers_of_call hne hedges.call_back hedges.call_type.2.1
      (by rw [hedges.call_source]; exact hcalled)
  rw [hedges.call, hedges.call_type.2.2] at hanswer
  cases recursive with
  | true => exact hanswer
  | false => exact hanswer

/-- The edges out of an EXIT: all but the `Return` edge of the innermost call are
skipped. -/
theorem answers_exit {g : FunctionPtr} (hg : g ∈ functions) {c : VertexPtr}
    {cfg : GraphPtr} {e : EdgePtr}
    (he : (h.edge e).source = (h.function g).exitVertexDesc)
    (hne : c = null ∨ (h.edge e).edgeType ≠ .returnEdge c) :
    Answers h (.new c cfg :: frames) recursive e true := by
  have hsource : (h.edge e).source ≠ null := he ▸ hp.exit_ne_null hg
  have hhome : home (h.edge e).source = g := by rw [he, hp.home_exit hg]
  have hst : (h.vertex (h.edge e).source).statement = .exit := by
    rw [he]
    exact hp.exitStatement hg
  by_cases hself : (h.edge e).source = (h.edge e).target
  · exact answers_true (.inl hself)
  · rcases hp.edgeType e hsource with htype | htype | htype
    · exact absurd (hp.leave e hsource htype (by rw [hhome, he])).1.symm hself
    · cases hty : (h.edge e).edgeType with
      | functionCall c' g' =>
          obtain ⟨hc, -, params, hcall, -⟩ := hp.callEdge e c' g' hsource hty
          rw [← hc, hst] at hcall
          exact absurd hcall (by simp)
      | _ => rw [hty] at htype; exact Bool.noConfusion htype
    · cases hty : (h.edge e).edgeType with
      | returnEdge d =>
          have hback := (hp.returnEdge e d hsource hty).2.1
          have hanswer : Answers h (.new c cfg :: frames) recursive e
              (decide (c = null ∨ d ≠ c)) :=
            answers_return hself hback hty (by rw [hst]; rfl)
          have hcond : c = null ∨ d ≠ c := by
            rcases hne with hc | hne
            · exact .inl hc
            · exact .inr fun heq => hne (by rw [hty, heq])
          rwa [decide_eq_true hcond] at hanswer
      | _ => rw [hty] at htype; exact Bool.noConfusion htype

/-! ## Leaving a function that was called -/

/-- The edges out of the EXIT up to the `Return` edge of the call. -/
theorem Busy.exists_returning {c : VertexPtr} (hne : c ≠ null) {g : FunctionPtr} (hg : g ∈ functions) (hother : home c ≠ g)
    {d b r : EdgePtr} (hedges : CallEdges h c g d b r) {cfg : GraphPtr}
    {callSet : Finset FunctionPtr}
    (hs : Busy s (h.function g).exitVertexDesc
      (o.outEdges.enum (h.vertex (h.function g).exitVertexDesc).outEdges) set map
        ⟨.new c cfg :: frames, callSet⟩ recursive) :
    ∃ t x, Visits h o f cfgVerbose cfgVertexIds s [] t ∧
      Busy t (h.function g).exitVertexDesc (r :: x) set map
        ⟨.new c cfg :: frames, callSet⟩ recursive ∧
      Answers h (.new c cfg :: frames) recursive r false ∧
      ∀ e ∈ x, Answers h (.new c cfg :: frames) recursive e true := by
  have hout : ∀ e, e ∈ o.outEdges.enum (h.vertex (h.function g).exitVertexDesc).outEdges ↔
      (h.edge e).source = (h.function g).exitVertexDesc := by
    intro e
    rw [SetOrder.mem_enum, mem_outEdges_iff hp hg (hp.exit_mem g hg)]
  have hskips : ∀ e, e ∈ o.outEdges.enum
      (h.vertex (h.function g).exitVertexDesc).outEdges ∧ e ≠ r →
      Answers h (.new c cfg :: frames) recursive e true := by
    intro e he
    have hsource := (hout e).mp he.1
    apply answers_exit hp hg hsource
    exact .inr fun htype =>
      he.2 (hedges.return_unique e (hsource ▸ hp.exit_ne_null hg) htype)
  have hanswer : Answers h (.new c cfg :: frames) recursive r false := by
    have hrne : (h.edge r).source ≠ (h.edge r).target := by
      intro heq
      have hsame := hp.home_eq_home d (hedges.fall_source ▸ hne) hedges.fall_type.1
      rw [← hedges.return_target, ← heq, hedges.return_source, hp.home_exit hg,
        hedges.fall_source] at hsame
      exact hother hsame.symm
    have hanswer : Answers h (.new c cfg :: frames) recursive r
        (decide (c = null ∨ c ≠ c)) :=
      answers_return hrne hedges.return_back hedges.return_type
        (by rw [hedges.return_source, hp.exitStatement hg]; rfl)
    rwa [decide_eq_false (by simp [hne])] at hanswer
  obtain ⟨l, x, hl, hbefore, hafter⟩ :=
    exists_split (o.outEdges.nodup_enum _) ((hout r).mpr hedges.return_source)
  rw [hl] at hs
  obtain ⟨t, ht, hbusy⟩ : ∃ t, Visits h o f cfgVerbose cfgVertexIds s [] t ∧ _ :=
    hs.skips fun e he => hskips e (hbefore e he)
  exact ⟨t, x, ht, hbusy, hanswer, fun e he => hskips e (hafter e he)⟩

omit hp in
/-- The edges after the `Return` edge, and the end of the visit of the EXIT. -/
theorem Busy.exists_left {u : VertexPtr} {ei : List EdgePtr} {c : VertexPtr}
    (hne : c ≠ null) {g : FunctionPtr}
    (hcalled : (h.vertex c).statement.calledFunction = some g) {cfg : GraphPtr}
    {callSet : Finset FunctionPtr} (hnew : g ∉ callSet)
    (hs : Busy s u ei set map ⟨.new c cfg :: frames, insert g callSet⟩ recursive)
    (hu : (h.vertex u).statement = .exit)
    (hei : ∀ e ∈ ei, Answers h (.new c cfg :: frames) recursive e true) :
    ∃ t, Visits h o f cfgVerbose cfgVertexIds s [] t ∧
      Idle t set map ⟨frames, callSet⟩ := by
  rw [← List.append_nil ei] at hs
  obtain ⟨s', hs', hbusy⟩ : ∃ t, Visits h o f cfgVerbose cfgVertexIds s [] t ∧ _ :=
    hs.skips hei
  obtain ⟨t, ht, hidle⟩ : ∃ t, Visits h o f cfgVerbose cfgVertexIds s' [] t ∧ _ :=
    hbusy.leave hu hne hcalled
  rw [Finset.erase_insert hnew] at hidle
  exact ⟨t, hs'.trans ht, hidle⟩

end calls

/-! ## Calls in a walkable function -/

section walkable

variable {functions : List FunctionPtr} {home : VertexPtr → FunctionPtr} {h : Heap}
  (hp : ProgramFlow functions home h) {g : FunctionPtr} (hg : g ∈ functions)
  (hw : h.Walkable g) {o : IterationOrder} {before map : VertexPtr → Option Int}
  {rs : List EdgePtr} {k : KahnVisit.State VertexPtr EdgePtr} {f : FunctionPtr}
  {cfgVerbose cfgVertexIds : Bool} {s : State} {rest : List EdgePtr}
  {calls : DFSCallStack} {c : VertexPtr} (hc : c ∈ (h.graph g).vertices)
  {g' : FunctionPtr} (hcalled : (h.vertex c).statement.calledFunction = some g')
  {d b r : EdgePtr} (hedges : CallEdges h c g' d b r)

include hp hg hw hc hcalled hedges

/-- The edges out of a call that is recursive: it falls through. -/
theorem answers_recursive {e : EdgePtr} (he : (h.edge e).source = c)
    {frames : List CallStackFrame} :
    (e ∈ h.outsideOf home g ∧ Answers h frames true e true) ∨
      (e ∉ h.outsideOf home g ∧ Answers h frames true e false) := by
  have hg' := callee_mem hp hg ⟨c, hc, hcalled⟩
  obtain ⟨hout, hback⟩ := hedges.of_walkable hp hg hw hc hcalled
  rcases hout e he with rfl | rfl
  · obtain ⟨hcounted, hne⟩ := notMem_outsideOf hp hg hw
      (mem_edges_of_mem hp hg hc he) hback hedges.fall_type.1
    have hanswer : Answers h frames true e (h.edge e).edgeType.isFunctionCall :=
      answers_of_call hne hback hedges.fall_type.2 (by rw [he]; exact hcalled)
    have hnoCall : (h.edge e).edgeType.isFunctionCall = false := by
      have hfall := hedges.fall
      cases hty : (h.edge e).edgeType <;>
        simp_all [EdgeType.isFallthrough, EdgeType.isFunctionCall]
    rw [hnoCall] at hanswer
    exact .inr ⟨hcounted, hanswer⟩
  · exact .inl ⟨.inl (.inr (.inr hedges.call_type.1)),
      hedges.answers_call hp hg' hcalled⟩

/-- A call is entered: of its edges the one into the function is taken. -/
theorem exists_entered (hnew : g' ∉ calls.callSet)
    (hnone : map (h.function g').entryVertexDesc = none) {e : EdgePtr}
    (htarget : (h.edge e).target = c) (hs : Idle s (e :: rest) map calls) :
    ∃ t, Visits h o f cfgVerbose cfgVertexIds s [(openIn calls.callStack, c)] t ∧
      Idle t (b :: rest) map ⟨.new c (h.function g').theCfg :: calls.callStack,
        insert g' calls.callSet⟩ := by
  have hg' := callee_mem hp hg ⟨c, hc, hcalled⟩
  have hne := (home_of_mem hp hg hc).2
  have hout : ∀ x, x ∈ o.outEdges.enum (h.vertex c).outEdges ↔ (h.edge x).source = c := by
    intro x
    rw [SetOrder.mem_enum, mem_outEdges_iff hp hg hc]
  -- The fallthrough edge is skipped, as the call is on top of the stack.
  have hskips : ∀ x, x ∈ o.outEdges.enum (h.vertex c).outEdges ∧ x ≠ b →
      Answers h (.new c (h.function g').theCfg :: calls.callStack) false x true := by
    intro x hx
    have hxd : x = d := ((hedges.of_walkable hp hg hw hc hcalled).1 x
      ((hout x).mp hx.1)).resolve_right hx.2
    rw [hxd]
    exact hedges.answers_fall hcalled
  have hone : (map (h.function g').entryVertexDesc).getD
      (filteredInDegree h o.inEdges (h.function g').entryVertexDesc false) = 1 := by
    rw [hnone, Option.getD_none]
    exact filteredInDegree_entry hp hg' (hedges.call_source ▸ hne) hedges.call
      hedges.call_target _
  obtain ⟨s₁, hs₁, hbusy⟩ : ∃ t, Visits h o f cfgVerbose cfgVertexIds s
      [(openIn calls.callStack, (h.edge e).target)] t ∧ Busy t (h.edge e).target
        (o.outEdges.enum (h.vertex (h.edge e).target).outEdges) rest map
        ⟨.new (h.edge e).target (h.function g').theCfg :: calls.callStack,
          insert g' calls.callSet⟩ false :=
    hs.enter rfl (by rw [htarget]; exact hcalled) hnew
  rw [htarget] at hs₁ hbusy
  obtain ⟨l₁, l₂, hl, hl₁, hl₂⟩ :=
    exists_split (o.outEdges.nodup_enum _) ((hout b).mpr hedges.call_source)
  rw [hl, ← List.append_nil l₂] at hbusy
  obtain ⟨s₂, hs₂, hbusy₂⟩ : ∃ t, Visits h o f cfgVerbose cfgVertexIds s₁ [] t ∧ _ :=
    hbusy.skips fun x hx => hskips x (hl₁ x hx)
  obtain ⟨s₃, hs₃, hbusy₃⟩ : ∃ t, Visits h o f cfgVerbose cfgVertexIds s₂ [] t ∧ _ :=
    hbusy₂.take (hedges.answers_call hp hg' hcalled) hedges.call_target hone
  rw [if_pos rfl, ← hnone, Function.update_eq_self] at hbusy₃
  obtain ⟨s₄, hs₄, hbusy₄⟩ : ∃ t, Visits h o f cfgVerbose cfgVertexIds s₃ [] t ∧ _ :=
    hbusy₃.skips fun x hx => hskips x (hl₂ x hx)
  have hexit : (h.vertex c).statement ≠ .exit := by
    intro hexit
    rw [hexit] at hcalled
    exact absurd hcalled (by simp [Statement.calledFunction])
  obtain ⟨t, ht, hidle⟩ : ∃ t, Visits h o f cfgVerbose cfgVertexIds s₄ [] t ∧ _ :=
    hbusy₄.complete hexit
  exact ⟨t, hs₁.trans (hs₂.trans (hs₃.trans (hs₄.trans ht))), hidle⟩

/-- The function that was called is left: its `Return` edge is taken in the place of
the fallthrough edge of the call. -/
theorem Tracks.exists_returned (hother : g ≠ g') (hnew : g' ∉ calls.callSet)
    (hk : Tracks home h o g before rs map k)
    (hpending : k.pending = some (o.outEdges.enum (h.vertex c).outEdges))
    {recursive : Bool} (hs : Busy s (h.function g').exitVertexDesc
      (o.outEdges.enum (h.vertex (h.function g').exitVertexDesc).outEdges)
        (rs ++ rest) map ⟨.new c (h.function g').theCfg :: calls.callStack,
          insert g' calls.callSet⟩ recursive) :
    ∃ t rs' map' k', Visits h o f cfgVerbose cfgVertexIds s [] t ∧
      Idle t (rs' ++ rest) map' calls ∧ Tracks home h o g before rs' map' k' ∧
      k'.pending = some [] ∧ k'.discovered = k.discovered := by
  have hg' := callee_mem hp hg ⟨c, hc, hcalled⟩
  obtain ⟨hhome, hne⟩ := home_of_mem hp hg hc
  obtain ⟨hedge, hback⟩ := hedges.of_walkable hp hg hw hc hcalled
  -- In Kahn's algorithm the call has no edge but the fallthrough edge.
  have hout : ∀ x, x ∈ o.outEdges.enum (h.vertex c).outEdges ↔ (h.edge x).source = c := by
    intro x
    rw [SetOrder.mem_enum, mem_outEdges_iff hp hg hc]
  have hothers : ∀ x, x ∈ o.outEdges.enum (h.vertex c).outEdges ∧ x ≠ d →
      x ∈ h.outsideOf home g := by
    intro x hx
    have hxb : x = b := (hedge x ((hout x).mp hx.1)).resolve_left hx.2
    rw [hxb]
    exact .inl (.inr (.inr hedges.call_type.1))
  have hdout : d ∉ h.outsideOf home g :=
    (notMem_outsideOf hp hg hw (mem_edges_of_mem hp hg hc hedges.fall_source)
      hback hedges.fall_type.1).1
  obtain ⟨y₁, y₂, hy, hy₁, hy₂⟩ :=
    exists_split (o.outEdges.nodup_enum _) ((hout d).mpr hedges.fall_source)
  rw [hy] at hpending
  have hk₁ := hk.skips hp hg hw hpending fun x hx => hothers x (hy₁ x hx)
  obtain ⟨s₁, x, hs₁, hbusy₁, hanswer, hskips⟩ :
      ∃ t x, Visits h o f cfgVerbose cfgVertexIds s [] t ∧ _ :=
    hs.exists_returning hp hne hg' (hhome ▸ hother) hedges
  obtain ⟨s₂, rs', map', k', hs₂, hbusy₂, hk', hpending', hdiscovered⟩ :
      ∃ t rs' map' k', Visits h o f cfgVerbose cfgVertexIds s₁ [] t ∧ _ :=
    hk₁.exists_take hp hg hw rfl hdout hedges.return_target hbusy₁ hanswer
  rw [← List.append_nil y₂] at hpending'
  have hk'' := hk'.skips hp hg hw hpending' fun x hx => hothers x (hy₂ x hx)
  obtain ⟨t, ht, hidle⟩ : ∃ t, Visits h o f cfgVerbose cfgVertexIds s₂ [] t ∧ _ :=
    hbusy₂.exists_left hne hcalled hnew (hp.exitStatement hg') hskips
  exact ⟨t, rs', map', _, hs₁.trans (hs₂.trans ht), hidle, hk'', rfl, hdiscovered⟩

end walkable

/-! ## From ENTRY to EXIT -/

section rest

variable {functions : List FunctionPtr} {home : VertexPtr → FunctionPtr} {h : Heap}
  (hp : ProgramFlow functions home h) {g : FunctionPtr} (hg : g ∈ functions)
  (hw : h.Walkable g) {o : IterationOrder} {before map : VertexPtr → Option Int}
  {rs : List EdgePtr} {k : KahnVisit.State VertexPtr EdgePtr} {f : FunctionPtr}
  {cfgVerbose cfgVertexIds : Bool} {s : State} {rest : List EdgePtr}
  {calls : DFSCallStack}

include hp hg hw

/-- The visit of a vertex from which nothing is entered. -/
theorem Tracks.exists_plain {e : EdgePtr} (hk : Tracks home h o g before (e :: rs) map k)
    (hpending : k.pending = none) (hv : (h.edge e).target ∈ (h.graph g).vertices)
    (hlast : (h.edge e).target ≠ (h.function g).exitVertexDesc) {recursive : Bool}
    (hout : ∀ d, (h.edge d).source = (h.edge e).target →
      (d ∈ h.outsideOf home g ∧ Answers h calls.callStack recursive d true) ∨
        (d ∉ h.outsideOf home g ∧ Answers h calls.callStack recursive d false))
    (hs : Busy s (h.edge e).target
      (o.outEdges.enum (h.vertex (h.edge e).target).outEdges) (rs ++ rest) map calls
      recursive) :
    ∃ t rs' map' k', Visits h o f cfgVerbose cfgVertexIds s [] t ∧
      Idle t (rs' ++ rest) map' calls ∧ Tracks home h o g before rs' map' k' ∧
      k'.pending = none ∧ k'.discovered = k.discovered ++ [(h.edge e).target] := by
  obtain ⟨k₁, hk₁, hpending₁, hdiscovered₁⟩ := hk.discover hpending
  have hhome := (home_of_mem hp hg hv).1
  have hexit : (h.vertex (h.edge e).target).statement ≠ .exit := by
    intro hexit
    have heq := (hp.statement_exit (h.edge e).target (hhome ▸ hg)).mp hexit
    rw [hhome] at heq
    exact hlast heq
  obtain ⟨s₁, rs', map', k₂, hs₁, hbusy, hk₂, hpending₂, hdiscovered₂⟩ :
      ∃ t rs' map' k', Visits h o f cfgVerbose cfgVertexIds s [] t ∧ _ :=
    hk₁.exists_visit hp hg hw (fun d hd => hout d (by
      rw [SetOrder.mem_enum] at hd
      exact (mem_outEdges_iff hp hg hv).mp hd)) hpending₁ hs
  obtain ⟨t, ht, hidle⟩ : ∃ t, Visits h o f cfgVerbose cfgVertexIds s₁ [] t ∧ _ :=
    hbusy.complete hexit
  exact ⟨t, rs', map', _, hs₁.trans ht, hidle, hk₂.complete hp hg hw hpending₂, rfl,
    hdiscovered₂.trans hdiscovered₁⟩

variable (hbefore : ∀ v, home v = g → before v = none)

include hbefore

/-- The last vertex of a function. -/
theorem Tracks.exists_last {e : EdgePtr} (hk : Tracks home h o g before (e :: rs) map k)
    (hpending : k.pending = none)
    (hlast : (h.edge e).target = (h.function g).exitVertexDesc)
    (hs : Idle s (e :: (rs ++ rest)) map calls) :
    ∃ t recursive, Visits h o f cfgVerbose cfgVertexIds s
        [(openIn calls.callStack, (h.function g).exitVertexDesc)] t ∧
      Busy t (h.function g).exitVertexDesc (o.outEdges.enum
        (h.vertex (h.function g).exitVertexDesc).outEdges) rest before calls recursive ∧
      InlinedWalk.IsOrder (h.graphs functions) g
        (k.discovered ++ [(h.function g).exitVertexDesc]) := by
  obtain ⟨k', hk', -, hdiscovered⟩ := hk.discover hpending
  obtain rfl := hk.rest_eq_nil hp hg hw hlast hpending
  obtain rfl := hk.map_eq hp hg hw hlast hpending hbefore
  have hcalled : (h.vertex (h.edge e).target).statement.calledFunction = none := by
    rw [hlast, hp.exitStatement hg]
    rfl
  obtain ⟨t, recursive, ht, hbusy⟩ : ∃ t recursive, Visits h o f cfgVerbose cfgVertexIds
      s [(openIn calls.callStack, (h.edge e).target)] t ∧ _ := hs.discover rfl hcalled
  rw [hlast] at ht hbusy hdiscovered
  refine ⟨t, recursive, ht, hbusy, ?_⟩
  rw [← hdiscovered]
  refine hk'.isOrder hp hg hw (fun v hv => ?_) ⟨_, hdiscovered⟩
  rw [hdiscovered, List.mem_append, List.mem_singleton]
  by_cases hne : v = (h.function g).exitVertexDesc
  · exact .inr hne
  · exact .inl (hk.mem_discovered hp hg hw hlast hpending hv hne)

/-- What can be said of the visit of each vertex of a function, with all that it calls,
can be said of the visit from any point of the function to its EXIT.  The induction
is on the number of vertices that have not been discovered. -/
theorem Tracks.exists_rest {R : List VertexPtr → List (InlinedWalk.Node VertexPtr) → Prop}
    (hlast : R [(h.function g).exitVertexDesc]
      [(openIn calls.callStack, (h.function g).exitVertexDesc)])
    (hnext : ∀ {s' : State} {e : EdgePtr} {rs : List EdgePtr}
      {map : VertexPtr → Option Int} {k : KahnVisit.State VertexPtr EdgePtr},
      Reaches (step h o f cfgVerbose cfgVertexIds) s s' →
      Tracks home h o g before (e :: rs) map k → k.pending = none →
      (h.edge e).target ∈ (h.graph g).vertices →
      (h.edge e).target ≠ (h.function g).exitVertexDesc →
      Idle s' (e :: (rs ++ rest)) map calls →
      ∃ t rs' map' k' l, Visits h o f cfgVerbose cfgVertexIds s' l t ∧
        Idle t (rs' ++ rest) map' calls ∧ Tracks home h o g before rs' map' k' ∧
        k'.pending = none ∧ k'.discovered = k.discovered ++ [(h.edge e).target] ∧
        ∀ vs l', R vs l' → R ((h.edge e).target :: vs) (l ++ l'))
    (n : Nat) (hk : Tracks home h o g before rs map k) (hpending : k.pending = none)
    (hs : Idle s (rs ++ rest) map calls)
    (hexit : (h.function g).exitVertexDesc ∉ k.discovered)
    (hn : k.discovered.length + n = (h.graph g).vertices.card) :
    ∃ t recursive vs l, Visits h o f cfgVerbose cfgVertexIds s l t ∧
      Busy t (h.function g).exitVertexDesc (o.outEdges.enum
        (h.vertex (h.function g).exitVertexDesc).outEdges) rest before calls recursive ∧
      InlinedWalk.IsOrder (h.graphs functions) g (k.discovered ++ vs) ∧ R vs l := by
  induction n generalizing s rs map k with
  | zero =>
      obtain ⟨e, rs, rfl, -, -, hlt⟩ := hk.exists_cons hp hg hw hpending hexit
      omega
  | succ n ihn =>
      obtain ⟨e, rs, rfl, hv, -, -⟩ := hk.exists_cons hp hg hw hpending hexit
      by_cases hend : (h.edge e).target = (h.function g).exitVertexDesc
      · obtain ⟨t, recursive, ht, hbusy, horder⟩ : ∃ t recursive,
            Visits h o f cfgVerbose cfgVertexIds s _ t ∧ _ :=
          hk.exists_last hp hg hw hbefore hpending hend hs
        exact ⟨t, recursive, _, _, ht, hbusy, horder, hlast⟩
      · obtain ⟨s₁, rs₁, map₁, k₁, l₁, hs₁, hidle, hk₁, hpending₁, hdiscovered, hR⟩ :=
          hnext .refl hk hpending hv hend hs
        have hexit₁ : (h.function g).exitVertexDesc ∉ k₁.discovered := by
          rw [hdiscovered, List.mem_append, List.mem_singleton, not_or]
          exact ⟨hexit, fun heq => hend heq.symm⟩
        have hn₁ : k₁.discovered.length + n = (h.graph g).vertices.card := by
          rw [hdiscovered, List.length_append, List.length_singleton]
          omega
        obtain ⟨t, recursive, vs, l, ht, hbusy, horder, hvs⟩ :=
          ihn (fun hreach => hnext (hs₁.reaches.trans hreach)) hk₁ hpending₁ hidle hexit₁
            hn₁
        rw [hdiscovered, List.append_assoc] at horder
        exact ⟨t, recursive, _, l₁ ++ l, hs₁.trans ht, hbusy, horder, hR vs l hvs⟩

end rest

/-- The visit starts with the self edge of ENTRY and nothing else. -/
theorem exists_idle_start {p : Program} (hp : LinkedProgram p) {f : FunctionPtr}
    (hf : f ∈ p.functions) (o : IterationOrder) (cfgVerbose cfgVertexIds : Bool) :
    ∃ cfg, Idle (start p.heap o f cfgVerbose cfgVertexIds)
        [(p.heap.function f).entryVertexSelfEdge] (fun _ => none)
        ⟨[.new null cfg], ∅⟩ ∧
      (start p.heap o f cfgVerbose cfgVertexIds).visitor.told = [] := by
  obtain ⟨home, hflow, -⟩ := hp.flow
  have howner : (p.heap.vertex (p.heap.function f).entryVertexDesc).owningFunction ≠
      null := by
    rw [hp.owningFunction_entry hf]
    exact fun heq => hflow.null_notMem (heq ▸ hf)
  obtain ⟨cfg, hstart⟩ := start_eq_of_stop
    (start_stop hflow hf howner o cfgVerbose cfgVertexIds)
  rw [hstart]
  exact ⟨cfg, ⟨rfl, rfl, rfl, rfl, rfl⟩, rfl⟩

end PrintControlFlowGraph

end CoFlo.Ports
