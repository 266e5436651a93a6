import CoFlo.Ports.TraversalDFS
import CoFlo.Ports.TopologicalVisitKahn

/-!
# What `terminate_search` does

A visitor that answers `terminate_search` wants the traversal to be over.
`Traverse` returns at once, except when the answer comes from `discover_vertex`
of the start vertex: then only the edge range is made empty and the vertex is
finished.  `improved_depth_first_visit` and `topological_visit_kahn` go on
after every such answer.
-/

namespace CoFlo.Ports

open CoFlo.Verified.StepMachine

/-- No call comes after one that was answered with `terminate_search`. -/
def SearchTerminates (calls : List VisitorCall) : Prop :=
  ∀ pre c post, calls = pre ++ c :: post → c.terminatesSearch = true → post = []

/-- Some call was answered with `terminate_search`. -/
def TerminatesSearch (calls : List VisitorCall) : Prop :=
  ∃ c ∈ calls, c.terminatesSearch = true

theorem not_terminatesSearch_nil : ¬ TerminatesSearch [] := by
  simp [TerminatesSearch]

theorem SearchTerminates.of_not {calls : List VisitorCall}
    (h : ¬ TerminatesSearch calls) : SearchTerminates calls := by
  intro pre c post heq hc
  refine absurd ⟨c, ?_, hc⟩ h
  rw [heq]
  exact List.mem_append_right _ List.mem_cons_self

/-- The answer may come with the last call. -/
theorem SearchTerminates.append {calls new : List VisitorCall}
    (h : ¬ TerminatesSearch calls) (hnew : SearchTerminates new) :
    SearchTerminates (calls ++ new) := by
  intro pre c post heq hc
  rcases List.append_eq_append_iff.mp heq with ⟨mid, hpre, hnew'⟩ | ⟨mid, hcalls, hpost⟩
  · exact hnew mid c post hnew' hc
  · cases mid with
    | nil => exact hnew [] c post hpost.symm hc
    | cons d mid =>
        rw [List.cons_append, List.cons_eq_cons] at hpost
        refine absurd ⟨c, ?_, hc⟩ h
        rw [hcalls, hpost.1]
        exact List.mem_append_right _ List.mem_cons_self

/-- Calls made after the answer break the law. -/
theorem not_searchTerminates_append {calls new : List VisitorCall}
    (h : TerminatesSearch calls) (hnew : new ≠ []) :
    ¬ SearchTerminates (calls ++ new) := by
  intro hlaw
  obtain ⟨c, hmem, hc⟩ := h
  obtain ⟨pre, post, rfl⟩ := List.append_of_mem hmem
  have hpost := hlaw pre c (post ++ new) (by simp) hc
  exact hnew (List.append_eq_nil_iff.mp hpost).2

/-- A run in which each answer is followed by a further step with a call keeps
the law only by never answering so. -/
theorem not_terminatesSearch_of_goesOn {S : Type} {step : S → Option S}
    {start : S} (calls : S → List VisitorCall)
    (hgoesOn : ∀ s, Reaches step start s → TerminatesSearch (calls s) →
      SearchTerminates (calls s) →
        ∃ t new, step s = some t ∧ calls t = calls s ++ new ∧ new ≠ []) :
    (∀ s, Reaches step start s → SearchTerminates (calls s)) ↔
      ∀ s, Reaches step start s → ¬ TerminatesSearch (calls s) := by
  constructor
  · intro hlaw s hs hterm
    obtain ⟨t, new, hstep, hcalls, hnew⟩ := hgoesOn s hs hterm (hlaw s hs)
    have hlaw' := hlaw t (.tail hs hstep)
    rw [hcalls] at hlaw'
    exact not_searchTerminates_append hterm hnew hlaw'
  · exact fun hnever s hs => .of_not (hnever s hs)

variable {σ : Type}

/-- A recorded callback that cannot go wrong. -/
theorem Recorded.call_eq {ρ : Type} (entry : ρ → VisitorCall)
    (callback : Callback Empty σ ρ) (s : Recorded σ) :
    ∃ r visitor, callback s.visitor = .ok (r, visitor) ∧
      Recorded.call entry callback s =
        .ok (r, ⟨visitor, s.calls ++ [entry r]⟩) := by
  unfold Recorded.call
  cases hcall : callback s.visitor with
  | error err => exact err.elim
  | ok p => exact ⟨p.1, p.2, rfl, rfl⟩

/-! ## `improved_depth_first_visit` -/

namespace ImprovedDepthFirstVisit

/-- The calls recorded in a state. -/
abbrev calls (s : State Empty (Recorded σ)) : List VisitorCall :=
  s.visitor.calls

/-- Whatever a recorded callback answers, the visit goes on with it. -/
theorem visit_recorded {ρ : Type} {P : State Empty (Recorded σ) → Prop}
    (entry : ρ → VisitorCall) (callback : Callback Empty σ ρ)
    (s : State Empty (Recorded σ))
    (next : ρ → State Empty (Recorded σ) → State Empty (Recorded σ))
    (hnext : ∀ r visitor,
      P (next r { s with visitor := ⟨visitor, calls s ++ [entry r]⟩ })) :
    P (visit (Recorded.call entry callback) s next) := by
  obtain ⟨r, visitor, _, hcall⟩ := Recorded.call_eq entry callback s.visitor
  unfold visit
  rw [hcall]
  exact hnext r visitor

/-- There is a color map to look into, and after an answer of
`terminate_search` the vertex on top is to be finished. -/
structure GoesOn (s : State Empty (Recorded σ)) : Prop where
  colorMapStack : s.stop = none → s.colorMapStack ≠ []
  top : ∀ c, (calls s).getLast? = some c → c.terminatesSearch = true →
    s.stop = none ∧ ∃ u rest, s.dfsStack = ⟨u, []⟩ :: rest

/-- The last call was not answered with `terminate_search`. -/
theorem GoesOn.of_last {s : State Empty (Recorded σ)} {l : List VisitorCall}
    {c : VisitorCall} (hcalls : calls s = l ++ [c])
    (hc : c.terminatesSearch = false)
    (hmaps : s.stop = none → s.colorMapStack ≠ []) : GoesOn s where
  colorMapStack := hmaps
  top d hd hterm := by
    rw [hcalls, List.getLast?_concat] at hd
    rw [← Option.some.inj hd, hc] at hterm
    exact absurd hterm (by decide)

variable (V : DfsVisitor Empty σ) (h : Heap) (o : SetOrder)

theorem discover_goesOn (u : VertexPtr) {s : State Empty (Recorded σ)}
    {l : List VisitorCall} {c : VisitorCall} (hcalls : calls s = l ++ [c])
    (hc : c.terminatesSearch = false) (hstop : s.stop = none) :
    GoesOn (discover V.recording h o u s) := by
  unfold discover State.putColor
  cases hmaps : s.colorMapStack with
  | nil => exact .of_last hcalls hc fun hnone => absurd hnone (by simp)
  | cons top maps =>
      simp only [hstop, Option.isSome_none, Bool.false_eq_true, if_false]
      apply visit_recorded
      intro r visitor
      cases r with
      | ok => exact .of_last rfl rfl fun _ => by simp
      | terminateBranch => exact .of_last rfl rfl fun _ => by simp
      | terminateSearch =>
          exact ⟨fun _ => by simp, fun _ _ _ => ⟨rfl, u, s.dfsStack, rfl⟩⟩

theorem follow_goesOn (u : VertexPtr) (e : EdgePtr) (ei : List EdgePtr)
    (rest : List VertexInfo) {s : State Empty (Recorded σ)}
    (hstop : s.stop = none) (hmaps : s.colorMapStack ≠ []) :
    GoesOn (follow V.recording h o u e ei rest s) := by
  unfold follow
  cases hs : s.colorMapStack with
  | nil => exact absurd hs hmaps
  | cons top maps =>
      have htree : ∀ top' : ColorMap, GoesOn
          (visit (V.recording.treeEdge e) { s with colorMapStack := top' :: maps }
            fun r s => discover V.recording h o (h.edge e).target
              { s.changeColorContext r with dfsStack := ⟨u, ei⟩ :: rest }) := by
        intro top'
        apply visit_recorded
        intro r visitor
        apply discover_goesOn
        · show calls ((State.changeColorContext _ r)) = _
          cases r <;> exact rfl
        · exact rfl
        · cases r <;> exact hstop
      cases hcolor : top (h.edge e).target with
      | none => simpa only [hcolor] using htree _
      | some color =>
          cases color with
          | white => simpa only [hcolor] using htree _
          | gray =>
              simp only [hcolor]
              apply visit_recorded
              intro r visitor
              exact .of_last rfl rfl fun _ => by simp [hs]
          | black =>
              simp only [hcolor]
              apply visit_recorded
              intro r visitor
              exact .of_last rfl rfl fun _ => by simp [hs]

theorem examine_goesOn (u : VertexPtr) (e : EdgePtr) (ei : List EdgePtr)
    (rest : List VertexInfo) {s : State Empty (Recorded σ)}
    (hstop : s.stop = none) (hmaps : s.colorMapStack ≠ []) :
    GoesOn (examine V.recording h o u e ei rest s) := by
  unfold examine
  apply visit_recorded
  intro r visitor
  cases r with
  | terminateBranch => exact .of_last rfl rfl fun _ => hmaps
  | ok => exact follow_goesOn V h o u e ei rest hstop hmaps
  | terminateSearch => exact follow_goesOn V h o u e ei rest hstop hmaps
  | pushColorContext =>
      rw [if_neg (by decide)]
      apply follow_goesOn V h o u e ei rest
      · exact hstop
      · exact List.cons_ne_nil _ _
  | popColorContext =>
      cases htail : s.colorMapStack.tail with
      | cons top maps =>
          rw [if_neg (by decide)]
          apply follow_goesOn V h o u e ei rest
          · exact hstop
          · show s.colorMapStack.tail ≠ []
            rw [htail]
            exact List.cons_ne_nil _ _
      | nil =>
          -- The last color map has been popped.
          show GoesOn (follow V.recording h o u e ei rest _)
          unfold follow
          simp only [State.changeColorContext, htail]
          exact .of_last rfl rfl fun hnone => absurd hnone (by simp)

theorem finish_calls (u : VertexPtr) (rest : List VertexInfo)
    {s : State Empty (Recorded σ)} (hstop : s.stop = none)
    (hmaps : s.colorMapStack ≠ []) :
    GoesOn (finish V.recording u rest s) ∧
      ∃ r, calls (finish V.recording u rest s) =
        calls s ++ [.finishVertex u r] := by
  unfold finish State.putColor
  cases hs : s.colorMapStack with
  | nil => exact absurd hs hmaps
  | cons top maps =>
      simp only [hstop, Option.isSome_none, Bool.false_eq_true, if_false]
      refine visit_recorded (P := fun t => GoesOn t ∧ ∃ r,
        calls t = calls s ++ [.finishVertex u r]) _ _ _ _ ?_
      intro r visitor
      exact ⟨.of_last rfl rfl fun _ => by simp, r, rfl⟩

theorem start_goesOn (source : VertexPtr) (visitor : σ) :
    GoesOn (start V.recording h o source ⟨visitor, []⟩) := by
  unfold start
  apply visit_recorded
  intro r visitor
  exact discover_goesOn V h o source (l := []) rfl rfl rfl

theorem step_goesOn {s t : State Empty (Recorded σ)} (hs : GoesOn s)
    (hstep : step V.recording h o s = some t) : GoesOn t := by
  unfold step at hstep
  cases hstop : s.stop with
  | some stop => simp [hstop] at hstep
  | none =>
      have hmaps := hs.colorMapStack hstop
      simp only [hstop, Option.isSome_none, Bool.false_eq_true, if_false]
        at hstep
      split at hstep
      · exact absurd hstep (by simp)
      · rw [← Option.some.inj hstep]
        exact (finish_calls V _ _ hstop hmaps).1
      · rw [← Option.some.inj hstep]
        exact examine_goesOn V h o _ _ _ _ hstop hmaps

/-- The visit never stops on `terminate_search`. -/
theorem searchTerminates_iff (source : VertexPtr) (visitor : σ) :
    (∀ s, Reaches (step V.recording h o)
        (start V.recording h o source ⟨visitor, []⟩) s →
      SearchTerminates (calls s)) ↔
    ∀ s, Reaches (step V.recording h o)
        (start V.recording h o source ⟨visitor, []⟩) s →
      ¬ TerminatesSearch (calls s) := by
  apply not_terminatesSearch_of_goesOn calls
  intro s hs hterm hlaw
  have hgoes := hs.invariant (P := GoesOn)
    (fun _ _ hs hstep => step_goesOn V h o hs hstep) (start_goesOn V h o _ _)
  obtain ⟨c, hmem, hc⟩ := hterm
  obtain ⟨pre, post, heq⟩ := List.append_of_mem hmem
  obtain rfl := hlaw pre c post heq hc
  obtain ⟨hstop, u, rest, htop⟩ := hgoes.top c (by rw [heq]; simp) hc
  obtain ⟨_, r, hcalls⟩ := finish_calls V u rest hstop
    (hgoes.colorMapStack hstop)
  refine ⟨finish V.recording u rest s, [.finishVertex u r], ?_, hcalls, by simp⟩
  unfold step
  simp only [hstop, htop, Option.isSome_none, Bool.false_eq_true, if_false]

end ImprovedDepthFirstVisit

/-! ## `topological_visit_kahn` -/

namespace TopologicalVisitKahn

/-- The calls recorded in a state. -/
abbrev calls (s : State Empty (Recorded σ)) : List VisitorCall :=
  s.visitor.calls

theorem visit_recorded {ρ : Type} {P : State Empty (Recorded σ) → Prop}
    (entry : ρ → VisitorCall) (callback : Callback Empty σ ρ)
    (s : State Empty (Recorded σ))
    (next : ρ → State Empty (Recorded σ) → State Empty (Recorded σ))
    (hnext : ∀ r visitor,
      P (next r { s with visitor := ⟨visitor, calls s ++ [entry r]⟩ })) :
    P (visit (Recorded.call entry callback) s next) := by
  obtain ⟨r, visitor, _, hcall⟩ := Recorded.call_eq entry callback s.visitor
  unfold visit
  rw [hcall]
  exact hnext r visitor

/-- Nothing stops the visit, and after an answer of `terminate_search` the
out-edges of some vertex are being walked. -/
structure GoesOn (s : State Empty (Recorded σ)) : Prop where
  stop : s.stop = none
  visiting : ∀ c, (calls s).getLast? = some c → c.terminatesSearch = true →
    s.visiting.isSome = true

theorem GoesOn.of_last {s : State Empty (Recorded σ)} {l : List VisitorCall}
    {c : VisitorCall} (hstop : s.stop = none) (hcalls : calls s = l ++ [c])
    (hc : c.terminatesSearch = false) : GoesOn s where
  stop := hstop
  visiting d hd hterm := by
    rw [hcalls, List.getLast?_concat] at hd
    rw [← Option.some.inj hd, hc] at hterm
    exact absurd hterm (by decide)

variable (V : KahnVisitor Empty σ) (h : Heap) (o : SetOrder)
  (defaultInDegree : VertexPtr → Int)

theorem discover_goesOn (e : EdgePtr) (rest : List EdgePtr)
    {s : State Empty (Recorded σ)} (hstop : s.stop = none) :
    GoesOn (discover V.recording h o e rest s) := by
  unfold discover
  apply visit_recorded
  intro r visitor
  by_cases hr : r = .terminateBranch
  · subst hr
    exact .of_last hstop rfl rfl
  · simp only [if_neg hr]
    exact ⟨hstop, fun _ _ _ => rfl⟩

theorem remove_goesOn (x : Visiting) (e : EdgePtr) (ei : List EdgePtr)
    {s : State Empty (Recorded σ)} (hstop : s.stop = none) :
    GoesOn (remove V.recording h defaultInDegree x e ei s) ∧
      ∃ new, calls (remove V.recording h defaultInDegree x e ei s) =
        calls s ++ new := by
  unfold remove
  obtain ⟨degree, inDegreeMap⟩ :=
    s.inDegreeMap.get defaultInDegree (h.edge e).target
  show GoesOn (ite _ _ _) ∧ ∃ new, calls (ite _ _ _) = _
  split_ifs
  · refine visit_recorded (P := fun t => GoesOn t ∧ ∃ new,
      calls t = calls s ++ new) _ _ _ _ ?_
    intro r visitor
    exact ⟨⟨hstop, fun _ _ _ => rfl⟩, _, rfl⟩
  · exact ⟨⟨hstop, fun _ _ _ => rfl⟩, [], (List.append_nil _).symm⟩

theorem examine_goesOn (x : Visiting) (e : EdgePtr) (ei : List EdgePtr)
    {s : State Empty (Recorded σ)} (hstop : s.stop = none) :
    GoesOn (examine V.recording h defaultInDegree x e ei s) ∧
      ∃ new, calls (examine V.recording h defaultInDegree x e ei s) =
        calls s ++ new ∧ new ≠ [] := by
  unfold examine
  refine visit_recorded (P := fun t => GoesOn t ∧ ∃ new,
    calls t = calls s ++ new ∧ new ≠ []) _ _ _ _ ?_
  intro r visitor
  by_cases hr : r = .terminateBranch
  · simp only [if_pos hr]
    exact ⟨⟨hstop, fun _ _ _ => rfl⟩, _, rfl, by simp⟩
  · simp only [if_neg hr]
    obtain ⟨hgoes, new, hnew⟩ := remove_goesOn V h defaultInDegree x e ei
      (s := { s with
        visitor := ⟨visitor, calls s ++ [.examineEdge e r]⟩ }) hstop
    refine ⟨hgoes, .examineEdge e r :: new, ?_, by simp⟩
    rw [hnew]
    simp [calls]

theorem complete_goesOn (x : Visiting) {s : State Empty (Recorded σ)}
    (hstop : s.stop = none) :
    GoesOn (complete V.recording x s) ∧
      ∃ new, calls (complete V.recording x s) = calls s ++ new ∧ new ≠ [] := by
  unfold complete
  refine visit_recorded (P := fun t => GoesOn t ∧ ∃ new,
    calls t = calls s ++ new ∧ new ≠ [])
    (fun _ => .vertexVisitComplete x.u)
    (V.vertexVisitComplete x.u x.numVerticesPushed x.firstEdgePushed) _ _ ?_
  intro r visitor
  exact ⟨.of_last hstop rfl rfl, _, rfl, by simp⟩

theorem start_goesOn (source : EdgePtr) (visitor : σ)
    (m : RemainingInDegreeMap) :
    GoesOn (start V.recording source ⟨visitor, []⟩ m) := by
  unfold start
  apply visit_recorded
  intro r visitor
  exact .of_last (l := []) rfl rfl rfl

theorem step_goesOn {s t : State Empty (Recorded σ)} (hs : GoesOn s)
    (hstep : step V.recording h o defaultInDegree s = some t) : GoesOn t := by
  unfold step at hstep
  simp only [hs.stop, Option.isSome_none, Bool.false_eq_true, if_false]
    at hstep
  split at hstep
  · split at hstep
    · exact absurd hstep (by simp)
    · rw [← Option.some.inj hstep]
      exact discover_goesOn V h o _ _ hs.stop
  · split at hstep
    · rw [← Option.some.inj hstep]
      exact (complete_goesOn V _ hs.stop).1
    · rw [← Option.some.inj hstep]
      exact (examine_goesOn V h defaultInDegree _ _ _ hs.stop).1

/-- The visit never stops on `terminate_search`. -/
theorem searchTerminates_iff (source : EdgePtr) (visitor : σ)
    (m : RemainingInDegreeMap) :
    (∀ s, Reaches (step V.recording h o defaultInDegree)
        (start V.recording source ⟨visitor, []⟩ m) s →
      SearchTerminates (calls s)) ↔
    ∀ s, Reaches (step V.recording h o defaultInDegree)
        (start V.recording source ⟨visitor, []⟩ m) s →
      ¬ TerminatesSearch (calls s) := by
  apply not_terminatesSearch_of_goesOn calls
  intro s hs hterm hlaw
  have hgoes := hs.invariant (P := GoesOn)
    (fun _ _ hs hstep => step_goesOn V h o defaultInDegree hs hstep)
    (start_goesOn V _ _ _)
  obtain ⟨c, hmem, hc⟩ := hterm
  obtain ⟨pre, post, heq⟩ := List.append_of_mem hmem
  obtain rfl := hlaw pre c post heq hc
  obtain ⟨x, hx⟩ := Option.isSome_iff_exists.mp
    (hgoes.visiting c (by rw [heq]; simp) hc)
  cases hei : x.ei with
  | nil =>
      obtain ⟨_, new, hcalls, hnew⟩ := complete_goesOn V x hgoes.stop
      refine ⟨complete V.recording x s, new, ?_, hcalls, hnew⟩
      unfold step
      simp only [hgoes.stop, hx, hei, Option.isSome_none, Bool.false_eq_true,
        if_false]
  | cons e ei =>
      obtain ⟨_, new, hcalls, hnew⟩ :=
        examine_goesOn V h defaultInDegree x e ei hgoes.stop
      refine ⟨examine V.recording h defaultInDegree x e ei s, new, ?_, hcalls,
        hnew⟩
      unfold step
      simp only [hgoes.stop, hx, hei, Option.isSome_none, Bool.false_eq_true,
        if_false]

end TopologicalVisitKahn

/-! ## `ControlFlowGraphTraversalDFS::Traverse` -/

namespace ControlFlowGraphTraversalDFS

/-- The calls recorded in a state. -/
abbrev calls (s : State Empty (Recorded σ)) : List VisitorCall :=
  s.visitor.calls

theorem visit_recorded {ρ : Type} {P : State Empty (Recorded σ) → Prop}
    (entry : ρ → VisitorCall) (callback : Callback Empty σ ρ)
    (s : State Empty (Recorded σ))
    (next : ρ → State Empty (Recorded σ) → State Empty (Recorded σ))
    (hnext : ∀ r visitor,
      P (next r { s with visitor := ⟨visitor, calls s ++ [entry r]⟩ })) :
    P (visit (Recorded.call entry callback) s next) := by
  obtain ⟨r, visitor, _, hcall⟩ := Recorded.call_eq entry callback s.visitor
  unfold visit
  rw [hcall]
  exact hnext r visitor

/-- The law holds, and an answer of `terminate_search` has stopped the
traversal. -/
structure Stops (s : State Empty (Recorded σ)) : Prop where
  law : SearchTerminates (calls s)
  never : s.stop = none → ¬ TerminatesSearch (calls s)

/-- Calls that are not answered with `terminate_search`, but perhaps the last
one, which then stops the traversal. -/
structure StopsAfter (l : List VisitorCall) (s : State Empty (Recorded σ)) :
    Prop where
  calls_eq : ∃ new, calls s = l ++ new ∧ SearchTerminates new ∧
    (s.stop = none → ¬ TerminatesSearch new)

theorem StopsAfter.stops {l : List VisitorCall} {s : State Empty (Recorded σ)}
    (hs : StopsAfter l s) (hcs : ¬ TerminatesSearch l) : Stops s := by
  obtain ⟨new, hcalls, hlaw, hnever⟩ := hs.calls_eq
  refine ⟨by rw [hcalls]; exact hlaw.append hcs, fun hstop hterm => ?_⟩
  obtain ⟨c, hmem, hc⟩ := hterm
  rw [hcalls] at hmem
  rcases List.mem_append.mp hmem with hmem | hmem
  · exact hcs ⟨c, hmem, hc⟩
  · exact hnever hstop ⟨c, hmem, hc⟩

theorem StopsAfter.cons {l : List VisitorCall} {c : VisitorCall}
    {s : State Empty (Recorded σ)} (hs : StopsAfter (l ++ [c]) s)
    (hc : c.terminatesSearch = false) : StopsAfter l s := by
  obtain ⟨new, hcalls, hlaw, hnever⟩ := hs.calls_eq
  have hsingle : ¬ TerminatesSearch [c] := by
    rintro ⟨d, hmem, hd⟩
    rw [List.mem_singleton.mp hmem, hc] at hd
    exact absurd hd (by decide)
  refine ⟨[c] ++ new, by rw [hcalls, List.append_assoc], hlaw.append hsingle,
    fun hstop hterm => ?_⟩
  obtain ⟨d, hmem, hd⟩ := hterm
  rcases List.mem_append.mp hmem with hmem | hmem
  · exact hsingle ⟨d, hmem, hd⟩
  · exact hnever hstop ⟨d, hmem, hd⟩

/-- No call at all. -/
theorem StopsAfter.nil {s : State Empty (Recorded σ)} {l : List VisitorCall}
    (hcalls : calls s = l) : StopsAfter l s :=
  ⟨[], by rw [hcalls, List.append_nil], .of_not not_terminatesSearch_nil,
    fun _ => not_terminatesSearch_nil⟩

/-- The answer that stops the traversal. -/
theorem StopsAfter.last {s : State Empty (Recorded σ)} {l : List VisitorCall}
    {c : VisitorCall} (hcalls : calls s = l ++ [c]) (hstop : s.stop ≠ none) :
    StopsAfter l s := by
  refine ⟨[c], hcalls, ?_, fun hnone => absurd hnone hstop⟩
  intro pre d post heq _
  cases pre with
  | nil => exact (List.cons.inj heq).2.symm
  | cons _ pre =>
      rw [List.cons_append] at heq
      exact absurd (List.cons.inj heq).2 (by simp)

variable (V : DfsVisitor Empty σ) (h : Heap) (o : SetOrder)

theorem follow_stopsAfter (u : VertexPtr) (e : EdgePtr) (ei : List EdgePtr)
    (rest : List VertexInfo) {s : State Empty (Recorded σ)}
    {l : List VisitorCall} (hcalls : calls s = l) :
    StopsAfter l (follow V.recording h o u e ei rest s) := by
  subst hcalls
  unfold follow
  cases hs : s.callStack.callStack with
  | nil => exact .nil rfl
  | cons top frames =>
      simp only
      split
      · apply visit_recorded
        intro r visitor
        refine StopsAfter.cons (c := .treeEdge e r) ?_ rfl
        apply visit_recorded
        intro r' visitor'
        cases r' with
        | ok => exact StopsAfter.cons (.nil rfl) rfl
        | terminateBranch => exact StopsAfter.cons (.nil rfl) rfl
        | terminateSearch => exact .last rfl (by simp)
      · apply visit_recorded
        intro r visitor
        exact StopsAfter.cons (c := .backEdge e r) (.nil rfl) rfl
      · apply visit_recorded
        intro r visitor
        exact StopsAfter.cons (c := .forwardOrCrossEdge e r) (.nil rfl) rfl

theorem examine_stopsAfter (u : VertexPtr) (e : EdgePtr) (ei : List EdgePtr)
    (rest : List VertexInfo) (s : State Empty (Recorded σ)) :
    StopsAfter (calls s) (examine V.recording h o u e ei rest s) := by
  unfold examine
  split
  · exact .nil rfl
  · exact .nil rfl
  · apply visit_recorded
    intro r visitor
    cases r with
    | terminateBranch =>
        exact StopsAfter.cons (c := .examineEdge e .terminateBranch) (.nil rfl)
          rfl
    | terminateSearch => exact .last rfl (by simp)
    | ok =>
        refine StopsAfter.cons (c := .examineEdge e .ok) ?_ rfl
        apply follow_stopsAfter V h o u e ei rest
        exact rfl
    | pushColorContext =>
        refine StopsAfter.cons (c := .examineEdge e .pushColorContext) ?_ rfl
        apply follow_stopsAfter V h o u e ei rest
        exact rfl
    | popColorContext =>
        refine StopsAfter.cons (c := .examineEdge e .popColorContext) ?_ rfl
        apply follow_stopsAfter V h o u e ei rest
        exact rfl

theorem finish_stopsAfter (u : VertexPtr) (rest : List VertexInfo)
    (s : State Empty (Recorded σ)) :
    StopsAfter (calls s) (finish V.recording u rest s) := by
  unfold finish
  split
  · exact .nil rfl
  · apply visit_recorded
    intro r visitor
    exact StopsAfter.cons (c := .finishVertex u r) (.nil rfl) rfl

theorem finish_calls (u : VertexPtr) (rest : List VertexInfo)
    {s : State Empty (Recorded σ)} (hframes : s.callStack.callStack ≠ []) :
    ∃ r, calls (finish V.recording u rest s) = calls s ++ [.finishVertex u r] := by
  unfold finish
  cases hs : s.callStack.callStack with
  | nil => exact absurd hs hframes
  | cons top frames =>
      refine visit_recorded (P := fun t => ∃ r,
        calls t = calls s ++ [.finishVertex u r]) _ _ _ _ ?_
      intro r visitor
      exact ⟨r, rfl⟩

theorem step_stops {s t : State Empty (Recorded σ)} (hs : Stops s)
    (hstep : step V.recording h o s = some t) : Stops t := by
  unfold step at hstep
  cases hstop : s.stop with
  | some stop => simp [hstop] at hstep
  | none =>
      have hnever := hs.never hstop
      simp only [hstop, Option.isSome_none, Bool.false_eq_true, if_false]
        at hstep
      split at hstep
      · exact absurd hstep (by simp)
      · rw [← Option.some.inj hstep]
        exact (finish_stopsAfter V _ _ s).stops hnever
      · rw [← Option.some.inj hstep]
        exact (examine_stopsAfter V h o _ _ _ _ s).stops hnever

/-- The first answer of the visitor is `terminate_search`. -/
def TerminatesAtStart (source : VertexPtr) (visitor : σ) : Prop :=
  (h.vertex source).owningFunction ≠ null ∧
    ∃ visitor',
      V.discoverVertex source visitor = .ok (.terminateSearch, visitor')

/-- Then the start vertex has no edges to walk, and is finished next. -/
theorem start_terminates {source : VertexPtr} {visitor : σ}
    (hterm : TerminatesAtStart V h source visitor) :
    ∃ visitor', start V.recording h o source ⟨visitor, []⟩ =
      ⟨⟨[startFrame h source], ∅⟩, [⟨source, []⟩],
        ⟨visitor', [.discoverVertex source .terminateSearch]⟩, none⟩ := by
  obtain ⟨howner, visitor', hanswer⟩ := hterm
  have hcall : V.recording.discoverVertex source ⟨visitor, []⟩ =
      .ok (.terminateSearch,
        ⟨visitor', [.discoverVertex source .terminateSearch]⟩) := by
    show Recorded.call _ (V.discoverVertex source) _ = _
    unfold Recorded.call
    rw [hanswer]
    rfl
  refine ⟨visitor', ?_⟩
  unfold start visit
  simp only [if_neg howner, hcall]
  rfl

/-- Any other first answer leaves nothing wrong. -/
theorem start_stops {source : VertexPtr} {visitor : σ}
    (hterm : ¬ TerminatesAtStart V h source visitor) :
    Stops (start V.recording h o source ⟨visitor, []⟩) := by
  unfold start
  simp only
  split_ifs with howner
  · exact ⟨.of_not not_terminatesSearch_nil, fun _ => not_terminatesSearch_nil⟩
  · obtain ⟨r, visitor', hcall, hrecorded⟩ := Recorded.call_eq
      (VisitorCall.discoverVertex source) (V.discoverVertex source)
      ⟨visitor, []⟩
    have hr : r ≠ .terminateSearch := by
      intro heq
      rw [heq] at hcall
      exact hterm ⟨howner, visitor', hcall⟩
    have hnever : ¬ TerminatesSearch [VisitorCall.discoverVertex source r] := by
      rintro ⟨c, hmem, hc⟩
      rw [List.mem_singleton.mp hmem] at hc
      exact hr (of_decide_eq_true hc)
    unfold visit
    rw [show V.recording.discoverVertex source ⟨visitor, []⟩ = _ from hrecorded]
    exact ⟨.of_not hnever, fun _ => hnever⟩

/-- `Traverse` stops on `terminate_search`, unless it is the first answer. -/
theorem searchTerminates_iff (source : VertexPtr) (visitor : σ) :
    (∀ s, Reaches (step V.recording h o)
        (start V.recording h o source ⟨visitor, []⟩) s →
      SearchTerminates (calls s)) ↔
    ¬ TerminatesAtStart V h source visitor := by
  constructor
  · intro hlaw hterm
    obtain ⟨visitor', hstart⟩ := start_terminates V h o hterm
    rw [hstart] at hlaw
    obtain ⟨r, hcalls⟩ := finish_calls V source []
      (s := ⟨⟨[startFrame h source], ∅⟩, [⟨source, []⟩],
        ⟨visitor', [.discoverVertex source .terminateSearch]⟩, none⟩)
      (List.cons_ne_nil _ _)
    have hlaw' := hlaw _ (.tail .refl rfl)
    rw [show calls _ = _ from hcalls] at hlaw'
    refine not_searchTerminates_append ?_ (by simp) hlaw'
    exact ⟨.discoverVertex source .terminateSearch, List.mem_singleton_self _,
      rfl⟩
  · intro hterm s hs
    exact (hs.invariant (P := Stops) (fun _ _ hs hstep =>
      step_stops V h o hs hstep) (start_stops V h o hterm)).law

end ControlFlowGraphTraversalDFS

/-! ## The three traversals -/

/-- Where the traversals end with an answer of `terminate_search`: two of them
when there is no such answer, `Traverse` when it is not the first one. -/
theorem terminateSearch_iff (h : Heap) (o : SetOrder) :
    (∀ (V : DfsVisitor Empty σ) (source : VertexPtr) (visitor : σ),
      (∀ s, Reaches (ImprovedDepthFirstVisit.step V.recording h o)
          (ImprovedDepthFirstVisit.start V.recording h o source
            ⟨visitor, []⟩) s →
        SearchTerminates s.visitor.calls) ↔
      ∀ s, Reaches (ImprovedDepthFirstVisit.step V.recording h o)
          (ImprovedDepthFirstVisit.start V.recording h o source
            ⟨visitor, []⟩) s →
        ¬ TerminatesSearch s.visitor.calls) ∧
    (∀ (V : KahnVisitor Empty σ) (defaultInDegree : VertexPtr → Int)
        (source : EdgePtr) (visitor : σ)
        (inDegreeMap : TopologicalVisitKahn.RemainingInDegreeMap),
      (∀ s, Reaches (TopologicalVisitKahn.step V.recording h o defaultInDegree)
          (TopologicalVisitKahn.start V.recording source ⟨visitor, []⟩
            inDegreeMap) s →
        SearchTerminates s.visitor.calls) ↔
      ∀ s, Reaches (TopologicalVisitKahn.step V.recording h o defaultInDegree)
          (TopologicalVisitKahn.start V.recording source ⟨visitor, []⟩
            inDegreeMap) s →
        ¬ TerminatesSearch s.visitor.calls) ∧
    ∀ (V : DfsVisitor Empty σ) (source : VertexPtr) (visitor : σ),
      (∀ s, Reaches (ControlFlowGraphTraversalDFS.step V.recording h o)
          (ControlFlowGraphTraversalDFS.start V.recording h o source
            ⟨visitor, []⟩) s →
        SearchTerminates s.visitor.calls) ↔
      ¬ ControlFlowGraphTraversalDFS.TerminatesAtStart V h source visitor := by
  refine ⟨fun V => ?_, fun V => ?_, fun V => ?_⟩
  · exact ImprovedDepthFirstVisit.searchTerminates_iff V h o
  · exact TopologicalVisitKahn.searchTerminates_iff V h o
  · exact ControlFlowGraphTraversalDFS.searchTerminates_iff V h o

/-- A visitor that wants to see the start vertex only. -/
def DfsVisitor.startOnly : DfsVisitor Empty Unit :=
  { DfsVisitor.base with discoverVertex := fun _ => .ok .terminateSearch }

/-- The same for `topological_visit_kahn`. -/
def KahnVisitor.startOnly : KahnVisitor Empty Unit where
  startVertex _ := .ok .ok
  discoverVertex _ _ := .ok .terminateSearch
  examineEdge _ := .ok .ok
  treeEdge _ := .ok .ok
  vertexVisitComplete _ _ _ := .ok ()

/-- In the graph of an empty function all three go on. -/
theorem startOnly_goesOn :
    ((Heap.singleFunction []).2.createControlFlowGraph .ascending .ascending 1
      (Heap.singleFunction []).1).Holds fun h =>
        (¬ ∀ s, Reaches (ImprovedDepthFirstVisit.step
              DfsVisitor.startOnly.recording h .ascending)
            (ImprovedDepthFirstVisit.start DfsVisitor.startOnly.recording h
              .ascending (h.function 1).entryVertexDesc ⟨(), []⟩) s →
          SearchTerminates s.visitor.calls) ∧
        (¬ ∀ s, Reaches (TopologicalVisitKahn.step
              KahnVisitor.startOnly.recording h .ascending fun _ => 1)
            (TopologicalVisitKahn.start KahnVisitor.startOnly.recording
              (h.function 1).entryVertexSelfEdge ⟨(), []⟩ .empty) s →
          SearchTerminates s.visitor.calls) ∧
        ¬ ∀ s, Reaches (ControlFlowGraphTraversalDFS.step
              DfsVisitor.startOnly.recording h .ascending)
            (ControlFlowGraphTraversalDFS.start DfsVisitor.startOnly.recording h
              .ascending (h.function 1).entryVertexDesc ⟨(), []⟩) s →
          SearchTerminates s.visitor.calls := by
  have howner : ((Heap.singleFunction []).2.createControlFlowGraph .ascending
      .ascending 1 (Heap.singleFunction []).1).Holds fun h =>
        (h.vertex (h.function 1).entryVertexDesc).owningFunction ≠ null := by
    decide +kernel
  obtain ⟨h, hrun, howner⟩ := howner
  refine ⟨h, hrun, ?_, ?_, ?_⟩
  · rw [ImprovedDepthFirstVisit.searchTerminates_iff]
    intro hnever
    refine hnever _ .refl
      ⟨.discoverVertex (h.function 1).entryVertexDesc .terminateSearch, ?_, rfl⟩
    exact List.mem_append_right _ (List.mem_singleton_self _)
  · rw [TopologicalVisitKahn.searchTerminates_iff]
    intro hnever
    refine hnever _ (.tail .refl rfl)
      ⟨.discoverVertex (h.edge (h.function 1).entryVertexSelfEdge).target
        .terminateSearch, ?_, rfl⟩
    exact List.mem_append_right _ (List.mem_singleton_self _)
  · rw [ControlFlowGraphTraversalDFS.searchTerminates_iff]
    exact fun hnot => hnot ⟨howner, (), rfl⟩

end CoFlo.Ports
