import CoFlo.Ports.AcyclicFlow

/-!
# The walk along the predecessor map

`FindForwardTargetForBackEdge` has a loop without a bound: it looks up the predecessor
of a vertex, goes to the source of that edge, and leaves when it has found a decision
statement there, or the target of the back edge.  Here its rounds are the steps of a
machine, which remembers the keys that are looked up and the vertices that are walked
to; `findForwardTarget` runs it with fuel.  At a back edge of the search the walk goes
up the search tree and ends (`walk_of_backEdge`).
-/

namespace CoFlo.Ports

open CoFlo.Verified CoFlo.Verified.DepthFirstSearch

/-- The loop of `FindForwardTargetForBackEdge` between two rounds.  There is no `u`
when it has been left. -/
structure PredecessorWalk where
  u : Option VertexPtr
  lookedUp : List VertexPtr
  walked : List VertexPtr
  retval : Except Fault VertexPtr

namespace PredecessorWalk

/-- Before the first round. -/
def start (u : VertexPtr) : PredecessorWalk := ⟨some u, [], [], .ok null⟩

variable (h : Heap) (order : IterationOrder) (predecessorMap : VertexPtr → EdgePtr)
  (v : VertexPtr)

/-- A round that starts at `u`, for a back edge to `v`. -/
def round (s : PredecessorWalk) (u : VertexPtr) : PredecessorWalk :=
  let e := predecessorMap u
  let w := (h.edge e).source
  if e = null then
    ⟨none, s.lookedUp ++ [u], s.walked, .error .nullDereference⟩
  else if (h.vertex w).statement.isDecisionStatement then
    ⟨none, s.lookedUp ++ [u], s.walked ++ [w],
      (h.findDifferentOutEdge order e).map fun other => (h.edge other).target⟩
  else
    ⟨if w ≠ v then some w else none, s.lookedUp ++ [u], s.walked ++ [w], .ok null⟩

/-- The next round, if there is one. -/
def step (s : PredecessorWalk) : Option PredecessorWalk :=
  s.u.map (s.round h order predecessorMap v)

/-- Up to the first decision statement, which is the last vertex then. -/
def untilDecision : List VertexPtr → List VertexPtr
  | [] => []
  | w :: up =>
      if (h.vertex w).statement.isDecisionStatement then [w] else w :: untilDecision up

variable {h order predecessorMap v}

/-- `findForwardTarget` is the loop, left when there is no fuel. -/
theorem findForwardTarget_eq_run (h : Heap) (order : IterationOrder)
    (predecessorMap : VertexPtr → EdgePtr) (v : VertexPtr) (fuel : Nat)
    (s : PredecessorWalk) {u : VertexPtr} (hu : s.u = some u) :
    h.findForwardTarget order predecessorMap v fuel u =
      let t := StepMachine.run (step h order predecessorMap v) fuel s
      if t.u = none then t.retval else .error .diverges := by
  induction fuel generalizing s u with
  | zero =>
      dsimp only [StepMachine.run]
      rw [hu, if_neg (Option.some_ne_none u)]
      rfl
  | succ fuel ih =>
      have hstep : step h order predecessorMap v s =
          some (s.round h order predecessorMap v u) := by
        rw [step, hu]
        rfl
      have hleft : ∀ t : PredecessorWalk, t.u = none →
          StepMachine.run (step h order predecessorMap v) fuel t = t := by
        intro t ht
        apply StepMachine.run_of_step_eq_none
        rw [step, ht]
        rfl
      simp only [StepMachine.run, hstep]
      rw [Heap.findForwardTarget]
      unfold round
      dsimp only
      by_cases hnull : predecessorMap u = null
      · rw [if_pos hnull, if_pos hnull, hleft _ rfl, if_pos rfl]
      · rw [if_neg hnull, if_neg hnull]
        by_cases hdecision :
            (h.vertex (h.edge (predecessorMap u)).source).statement.isDecisionStatement = true
        · rw [if_pos hdecision, if_pos hdecision, hleft _ rfl, if_pos rfl]
          cases h.findDifferentOutEdge order (predecessorMap u) <;> rfl
        · rw [if_neg hdecision, if_neg hdecision]
          by_cases hw : (h.edge (predecessorMap u)).source ≠ v
          · rw [if_pos hw, if_pos hw]
            exact ih _ rfl
          · rw [if_neg hw, if_neg hw, hleft _ rfl, if_pos rfl]

/-! ## Up the search tree -/

/-- What a finished walk has done since `s`. -/
structure Walked (h : Heap) (predecessorMap : VertexPtr → EdgePtr) (u : VertexPtr)
    (up : List VertexPtr) (s t : PredecessorWalk) : Prop where
  left : t.u = none
  walked : t.walked = s.walked ++ untilDecision h up
  lookedUp : t.lookedUp = s.lookedUp ++ u :: (untilDecision h up).dropLast
  entry : ∀ x ∈ u :: (untilDecision h up).dropLast, predecessorMap x ≠ null

/-- Along a path that the predecessor map knows the loop ends at its first decision
statement, or where the path starts. -/
theorem reaches_walked (hc : h.Consistent) {p : List EdgePtr} {u : VertexPtr}
    (hp : p ≠ []) (hwalk : SimpleWalk (h.incidence order) v p u)
    (hpred : ∀ d ∈ p, predecessorMap (h.edge d).target = d) (s : PredecessorWalk)
    (hu : s.u = some u) :
    ∃ t, StepMachine.Reaches (step h order predecessorMap v) s t ∧
      Walked h predecessorMap u (p.reverse.map fun d => (h.edge d).source) s t := by
  induction p using List.reverseRecOn generalizing u s with
  | nil => exact absurd rfl hp
  | append_singleton p d ih =>
      obtain ⟨w, hup, hd, hdu⟩ := isWalk_append_iff.mp hwalk.1
      have htarget : (h.edge d).target = u := hdu
      obtain ⟨hsource, hw⟩ := (hc.mem_incidence_out order w d).mp hd
      have hd0 : d ≠ null := (hc.allocated d (hsource ▸ hw)).1
      have hentry : predecessorMap u = d := by
        rw [← htarget]
        exact hpred d (by simp)
      have hfirst : predecessorMap u ≠ null := by rwa [hentry]
      have hstep : step h order predecessorMap v s =
          some (s.round h order predecessorMap v u) := by
        rw [step, hu]
        rfl
      have hrev : (p ++ [d]).reverse.map (fun d => (h.edge d).source) =
          w :: p.reverse.map fun d => (h.edge d).source := by
        simp [hsource]
      rw [hrev]
      unfold round at hstep
      simp only [hentry, hd0, if_false, hsource] at hstep
      by_cases hdecision : (h.vertex w).statement.isDecisionStatement = true
      · rw [if_pos hdecision] at hstep
        refine ⟨_, .tail .refl hstep, rfl, ?_, ?_, ?_⟩
        · rw [untilDecision, if_pos hdecision]
        · rw [untilDecision, if_pos hdecision]
          rfl
        · rw [untilDecision, if_pos hdecision]
          intro x hx
          rw [List.mem_singleton.mp hx]
          exact hfirst
      · rw [if_neg hdecision] at hstep
        by_cases hwv : w = v
        · -- a simple walk back to its start is empty
          have hnil : p = [] := by
            have hsimple := SimpleWalk.prefix hwalk hup
            rcases List.eq_nil_or_concat' p with rfl | ⟨q, c, rfl⟩
            · rfl
            · obtain ⟨-, -, -, hend⟩ := isWalk_append_iff.mp hup
              have hnodup := hsimple.2
              rw [walkVertices, List.nodup_cons] at hnodup
              refine absurd ?_ hnodup.1
              rw [← hwv, ← hend]
              simp
          subst hnil
          rw [if_neg (not_not.mpr hwv)] at hstep
          refine ⟨_, .tail .refl hstep, rfl, ?_, ?_, ?_⟩
          · simp [untilDecision, hdecision]
          · simp [untilDecision, hdecision]
          · intro x hx
            have hxu : x = u := by simpa [untilDecision, hdecision] using hx
            rw [hxu]
            exact hfirst
        · have hne : p ≠ [] := by
            rintro rfl
            exact hwv (show v = w from hup).symm
          rw [if_pos hwv] at hstep
          obtain ⟨s', hs', hu', hwalked', hlookedUp'⟩ : ∃ s',
              step h order predecessorMap v s = some s' ∧ s'.u = some w ∧
                s'.walked = s.walked ++ [w] ∧ s'.lookedUp = s.lookedUp ++ [u] :=
            ⟨_, hstep, rfl, rfl, rfl⟩
          obtain ⟨t, ht, hwalked⟩ := ih hne ( SimpleWalk.prefix hwalk hup)
            (fun d' hd' => hpred d' (List.mem_append_left _ hd')) s' hu'
          have hrest : untilDecision h (p.reverse.map fun d => (h.edge d).source) ≠ [] := by
            obtain ⟨q, c, rfl⟩ := (List.eq_nil_or_concat' p).resolve_left hne
            rw [List.reverse_append, List.reverse_singleton, List.singleton_append,
              List.map_cons, untilDecision]
            split_ifs <;> exact List.cons_ne_nil _ _
          have hcut : untilDecision h (w :: p.reverse.map fun d => (h.edge d).source) =
              w :: untilDecision h (p.reverse.map fun d => (h.edge d).source) := by
            rw [untilDecision, if_neg hdecision]
          refine ⟨t, .head hs' ht, hwalked.left, ?_, ?_, ?_⟩
          · rw [hwalked.walked, hwalked', hcut]
            simp
          · rw [hwalked.lookedUp, hlookedUp', hcut, List.dropLast_cons_of_ne_nil hrest]
            simp
          · rw [hcut, List.dropLast_cons_of_ne_nil hrest]
            intro x hx
            rcases List.mem_cons.mp hx with rfl | hx
            · exact hfirst
            · exact hwalked.entry x hx

/-! ## At a back edge -/

/-- The path `p` down the search tree, from `v` to `u`. -/
def TreePath (h : Heap) (order : IterationOrder) (s : State VertexPtr EdgePtr)
    (v : VertexPtr) (p : List EdgePtr) (u : VertexPtr) : Prop :=
  SimpleWalk (h.incidence order) v p u ∧ ∀ d ∈ p, .treeEdge d ∈ s.trace

section backEdge

variable {roots : List VertexPtr} {s s' : State VertexPtr EdgePtr} {e : EdgePtr}

/-- The state of the search in which a back edge is found. -/
theorem of_backEdge (hstep : DepthFirstSearch.step (h.incidence order) s = some s')
    (hback : s'.trace = s.trace ++ [.backEdge e]) :
    ∃ u rem rest, s.stack = (u, e :: rem) :: rest ∧
      s.color (h.edge e).target = .gray := by
  have hother : ∀ ev : Event VertexPtr EdgePtr, s'.trace = s.trace ++ [ev] →
      ev = .backEdge e := by
    intro ev hev
    rw [hback] at hev
    exact (List.singleton_injective (List.append_cancel_left hev)).symm
  have hnone : s'.trace ≠ s.trace := by
    rw [hback]
    simp
  cases Step.of_step hstep with
  | treeEdge hstack hcolor => exact absurd (hother _ rfl) (by simp)
  | @backEdge u d rem rest hstack hcolor =>
      obtain rfl : d = e := by simpa using hother _ rfl
      exact ⟨u, rem, rest, hstack, hcolor⟩
  | forwardOrCrossEdge hstack hcolor => exact absurd (hother _ rfl) (by simp)
  | finishVertex hstack => exact absurd (hother _ rfl) (by simp)
  | startRoot hstack hroots hcolor => exact absurd rfl hnone
  | skipRoot hstack hroots hcolor => exact absurd rfl hnone

/-- The target of a back edge is above its source in the search tree. -/
theorem exists_treePath (hc : h.Consistent)
    (hs : StepMachine.Reaches (DepthFirstSearch.step (h.incidence order)) (init roots) s)
    {u : VertexPtr} {rem : List EdgePtr} {rest : List (VertexPtr × List EdgePtr)}
    (hstack : s.stack = (u, e :: rem) :: rest)
    (hcolor : s.color (h.edge e).target = .gray) :
    (h.edge e).source = u ∧ ∃ p, TreePath h order s (h.edge e).target p u := by
  have hinv := Inv.of_reaches (hc.incidence_proper order) hs
  obtain ⟨done, hout, -⟩ := hinv.top u (e :: rem) rest hstack
  have heout : e ∈ (h.incidence order).out u := by simp [hout]
  refine ⟨((hc.mem_incidence_out order u e).mp heout).1, ?_⟩
  obtain ⟨r, p, hpath, hvertices, htree⟩ :=
    hinv.searchPath_top (hc.incidence_proper order) hstack
  obtain ⟨-, -, -, -, ⟨hwalk, hnodup⟩, -⟩ := hpath
  have hmem : (h.edge e).target ∈ walkVertices (h.incidence order) r p := by
    rw [hvertices, List.mem_reverse, ← hinv.gray_iff]
    exact hcolor
  -- the part of the tree path to the source that comes after the target
  have hsplit : ∃ p₁ p₂, p = p₁ ++ p₂ ∧
      IsWalk (h.incidence order) r p₁ (h.edge e).target := by
    rcases List.mem_cons.mp hmem with hr | hmem
    · exact ⟨[], p, rfl, hr.symm⟩
    · obtain ⟨d, hd, htarget⟩ := List.mem_map.mp hmem
      obtain ⟨p₁, p₂, rfl⟩ := List.append_of_mem hd
      refine ⟨p₁ ++ [d], p₂, by simp, ?_⟩
      obtain ⟨w, hp₁, hdw, -⟩ := isWalk_append_iff.mp hwalk
      rw [← htarget]
      exact hp₁.snoc hdw
  obtain ⟨p₁, p₂, rfl, hp₁⟩ := hsplit
  obtain ⟨w, hp₁', hp₂⟩ := isWalk_append_iff.mp hwalk
  obtain rfl : (h.edge e).target = w := hp₁.unique hp₁'
  refine ⟨p₂, ⟨hp₂, ?_⟩, fun d hd => htree d (List.mem_append_right _ hd)⟩
  rw [walkVertices_append, List.nodup_append] at hnodup
  rw [walkVertices, List.nodup_cons]
  exact ⟨fun hin => hnodup.2.2 _ hp₁.end_mem _ hin rfl, hnodup.2.1⟩

/-- What the visitor has collected when it has come along. -/
theorem collected_of_reaches (hc : h.Consistent)
    (hs : StepMachine.Reaches (DepthFirstSearch.step (h.incidence order)) (init roots) s)
    {visitor : BackEdgeFixupVisitor}
    (hvisitor : s.trace.foldlM (BackEdgeFixupVisitor.visit h order) .initial =
      .ok visitor) :
    Heap.Collected h order roots s.trace visitor := by
  rcases (Heap.Visited.of_reaches hc hs).1 with ⟨visitor', hfold, hcollected⟩ | ⟨-, hfold⟩
  · obtain rfl := Except.ok.inj (hfold.symm.trans hvisitor)
    exact hcollected
  · rw [hfold] at hvisitor
    exact absurd hvisitor (by simp)

/-- When the search finds a back edge to another vertex, the loop of
`FindForwardTargetForBackEdge` ends, every key it looks up is in the predecessor map,
and the vertices it walks to are those of the tree path from the source of the back
edge up to its target, as far as the first decision statement among them. -/
theorem walk_of_backEdge (hc : h.Consistent)
    (hs : StepMachine.Reaches (DepthFirstSearch.step (h.incidence order)) (init roots) s)
    {visitor : BackEdgeFixupVisitor}
    (hvisitor : s.trace.foldlM (BackEdgeFixupVisitor.visit h order) .initial =
      .ok visitor)
    (hstep : DepthFirstSearch.step (h.incidence order) s = some s')
    (hback : s'.trace = s.trace ++ [.backEdge e])
    (hself : (h.edge e).source ≠ (h.edge e).target) :
    ∃ t, StepMachine.Reaches
        (step h order visitor.predecessorMap (h.edge e).target)
        (start (h.edge e).source) t ∧
      step h order visitor.predecessorMap (h.edge e).target t = none ∧
      (∀ x ∈ t.lookedUp, visitor.predecessorMap x ≠ null) ∧
      t.lookedUp = (h.edge e).source :: t.walked.dropLast ∧
      (∃ p, TreePath h order s (h.edge e).target p (h.edge e).source) ∧
      (∀ p, TreePath h order s (h.edge e).target p (h.edge e).source →
        t.walked = untilDecision h (p.reverse.map fun d => (h.edge d).source)) ∧
      visitor.impossibleTarget h order e = t.retval := by
  obtain ⟨u, rem, rest, hstack, hcolor⟩ := of_backEdge hstep hback
  obtain ⟨hsource, p, hp⟩ := exists_treePath hc hs hstack hcolor
  rw [← hsource] at hp
  have hcollected := collected_of_reaches hc hs hvisitor
  -- Every tree path makes the loop end as it should.
  have hpath : ∀ q, TreePath h order s (h.edge e).target q (h.edge e).source →
      ∃ t, StepMachine.Reaches (step h order visitor.predecessorMap (h.edge e).target)
          (start (h.edge e).source) t ∧
        Walked h visitor.predecessorMap (h.edge e).source
          (q.reverse.map fun d => (h.edge d).source) (start (h.edge e).source) t := by
    intro q hq
    have hne : q ≠ [] := by
      rintro rfl
      exact hself (show (h.edge e).target = (h.edge e).source from hq.1.1).symm
    exact reaches_walked hc hne hq.1
      (fun d hd => hcollected.predecessorMap d (hq.2 d hd)) _ rfl
  have hend : ∀ t : PredecessorWalk, t.u = none →
      step h order visitor.predecessorMap (h.edge e).target t = none := by
    intro t ht
    rw [step, ht]
    rfl
  obtain ⟨t, ht, hwalked⟩ := hpath p hp
  have htw : t.walked = untilDecision h (p.reverse.map fun d => (h.edge d).source) :=
    hwalked.walked
  have htl : t.lookedUp = (h.edge e).source :: t.walked.dropLast := by
    rw [htw]
    exact hwalked.lookedUp
  refine ⟨t, ht, hend t hwalked.left, ?_, htl, ⟨p, hp⟩, ?_, ?_⟩
  · rw [htl, htw]
    exact hwalked.entry
  · intro q hq
    obtain ⟨t', ht', hwalked'⟩ := hpath q hq
    obtain rfl := ht.end_unique (hend t hwalked.left) ht' (hend t' hwalked'.left)
    exact hwalked'.walked
  · -- with the fuel of the port the loop comes to its end
    have hinv := Inv.of_reaches (hc.incidence_proper order) hs
    have htarget := hcollected.findForwardTarget hc hinv hstack hcolor
    have hrun := findForwardTarget_eq_run h order visitor.predecessorMap (h.edge e).target
      h.nextVertex (start (h.edge e).source) rfl
    dsimp only at hrun
    rw [BackEdgeFixupVisitor.impossibleTarget, if_neg hself] at htarget ⊢
    rw [hrun] at htarget ⊢
    have hreach : StepMachine.Reaches (step h order visitor.predecessorMap (h.edge e).target)
        _ _ := StepMachine.reaches_run h.nextVertex (start (h.edge e).source)
    split_ifs at htarget ⊢ with hleft
    · rw [ht.end_unique (hend t hwalked.left) hreach (hend _ hleft)]
    · exact absurd htarget.error_eq (by decide)

/-- The first back edge of `branchesBack`: from the end of the branch `A` the walk goes
to the label and ends at the `if`. -/
theorem walk_of_backEdge_branchesBack :
    ∃ (h : Heap) (s s' : State VertexPtr EdgePtr) (visitor : BackEdgeFixupVisitor),
      (Heap.singleFunction branchesBack).2.connectedFlow 1
        (Heap.singleFunction branchesBack).1 = .ok h ∧
      s'.trace = s.trace ++ [.backEdge 7] ∧
      (h.edge 7).source = 10 ∧ (h.edge 7).target = 1 ∧
      ∃ t, StepMachine.Reaches
          (step h .ascending visitor.predecessorMap (h.edge 7).target)
          (start (h.edge 7).source) t ∧
        step h .ascending visitor.predecessorMap (h.edge 7).target t = none ∧
        (∀ x ∈ t.lookedUp, visitor.predecessorMap x ≠ null) ∧
        t.lookedUp = (h.edge 7).source :: t.walked.dropLast ∧
        (∃ p, TreePath h .ascending s (h.edge 7).target p (h.edge 7).source) ∧
        (∀ p, TreePath h .ascending s (h.edge 7).target p (h.edge 7).source →
          t.walked = untilDecision h (p.reverse.map fun d => (h.edge d).source)) ∧
        visitor.impossibleTarget h .ascending 7 = t.retval := by
  obtain ⟨h, hrun, hc, -⟩ := branchesBack_flow
  have hcheck : ((Heap.singleFunction branchesBack).2.connectedFlow 1
      (Heap.singleFunction branchesBack).1).Holds fun h =>
      let s := StepMachine.run (DepthFirstSearch.step (h.incidence .ascending)) 5
        (init (h.searchRoots .ascending 1 7))
      ((h.edge 7).source = 10 ∧ (h.edge 7).target = 1) ∧
      (s.stack.head? = some (10, [7]) ∧ s.color (h.edge 7).target = .gray) ∧
      (s.trace.foldlM (BackEdgeFixupVisitor.visit h .ascending) .initial).toOption.isSome := by
    decide +kernel
  obtain ⟨_, hok, hedge, ⟨htop, hcolor⟩, hfold⟩ := hcheck
  obtain rfl := Except.ok.inj (hrun.symm.trans hok)
  have hreach : StepMachine.Reaches (DepthFirstSearch.step (h.incidence .ascending)) _ _ :=
    StepMachine.reaches_run 5 (init (h.searchRoots .ascending 1 7))
  generalize StepMachine.run (DepthFirstSearch.step (h.incidence .ascending)) 5
    (init (h.searchRoots .ascending 1 7)) = s at *
  obtain ⟨rest, hstack⟩ := List.head?_eq_some_iff.mp htop
  have hstep := (Step.backEdge (G := h.incidence .ascending) hstack hcolor).step_eq
  have hself : (h.edge 7).source ≠ (h.edge 7).target := by
    rw [hedge.1, hedge.2]
    decide
  cases hvisitor : s.trace.foldlM (BackEdgeFixupVisitor.visit h .ascending) .initial with
  | error fault =>
      rw [hvisitor] at hfold
      exact absurd hfold (by simp [Except.toOption])
  | ok visitor =>
      refine ⟨h, s, { s with stack := (10, []) :: rest, trace := s.trace ++ [.backEdge 7] },
        visitor, hrun, rfl, hedge.1, hedge.2, ?_⟩
      exact walk_of_backEdge hc hreach hvisitor hstep rfl hself

end backEdge

end PredecessorWalk

end CoFlo.Ports
