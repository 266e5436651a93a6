import CoFlo.Ports.PrintSteps

/-!
# Prints that go on alike

What `PrintControlFlowGraph` does next does not depend on what it has printed so
far, nor on the edges at the bottom of the set.  So a state in which nothing else
differs from an earlier one makes the visit go round for ever
(`AlikeStates.not_terminates`).
-/

namespace CoFlo.Ports

open CoFlo.Verified.StepMachine

namespace FunctionCFGVisitor

variable {h : Heap} {o : IterationOrder}

/-- The calls on the stack are the same, and so are the set of called functions and
whether the last call was recursive. -/
structure Alike (v w : FunctionCFGVisitor) : Prop where
  calls : w.callStack.callStack.map (·.functionCallWhichPushedThisFrame) =
    v.callStack.callStack.map (·.functionCallWhichPushedThisFrame)
  callSet : w.callStack.callSet = v.callStack.callSet
  recursive :
    w.lastDiscoveredVertexIsRecursive = v.lastDiscoveredVertexIsRecursive

theorem Alike.of_sameCalls {v w v' w' : FunctionCFGVisitor} (hvw : Alike v w)
    (hv : SameCalls v v') (hw : SameCalls w w') : Alike v' w' where
  calls := by rw [hv.callStack, hw.callStack, hvw.calls]
  callSet := by rw [hv.callStack, hw.callStack, hvw.callSet]
  recursive := by
    rw [hv.lastDiscoveredVertexIsRecursive, hw.lastDiscoveredVertexIsRecursive,
      hvw.recursive]

variable {v w : FunctionCFGVisitor} (hvw : Alike v w)

include hvw

/-! ## The callbacks -/

theorem Alike.skipReturn_fst (c : VertexPtr) :
    (w.skipReturn c).1 = (v.skipReturn c).1 := by
  have hcalls := hvw.calls
  unfold skipReturn
  cases hv : v.callStack.callStack with
  | nil =>
      rw [hv, List.map_nil, List.map_eq_nil_iff] at hcalls
      rw [hcalls]
  | cons x rest =>
      rw [hv, List.map_cons, List.map_eq_cons_iff] at hcalls
      obtain ⟨y, rest', hw, hy, -⟩ := hcalls
      rw [hw]
      simp only [hy]
      split_ifs <;> rfl

theorem Alike.skipFromCall_fst (ed : EdgePtr) :
    (skipFromCall h w ed).1 = (skipFromCall h v ed).1 := by
  unfold skipFromCall
  rw [hvw.recursive]
  split
  · split_ifs <;> rfl
  · rfl

theorem Alike.skipEdge_fst (ed : EdgePtr) :
    (skipEdge h ed w).1 = (skipEdge h ed v).1 := by
  unfold skipEdge
  split_ifs
  · rfl
  · rfl
  · split
    · next c heq =>
        have hreturn := hvw.skipReturn_fst c
        have halike := hvw.of_sameCalls (sameCalls_skipReturn v c)
          (sameCalls_skipReturn w c)
        simp only
        rw [hreturn]
        split_ifs
        · rfl
        · exact halike.skipFromCall_fst ed
    · exact hvw.skipFromCall_fst ed

theorem Alike.examineEdge (ed : EdgePtr) : ∃ r v' w',
    FunctionCFGVisitor.examineEdge h ed v = .ok (r, v') ∧
      FunctionCFGVisitor.examineEdge h ed w = .ok (r, w') ∧ Alike v' w' := by
  refine ⟨if (skipEdge h ed v).1 then .terminateBranch else .ok, _, _, rfl, ?_,
    hvw.of_sameCalls (sameCalls_skipEdge h ed v) (sameCalls_skipEdge h ed w)⟩
  rw [← hvw.skipEdge_fst ed]
  rfl

theorem Alike.discoverVertex (options : PrintOptions) (u : VertexPtr)
    (e : EdgePtr) : ∃ v' w',
    FunctionCFGVisitor.discoverVertex h o options u e v = .ok (.ok, v') ∧
      FunctionCFGVisitor.discoverVertex h o options u e w = .ok (.ok, w') ∧
        Alike v' w' := by
  obtain ⟨v', hv'⟩ : ∃ v',
    FunctionCFGVisitor.discoverVertex h o options u e v = .ok (.ok, v') := ⟨_, rfl⟩
  obtain ⟨w', hw'⟩ : ∃ w',
    FunctionCFGVisitor.discoverVertex h o options u e w = .ok (.ok, w') := ⟨_, rfl⟩
  refine ⟨v', w', hv', hw', ?_⟩
  have hv := discoverVertex_discovers h o options hv'
  have hw := discoverVertex_discovers h o options hw'
  cases hg : (h.vertex u).statement.calledFunction with
  | none => exact hvw.of_sameCalls (hv.noCall hg) (hw.noCall hg)
  | some g =>
      by_cases hmem : g ∈ v.callStack.callSet
      · obtain ⟨hvstack, hvflag⟩ := hv.recursive g hg hmem
        obtain ⟨hwstack, hwflag⟩ := hw.recursive g hg (hvw.callSet.symm ▸ hmem)
        exact
          { calls := by rw [hvstack, hwstack, hvw.calls]
            callSet := by rw [hvstack, hwstack, hvw.callSet]
            recursive := by rw [hvflag, hwflag] }
      · obtain ⟨hvstack, hvflag⟩ := hv.pushes g hg hmem
        obtain ⟨hwstack, hwflag⟩ := hw.pushes g hg (hvw.callSet.symm ▸ hmem)
        exact
          { calls := by
              rw [hvstack, hwstack, List.map_cons, List.map_cons, hvw.calls]
            callSet := by rw [hvstack, hwstack, hvw.callSet]
            recursive := by rw [hvflag, hwflag] }

/-- Popping the frames of the same call does the same. -/
theorem Alike.popCallStack :
    (∃ err, v.callStack.popCallStack h = .error err ∧
      w.callStack.popCallStack h = .error err) ∨
    ∃ vs ws, v.callStack.popCallStack h = .ok vs ∧
      w.callStack.popCallStack h = .ok ws ∧
        Alike { v with callStack := vs } { w with callStack := ws } := by
  have hcalls := hvw.calls
  unfold DFSCallStack.popCallStack
  cases hv : v.callStack.callStack with
  | nil =>
      rw [hv, List.map_nil, List.map_eq_nil_iff] at hcalls
      rw [hcalls]
      exact .inl ⟨_, rfl, rfl⟩
  | cons x rest =>
      rw [hv, List.map_cons, List.map_eq_cons_iff] at hcalls
      obtain ⟨y, rest', hw, hy, hrest⟩ := hcalls
      rw [hw]
      simp only [hy]
      split_ifs
      · exact .inl ⟨_, rfl, rfl⟩
      · exact .inr ⟨_, _, rfl, rfl,
          { calls := hrest
            callSet := by simp only [hvw.callSet]
            recursive := hvw.recursive }⟩

theorem Alike.closeBranches (n : Nat) (e : Option EdgePtr) :
    (∃ err, FunctionCFGVisitor.closeBranches h o n e v = .error err ∧
      FunctionCFGVisitor.closeBranches h o n e w = .error err) ∨
    ∃ v' w', FunctionCFGVisitor.closeBranches h o n e v = .ok v' ∧
      FunctionCFGVisitor.closeBranches h o n e w = .ok w' ∧ Alike v' w' := by
  have hok : ∀ v' w', FunctionCFGVisitor.closeBranches h o n e v = .ok v' →
      FunctionCFGVisitor.closeBranches h o n e w = .ok w' → Alike v' w' :=
    fun v' w' hv hw => hvw.of_sameCalls (sameCalls_closeBranches h o hv)
      (sameCalls_closeBranches h o hw)
  by_cases hone : n = 1 ∧ e = none
  · obtain ⟨rfl, rfl⟩ := hone
    exact .inl ⟨_, rfl, rfl⟩
  · refine .inr ?_
    have hsome : ∀ v, ∃ v', FunctionCFGVisitor.closeBranches h o n e v = .ok v' := by
      intro v
      unfold FunctionCFGVisitor.closeBranches
      split_ifs with hzero hn
      · exact ⟨_, rfl⟩
      · cases e with
        | none => exact absurd ⟨hn, rfl⟩ hone
        | some e => exact ⟨_, rfl⟩
      · exact ⟨_, rfl⟩
    obtain ⟨v', hv⟩ := hsome v
    obtain ⟨w', hw⟩ := hsome w
    exact ⟨v', w', hv, hw, hok v' w' hv hw⟩

theorem Alike.vertexVisitComplete (options : PrintOptions) (u : VertexPtr) (n : Nat)
    (e : Option EdgePtr) :
    (∃ err, FunctionCFGVisitor.vertexVisitComplete h o options u n e v = .error err ∧
      FunctionCFGVisitor.vertexVisitComplete h o options u n e w = .error err) ∨
    ∃ v' w', FunctionCFGVisitor.vertexVisitComplete h o options u n e v =
        .ok ((), v') ∧
      FunctionCFGVisitor.vertexVisitComplete h o options u n e w = .ok ((), w') ∧
        Alike v' w' := by
  unfold FunctionCFGVisitor.vertexVisitComplete
  by_cases hexit : (h.vertex u).statement = .exit
  · simp only [if_pos hexit]
    rcases hvw.popCallStack (h := h) with ⟨err, hv, hw⟩ | ⟨vs, ws, hv, hw, halike⟩
    · rw [hv, hw]
      exact .inl ⟨err, rfl, rfl⟩
    · rw [hv, hw]
      have hclosed := halike.of_sameCalls (sameCalls_closeBracket _ "]")
        (sameCalls_closeBracket _ "]")
      simp only [bind, Except.bind, pure, Except.pure]
      split_ifs
      · exact .inr ⟨_, _, rfl, rfl, hclosed⟩
      · rcases hclosed.closeBranches (h := h) (o := o) n e with
          ⟨err, hv, hw⟩ | ⟨v', w', hv, hw, halike'⟩
        · rw [hv, hw]
          exact .inl ⟨err, rfl, rfl⟩
        · rw [hv, hw]
          exact .inr ⟨v', w', rfl, rfl, halike'⟩
  · simp only [if_neg hexit, bind, Except.bind, pure, Except.pure]
    rcases hvw.closeBranches (h := h) (o := o) n e with
      ⟨err, hv, hw⟩ | ⟨v', w', hv, hw, halike⟩
    · rw [hv, hw]
      exact .inl ⟨err, rfl, rfl⟩
    · rw [hv, hw]
      exact .inr ⟨v', w', rfl, rfl, halike⟩

end FunctionCFGVisitor

/-! ## The visit -/

namespace PrintControlFlowGraph

/-- The visit goes on from `t` as it does from `s`; there may be more edges at the
bottom of the set. -/
structure AlikeStates (h : Heap) (o : IterationOrder) (s t : State) : Prop where
  remaining : ∃ bottom,
    t.noRemainingInEdgesSet = s.noRemainingInEdgesSet ++ bottom
  inDegree : ∀ v < h.nextVertex,
    t.inDegreeMap.lookup (filteredInDegree h o.inEdges · false) v =
      s.inDegreeMap.lookup (filteredInDegree h o.inEdges · false) v
  visiting : t.visiting = s.visiting
  visitor : FunctionCFGVisitor.Alike s.visitor t.visitor
  stop : t.stop = s.stop

variable {h : Heap} {o : IterationOrder} {f : FunctionPtr}
  {cfgVerbose cfgVertexIds : Bool}

/-- A callback that goes on alike, and then the rest. -/
theorem AlikeStates.visit {s t : State} (hst : AlikeStates h o s t) {ρ : Type}
    {callback : Callback TraversalFault FunctionCFGVisitor ρ}
    (hcall : (∃ err, callback s.visitor = .error err ∧
        callback t.visitor = .error err) ∨
      ∃ r v w, callback s.visitor = .ok (r, v) ∧ callback t.visitor = .ok (r, w) ∧
        FunctionCFGVisitor.Alike v w) {next next' : ρ → State → State}
    (hnext : ∀ r s' t', AlikeStates h o s' t' →
      AlikeStates h o (next r s') (next' r t')) :
    AlikeStates h o (TopologicalVisitKahn.visit callback s next)
      (TopologicalVisitKahn.visit callback t next') := by
  unfold TopologicalVisitKahn.visit
  rcases hcall with ⟨err, hv, hw⟩ | ⟨r, v, w, hv, hw, halike⟩
  · rw [hv, hw]
    exact { hst with stop := rfl }
  · rw [hv, hw]
    exact hnext r _ _ { hst with visitor := halike }

/-- Taking an edge out of the in-degree of its target. -/
theorem AlikeStates.remove (hc : h.Consistent) {s t : State}
    (hst : AlikeStates h o s t) (x : TopologicalVisitKahn.Visiting) (e : EdgePtr)
    (ei : List EdgePtr) :
    AlikeStates h o
      (TopologicalVisitKahn.remove
        (PrintControlFlowGraph.visitor h o f cfgVerbose cfgVertexIds) h
        (filteredInDegree h o.inEdges · false) x e ei s)
      (TopologicalVisitKahn.remove
        (PrintControlFlowGraph.visitor h o f cfgVerbose cfgVertexIds) h
        (filteredInDegree h o.inEdges · false) x e ei t) := by
  have hdegree := hst.inDegree _ (hc.target_lt e)
  unfold TopologicalVisitKahn.remove
  simp only [SparsePropertyMap.get_fst, hdegree]
  obtain ⟨id, hid⟩ : ∃ id, id = s.inDegreeMap.lookup
    (filteredInDegree h o.inEdges · false) (h.edge e).target - 1 := ⟨_, rfl⟩
  rw [← hid]
  have hput : ∀ v < h.nextVertex,
      ((t.inDegreeMap.get (filteredInDegree h o.inEdges · false)
        (h.edge e).target).2.put 0 (h.edge e).target id).lookup
          (filteredInDegree h o.inEdges · false) v =
      ((s.inDegreeMap.get (filteredInDegree h o.inEdges · false)
        (h.edge e).target).2.put 0 (h.edge e).target id).lookup
          (filteredInDegree h o.inEdges · false) v := by
    intro v hv
    rw [SparsePropertyMap.lookup_put, SparsePropertyMap.lookup_put,
      SparsePropertyMap.lookup_get, SparsePropertyMap.lookup_get, hst.inDegree v hv]
  have htree : ∀ v, (PrintControlFlowGraph.visitor h o f cfgVerbose
      cfgVertexIds).treeEdge e v = .ok (.ok, v) := fun _ => rfl
  have hcounted : AlikeStates h o
      { s with
        inDegreeMap := ((s.inDegreeMap.get (filteredInDegree h o.inEdges · false)
          (h.edge e).target).2.put 0 (h.edge e).target id) }
      { t with
        inDegreeMap := ((t.inDegreeMap.get (filteredInDegree h o.inEdges · false)
          (h.edge e).target).2.put 0 (h.edge e).target id) } :=
    { hst with inDegree := hput }
  split_ifs
  · refine hcounted.visit (.inr ⟨.ok, _, _, htree _, htree _, hst.visitor⟩)
      fun r s' t' halike => ?_
    obtain ⟨bottom, hremaining⟩ := halike.remaining
    exact { halike with
      remaining := ⟨bottom, by rw [hremaining, List.cons_append]⟩
      visiting := rfl }
  · exact { hcounted with visiting := rfl }

theorem AlikeStates.step (hc : h.Consistent) {s t s' : State}
    (hst : AlikeStates h o s t)
    (hstep : step h o f cfgVerbose cfgVertexIds s = some s') :
    ∃ t', PrintControlFlowGraph.step h o f cfgVerbose cfgVertexIds t = some t' ∧
      AlikeStates h o s' t' := by
  obtain ⟨hstop, hcases⟩ := TopologicalVisitKahn.step_cases _ _ _ _ hstep
  have hstop' : t.stop = none := hst.stop.trans hstop
  obtain ⟨bottom, hremaining⟩ := hst.remaining
  rcases hcases with ⟨hvisiting, e, rest, hset, rfl⟩ | ⟨x, hvisiting, hcases⟩
  · rw [hset, List.cons_append] at hremaining
    refine ⟨_, TopologicalVisitKahn.step_of_discover _ _ _ _ hstop'
      (hst.visiting.trans hvisiting) hremaining, ?_⟩
    obtain ⟨v, w, hv, hw, halike⟩ := hst.visitor.discoverVertex (h := h) (o := o)
      ⟨(h.function f).exitVertexDesc, cfgVerbose, cfgVertexIds⟩ (h.edge e).target e
    have hpopped : AlikeStates h o { s with noRemainingInEdgesSet := rest }
        { t with noRemainingInEdgesSet := rest ++ bottom } :=
      { hst with remaining := ⟨bottom, rfl⟩ }
    unfold TopologicalVisitKahn.discover
    refine hpopped.visit (.inr ⟨VertexReturnValue.ok, v, w, hv, hw, halike⟩)
      fun r s' t' halike' => ?_
    split_ifs
    · exact halike'
    · exact { halike' with visiting := rfl }
  · have hvisiting' : t.visiting = some x := hst.visiting.trans hvisiting
    rcases hcases with ⟨hei, rfl⟩ | ⟨e, ei, hei, rfl⟩
    · refine ⟨_, TopologicalVisitKahn.step_of_complete _ _ _ _ hstop' hvisiting' hei, ?_⟩
      refine hst.visit ?_ fun r s' t' halike => { halike with visiting := rfl }
      rcases hst.visitor.vertexVisitComplete (h := h) (o := o)
        ⟨(h.function f).exitVertexDesc, cfgVerbose, cfgVertexIds⟩
        x.u x.numVerticesPushed x.firstEdgePushed with
        herror | ⟨v, w, hv, hw, halike⟩
      · exact .inl herror
      · exact .inr ⟨(), v, w, hv, hw, halike⟩
    · refine ⟨_, TopologicalVisitKahn.step_of_examine _ _ _ _ hstop' hvisiting' hei, ?_⟩
      refine hst.visit (.inr (hst.visitor.examineEdge e)) fun r s' t' halike => ?_
      split_ifs
      · exact { halike with visiting := rfl }
      · exact halike.remove hc x e ei

/-- A visit that comes back to a state like an earlier one goes on for ever. -/
theorem AlikeStates.not_terminates (hc : h.Consistent) {s₀ s s' t : State}
    (hs : Reaches (PrintControlFlowGraph.step h o f cfgVerbose cfgVertexIds) s₀ s)
    (hnext : PrintControlFlowGraph.step h o f cfgVerbose cfgVertexIds s = some s')
    (hreach : Reaches (PrintControlFlowGraph.step h o f cfgVerbose cfgVertexIds) s' t)
    (hst : AlikeStates h o s t) :
    ¬ Terminates (PrintControlFlowGraph.step h o f cfgVerbose cfgVertexIds) s₀ :=
  not_terminates_of_recurs (R := AlikeStates h o)
    (fun _ _ _ halike hstep => halike.step hc hstep) hs hnext hreach hst

end PrintControlFlowGraph

end CoFlo.Ports
