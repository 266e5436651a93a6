import CoFlo.Ports.AcyclicFlow
import CoFlo.Ports.TopologicalVisitKahn
import CoFlo.Verified.KahnVisit

/-!
# `topological_visit_kahn` is Kahn's algorithm

With a visitor that passes over the same edges throughout and never ends a
branch, and a map that starts at the numbers of the other in-edges, the visit is
the one of `CoFlo.Verified.KahnVisit`.  The order in which it discovers vertices
can be read off the calls that a recording visitor has written down
(`topologicalVisitKahn_order`).
-/

namespace CoFlo.Ports

open CoFlo.Verified CoFlo.Verified.DepthFirstSearch CoFlo.Verified.StepMachine
open Relation

/-- What a recorded callback writes down. -/
theorem Recorded.call_eq_ok {ε σ ρ : Type} {entry : ρ → VisitorCall}
    {callback : Callback ε σ ρ} {s t : Recorded σ} {r : ρ}
    (hcall : Recorded.call entry callback s = .ok (r, t)) :
    callback s.visitor = .ok (r, t.visitor) ∧ t.calls = s.calls ++ [entry r] := by
  unfold Recorded.call at hcall
  cases hc : callback s.visitor with
  | error err => simp [hc, bind, Except.bind] at hcall
  | ok p =>
      obtain ⟨r', visitor⟩ := p
      rw [hc] at hcall
      obtain ⟨rfl, rfl⟩ : r' = r ∧ ⟨visitor, s.calls ++ [entry r']⟩ = t := by
        simpa [bind, Except.bind, pure, Except.pure] using hcall
      exact ⟨rfl, rfl⟩

namespace VisitorCall

/-- The vertices `discover_vertex` was called for. -/
def discovered (calls : List VisitorCall) : List VertexPtr :=
  calls.filterMap fun
    | .discoverVertex u _ => some u
    | _ => none

/-- The edges `examine_edge` was called for. -/
def examined (calls : List VisitorCall) : List EdgePtr :=
  calls.filterMap fun
    | .examineEdge e _ => some e
    | _ => none

/-- The edges `tree_edge` was called for. -/
def treeEdges (calls : List VisitorCall) : List EdgePtr :=
  calls.filterMap fun
    | .treeEdge e _ => some e
    | _ => none

end VisitorCall

namespace Heap

variable (h : Heap) (o : SetOrder) (S : Set EdgePtr) [DecidablePred (· ∈ S)]

/-- The graph a visit walks over. -/
def outgoing : Incidence VertexPtr EdgePtr where
  out v := o.enum (h.vertex v).outEdges
  target e := (h.edge e).target

/-- The in-edges of a vertex that are not passed over. -/
def inEdgesOutside (v : VertexPtr) : Finset EdgePtr :=
  (h.vertex v).inEdges.filter (· ∉ S)

/-- Along an edge that is not passed over. -/
def OutsideStep (u v : VertexPtr) : Prop :=
  ∃ e ∈ (h.vertex u).outEdges, e ∉ S ∧ (h.edge e).target = v

variable {h o S}

omit [DecidablePred (· ∈ S)] in
theorem edgeStep_eq :
    KahnVisit.EdgeStep (h.outgoing o) S = h.OutsideStep S := by
  funext u v
  simp only [KahnVisit.EdgeStep, OutsideStep, outgoing, SetOrder.mem_enum]

theorem Consistent.outgoing_proper (hc : h.Consistent) :
    (h.outgoing o).Proper where
  nodup _ := o.nodup_enum _
  source_unique u v e hu hv := by
    rw [outgoing, SetOrder.mem_enum] at hu hv
    rw [← hc.source_eq_of_mem hu, hc.source_eq_of_mem hv]

theorem Consistent.inEdges (hc : h.Consistent) :
    KahnVisit.InEdges (h.outgoing o) S (h.inEdgesOutside S) where
  mem_iff v e := by
    rw [inEdgesOutside, Finset.mem_filter, hc.mem_inEdges, and_comm]
    refine and_congr_right fun _ => and_congr_right fun htarget => ?_
    have hne : v ≠ null ↔ (h.edge e).source ≠ null := by
      rw [← htarget, ne_eq, ← hc.source_eq_null]
    rw [hne]
    constructor
    · intro hsource
      refine ⟨(h.edge e).source, ?_⟩
      rw [outgoing, SetOrder.mem_enum]
      exact (hc.mem_outEdges _ e).mpr ⟨rfl, hsource⟩
    · rintro ⟨u, hu⟩
      rw [outgoing, SetOrder.mem_enum] at hu
      obtain ⟨hsource, hne'⟩ := (hc.mem_outEdges u e).mp hu
      exact hsource ▸ hne'

end Heap

/-- A visitor that passes over the edges of `S` and no others, and lets the
visit go on at every vertex. -/
structure KahnVisitor.Skips {σ : Type} (V : KahnVisitor Empty σ)
    (S : Set EdgePtr) : Prop where
  discoverVertex : ∀ u e s r s', V.discoverVertex u e s = .ok (r, s') → r = .ok
  examineEdge : ∀ e s r s', V.examineEdge e s = .ok (r, s') →
    (r = .terminateBranch ↔ e ∈ S)

namespace TopologicalVisitKahn

variable {σ : Type} (V : KahnVisitor Empty σ) (h : Heap) (o : SetOrder)
  (S : Set EdgePtr) [DecidablePred (· ∈ S)]

/-- `DefaultValueFunctor`, which counts the in-edges outside `S`. -/
def inDegreeOutside (v : VertexPtr) : Int :=
  (h.inEdgesOutside S v).card

/-- A state with its calls, as a state of Kahn's algorithm. -/
def kahnState (s : State Empty (Recorded σ)) :
    KahnVisit.State VertexPtr EdgePtr where
  ready := s.noRemainingInEdgesSet
  remaining := s.inDegreeMap.lookup (inDegreeOutside h S)
  pending := s.visiting.map (·.ei)
  discovered := VisitorCall.discovered s.visitor.calls
  examined := VisitorCall.examined s.visitor.calls
  tree := VisitorCall.treeEdges s.visitor.calls

variable {V h o S}

theorem visit_stop_eq_none {τ ρ : Type} {callback : Callback Empty τ ρ}
    {s : State Empty τ} {next : ρ → State Empty τ → State Empty τ}
    (hnext : ∀ r visitor, (next r { s with visitor }).stop = none) :
    (visit callback s next).stop = none := by
  unfold visit
  split
  · rename_i err _
    exact err.elim
  · exact hnext _ _

/-- A visitor that cannot throw does not end the visit. -/
theorem step_stop_eq_none {τ : Type} {V : KahnVisitor Empty τ}
    {d : VertexPtr → Int} {s t : State Empty τ}
    (hstep : step V h o d s = some t) : t.stop = none := by
  obtain ⟨hstop, _⟩ := step_moves V h o d hstep
  unfold step at hstep
  rw [hstop] at hstep
  simp only [Option.isSome_none, Bool.false_eq_true, if_false] at hstep
  split at hstep
  · split at hstep
    · exact absurd hstep (by simp)
    · rw [← Option.some.inj hstep]
      refine visit_stop_eq_none fun r visitor => ?_
      split_ifs <;> exact hstop
  · split at hstep
    · rw [← Option.some.inj hstep]
      exact visit_stop_eq_none fun _ _ => hstop
    · rw [← Option.some.inj hstep]
      refine visit_stop_eq_none fun r visitor => ?_
      split_ifs
      · exact hstop
      · unfold remove
        dsimp only
        split_ifs
        · exact visit_stop_eq_none fun _ _ => hstop
        · exact hstop

theorem lookup_update {m m' : RemainingInDegreeMap} {d : VertexPtr → Int}
    {v : VertexPtr} {x : Option Int}
    (hm : m'.underlyingMap = Function.update m.underlyingMap v x) :
    m'.lookup d = Function.update (m.lookup d) v (x.getD (d v)) := by
  funext w
  unfold SparsePropertyMap.lookup
  rw [hm]
  by_cases hw : w = v
  · subst hw
    rw [Function.update_self, Function.update_self]
  · rw [Function.update_of_ne hw, Function.update_of_ne hw]

/-- One step of the visit is one step of Kahn's algorithm. -/
theorem step_kahn (hV : V.Skips S) {s t : State Empty (Recorded σ)}
    (hstep : step V.recording h o (inDegreeOutside h S) s = some t) :
    KahnVisit.Step (h.outgoing o) S (h.inEdgesOutside S)
      (kahnState h S s) (kahnState h S t) := by
  have hstop := step_stop_eq_none hstep
  obtain ⟨_, hmoves⟩ := step_moves V.recording h o _ hstep
  cases hmoves with
  | @discover e rest r visitor hvisiting hset hcall hr =>
      obtain ⟨_, hcalls⟩ := Recorded.call_eq_ok hcall
      have hpending : (kahnState h S s).pending = none := by
        simp [kahnState, hvisiting]
      convert KahnVisit.Step.discover hpending hset using 1
      simp [kahnState, hcalls, VisitorCall.discovered, VisitorCall.examined,
        VisitorCall.treeEdges, Heap.outgoing]
  | pass hvisiting hset hcall =>
      obtain ⟨hcall', _⟩ := Recorded.call_eq_ok hcall
      exact absurd (hV.discoverVertex _ _ _ _ _ hcall') (by decide)
  | @skip x e ei visitor hvisiting hei hcall =>
      obtain ⟨hcall', hcalls⟩ := Recorded.call_eq_ok hcall
      have hpending : (kahnState h S s).pending = some (e :: ei) := by
        simp [kahnState, hvisiting, hei]
      have he := (hV.examineEdge _ _ _ _ hcall').mp rfl
      convert KahnVisit.Step.skip hpending he using 1
      simp [kahnState, hcalls, VisitorCall.discovered, VisitorCall.examined,
        VisitorCall.treeEdges]
  | @count x e ei r visitor m hvisiting hei hcall hr hid hmap =>
      obtain ⟨hcall', hcalls⟩ := Recorded.call_eq_ok hcall
      have hpending : (kahnState h S s).pending = some (e :: ei) := by
        simp [kahnState, hvisiting, hei]
      have he : e ∉ S := fun he => hr ((hV.examineEdge _ _ _ _ hcall').mpr he)
      have hremaining : (kahnState h S s).remaining ((h.outgoing o).target e) ≠ 1 :=
        hid
      convert KahnVisit.Step.count hpending he hremaining using 1
      simp [kahnState, hcalls, lookup_update hmap, VisitorCall.discovered,
        VisitorCall.examined, VisitorCall.treeEdges, Heap.outgoing]
  | @push x e ei r r' visitor visitor' m hvisiting hei hcall hr hid hmap htree =>
      obtain ⟨hcall', hcalls⟩ := Recorded.call_eq_ok hcall
      obtain ⟨_, hcalls'⟩ := Recorded.call_eq_ok htree
      have hpending : (kahnState h S s).pending = some (e :: ei) := by
        simp [kahnState, hvisiting, hei]
      have he : e ∉ S := fun he => hr ((hV.examineEdge _ _ _ _ hcall').mpr he)
      have hremaining : (kahnState h S s).remaining ((h.outgoing o).target e) = 1 :=
        hid
      convert KahnVisit.Step.push hpending he hremaining using 1
      simp [kahnState, hcalls', hcalls, lookup_update hmap,
        VisitorCall.discovered, VisitorCall.examined, VisitorCall.treeEdges,
        Heap.outgoing, inDegreeOutside]
  | @complete x visitor hvisiting hei hcall =>
      have hcall' : Recorded.call (fun _ => .vertexVisitComplete x.u)
          (V.vertexVisitComplete x.u x.numVerticesPushed x.firstEdgePushed)
          s.visitor = .ok ((), visitor) := hcall
      obtain ⟨_, hcalls⟩ := Recorded.call_eq_ok hcall'
      have hpending : (kahnState h S s).pending = some [] := by
        simp [kahnState, hvisiting, hei]
      convert KahnVisit.Step.complete hpending using 1
      simp [kahnState, hcalls, VisitorCall.discovered, VisitorCall.examined,
        VisitorCall.treeEdges]
  | fault hfault => exact absurd hstop hfault

theorem kahnState_start (source : EdgePtr) (visitor : σ) :
    (start V.recording source ⟨visitor, []⟩ .empty).stop = none ∧
      kahnState h S (start V.recording source ⟨visitor, []⟩ .empty) =
        KahnVisit.init (h.inEdgesOutside S) source := by
  unfold start visit
  cases hcall : V.recording.startVertex source ⟨visitor, []⟩ with
  | error err => exact err.elim
  | ok p =>
      obtain ⟨_, hcalls⟩ := Recorded.call_eq_ok hcall
      refine ⟨rfl, ?_⟩
      simp only [kahnState, hcalls, KahnVisit.init]
      rfl

/-- What holds of a state of the visit. -/
structure KahnInv (h : Heap) (S : Set EdgePtr) [DecidablePred (· ∈ S)]
    (o : SetOrder) (source : EdgePtr) (s : State Empty (Recorded σ)) : Prop where
  stop : s.stop = none
  inv : KahnVisit.Inv (h.outgoing o) (h.inEdgesOutside S)
    (h.edge source).target (kahnState h S s)
  inUniverse : KahnVisit.InUniverse (h.outgoing o)
    (Finset.range h.nextVertex) (kahnState h S s)

/-- The visit is over when nothing is left to do. -/
theorem step_eq_none {τ : Type} {V : KahnVisitor Empty τ} {d : VertexPtr → Int}
    {s : State Empty τ} (hstop : s.stop = none)
    (hstep : step V h o d s = none) :
    s.visiting = none ∧ s.noRemainingInEdgesSet = [] := by
  unfold step at hstep
  rw [hstop] at hstep
  simp only [Option.isSome_none, Bool.false_eq_true, if_false] at hstep
  cases hvisiting : s.visiting with
  | none =>
      cases hset : s.noRemainingInEdgesSet with
      | nil => exact ⟨rfl, rfl⟩
      | cons e rest => simp [hvisiting, hset] at hstep
  | some x => cases hei : x.ei <;> simp [hvisiting, hei] at hstep

section visit

variable (hc : h.Consistent) (hV : V.Skips S) {source : EdgePtr}
  (hsource : h.inEdgesOutside S (h.edge source).target = ∅)

include hc

theorem target_mem_universe :
    ∀ u ∈ Finset.range h.nextVertex, ∀ e ∈ (h.outgoing o).out u,
      (h.outgoing o).target e ∈ Finset.range h.nextVertex :=
  fun _ _ e _ => Finset.mem_range.mpr (hc.target_lt e)

theorem KahnInv.start (visitor : σ) :
    KahnInv h S o source (start V.recording source ⟨visitor, []⟩ .empty) := by
  obtain ⟨hstop, hstate⟩ := kahnState_start (V := V) (h := h) (S := S) source visitor
  refine ⟨hstop, ?_, ?_⟩
  · rw [hstate]
    exact KahnVisit.Inv.init source
  · rw [hstate]
    intro v hv
    obtain rfl : v = (h.edge source).target := by
      simpa [KahnVisit.init, Heap.outgoing] using hv
    exact Finset.mem_range.mpr (hc.target_lt source)

include hV hsource

theorem KahnInv.step {s t : State Empty (Recorded σ)}
    (hs : KahnInv h S o source s)
    (hstep : step V.recording h o (inDegreeOutside h S) s = some t) :
    KahnInv h S o source t ∧
      KahnVisit.work (h.outgoing o) (Finset.range h.nextVertex)
          (kahnState h S t) <
        KahnVisit.work (h.outgoing o) (Finset.range h.nextVertex)
          (kahnState h S s) := by
  have hkahn := step_kahn hV hstep
  obtain ⟨huniverse, hwork⟩ :=
    hs.inv.work_lt hs.inUniverse (target_mem_universe hc) hkahn
  exact ⟨⟨step_stop_eq_none hstep,
    hs.inv.step hc.outgoing_proper hc.inEdges hsource hkahn, huniverse⟩, hwork⟩

end visit

end TopologicalVisitKahn

/-- Up to any point of a visit from `r`, no vertex has been discovered twice,
and none before the sources of its in-edges outside `S`. -/
structure KahnOrder (h : Heap) (S : Set EdgePtr) [DecidablePred (· ∈ S)]
    (r : VertexPtr) (calls : List VisitorCall) : Prop where
  nodup : (VisitorCall.discovered calls).Nodup
  after : ∀ l₁ v l₂, VisitorCall.discovered calls = l₁ ++ v :: l₂ → v ≠ r →
    ∀ e ∈ h.inEdgesOutside S v, (h.edge e).source ∈ l₁

/-- At the end of the visit each vertex but `r` has been discovered along one
tree edge, and all of an acyclic graph behind `r` has been discovered. -/
structure KahnComplete (h : Heap) (S : Set EdgePtr) (r : VertexPtr)
    (calls : List VisitorCall) : Prop where
  treeEdge : ∀ v,
    ((VisitorCall.treeEdges calls).map fun e => (h.edge e).target).count v =
      if v ∈ VisitorCall.discovered calls ∧ v ≠ r then 1 else 0
  all : (∀ v, ¬ TransGen (h.OutsideStep S) v v) →
    (∀ u v, h.OutsideStep S u v →
      ReflTransGen (h.OutsideStep S) r u ∧ ReflTransGen (h.OutsideStep S) r v) →
    ∀ v, ReflTransGen (h.OutsideStep S) r v →
      v ∈ VisitorCall.discovered calls

/-- `topological_visit_kahn` with a visitor that passes over the edges of `S`
ends, and discovers the vertices in a topological order of the other edges. -/
theorem topologicalVisitKahn_order {σ : Type} {V : KahnVisitor Empty σ}
    {h : Heap} (hc : h.Consistent) {S : Set EdgePtr} [DecidablePred (· ∈ S)]
    (hV : V.Skips S) (o : SetOrder) {source : EdgePtr}
    (hsource : h.inEdgesOutside S (h.edge source).target = ∅) (visitor : σ) :
    Terminates (TopologicalVisitKahn.step V.recording h o
        (TopologicalVisitKahn.inDegreeOutside h S))
      (TopologicalVisitKahn.start V.recording source ⟨visitor, []⟩ .empty) ∧
    ∀ t, Reaches (TopologicalVisitKahn.step V.recording h o
          (TopologicalVisitKahn.inDegreeOutside h S))
        (TopologicalVisitKahn.start V.recording source ⟨visitor, []⟩ .empty) t →
      KahnOrder h S (h.edge source).target t.visitor.calls ∧
      (TopologicalVisitKahn.step V.recording h o
          (TopologicalVisitKahn.inDegreeOutside h S) t = none →
        KahnComplete h S (h.edge source).target t.visitor.calls) := by
  have hstart : TopologicalVisitKahn.KahnInv h S o source
      (TopologicalVisitKahn.start V.recording source ⟨visitor, []⟩ .empty) :=
    .start hc visitor
  refine ⟨terminates_of_measure _ (fun s t hs hstep =>
    hs.step hc hV hsource hstep) hstart, fun t ht => ?_⟩
  have hinv : TopologicalVisitKahn.KahnInv h S o source t :=
    ht.invariant (fun s t hs hstep => (hs.step hc hV hsource hstep).1) hstart
  refine ⟨⟨?_, fun l₁ v l₂ hl hv e he => ?_⟩, fun hend => ⟨fun v => ?_, ?_⟩⟩
  · exact (List.nodup_append.mp hinv.inv.nodup).1
  · obtain ⟨u, hu, hout⟩ := hinv.inv.order l₁ v l₂ hl hv e he
    rw [Heap.outgoing, SetOrder.mem_enum] at hout
    rw [hc.source_eq_of_mem hout]
    exact hu
  · obtain ⟨_, hset⟩ := TopologicalVisitKahn.step_eq_none hinv.stop hend
    exact hinv.inv.count_tree hset v
  · intro hacyclic hbehind v hv
    obtain ⟨hvisiting, hset⟩ := TopologicalVisitKahn.step_eq_none hinv.stop hend
    rw [← Heap.edgeStep_eq (o := o)] at hacyclic hbehind hv
    refine hinv.inv.mem_discovered hc.inEdges ?_ hset
      (Finset.mem_range.mpr (hc.target_lt source))
      (TopologicalVisitKahn.target_mem_universe hc) hacyclic
      (fun u w huw => (hbehind u w huw).1) hv
    simp [TopologicalVisitKahn.kahnState, hvisiting]

/-- A visitor that does nothing but pass over edges. -/
def KahnVisitor.passingOver (S : Set EdgePtr) [DecidablePred (· ∈ S)] :
    KahnVisitor Empty Unit where
  startVertex _ := .ok .ok
  discoverVertex _ _ := .ok .ok
  examineEdge e := .ok (if e ∈ S then .terminateBranch else .ok)
  treeEdge _ := .ok .ok
  vertexVisitComplete _ _ _ := .ok ()

theorem KahnVisitor.passingOver_skips (S : Set EdgePtr)
    [DecidablePred (· ∈ S)] : (KahnVisitor.passingOver S).Skips S where
  discoverVertex u e s r s' hcall := by
    obtain ⟨rfl, _⟩ := Prod.mk.inj (Except.ok.inj hcall)
    rfl
  examineEdge e s r s' hcall := by
    obtain ⟨rfl, _⟩ := Prod.mk.inj (Except.ok.inj hcall)
    split_ifs with he
    · exact iff_of_true rfl he
    · exact iff_of_false (by decide) he

/-- The edges of a heap that are `Impossible`. -/
def Heap.impossibleEdges (h : Heap) : Set EdgePtr :=
  {e | (h.edge e).edgeType = .impossible}

instance (h : Heap) : DecidablePred (· ∈ h.impossibleEdges) := fun e =>
  inferInstanceAs (Decidable ((h.edge e).edgeType = .impossible))

/-- The graph of `branchesBack`, from its ENTRY.  It has two loops. -/
theorem topologicalVisitKahn_order_branchesBack :
    ∃ h : Heap, (Heap.singleFunction branchesBack).2.connectedFlow 1
        (Heap.singleFunction branchesBack).1 = .ok h ∧
      (h.edge (h.function 1).entryVertexSelfEdge).target = 7 ∧
      Terminates (TopologicalVisitKahn.step
          (KahnVisitor.passingOver h.impossibleEdges).recording h .ascending
          (TopologicalVisitKahn.inDegreeOutside h h.impossibleEdges))
        (TopologicalVisitKahn.start
          (KahnVisitor.passingOver h.impossibleEdges).recording
          (h.function 1).entryVertexSelfEdge ⟨(), []⟩ .empty) := by
  have hcheck : ((Heap.singleFunction branchesBack).2.connectedFlow 1
      (Heap.singleFunction branchesBack).1).Holds fun h =>
      (h.edge (h.function 1).entryVertexSelfEdge).target = 7 ∧
        h.inEdgesOutside h.impossibleEdges 7 = ∅ := by
    decide +kernel
  obtain ⟨h, hrun, htarget, hroot⟩ := hcheck
  obtain ⟨h', hrun', hc, _⟩ := branchesBack_flow
  obtain rfl := Except.ok.inj (hrun.symm.trans hrun')
  refine ⟨h, hrun, htarget, ?_⟩
  exact (topologicalVisitKahn_order hc
    (KahnVisitor.passingOver_skips h.impossibleEdges) .ascending
    (htarget ▸ hroot) ()).1

end CoFlo.Ports
