import CoFlo.Ports.AlikePrints
import CoFlo.Ports.PrintTokens
import CoFlo.Ports.UnmarkedReach
import CoFlo.Verified.FreshPaths
import Mathlib.Data.Nat.Nth

/-!
# Does printing a control flow graph end?

A `Return` edge is followed although the fallthrough edge of its call is marked
as a back edge, so a call with such an edge may be visited, and its frame pushed,
again and again.  Nothing else keeps a visit from ending: when only finitely many
frames are pushed, all vertices that are visited are fed by ENTRYs along unmarked
edges, and the numbers of visits have a bound (`printingEnds_iff`).
-/

namespace CoFlo.Ports

open CoFlo.Verified CoFlo.Verified.FiringBound CoFlo.Verified.StepMachine
open FunctionCFGVisitor Relation

namespace PrintControlFlowGraph

/-! ## What is visited is fed by an ENTRY -/

/-- The vertex is reached from the ENTRY of its function along unmarked edges. -/
def Live (functions : List FunctionPtr) (home : VertexPtr → FunctionPtr)
    (h : Heap) (v : VertexPtr) : Prop :=
  home v ∈ functions ∧ ReflTransGen (h.InnerStep (home v))
    (h.function (home v)).entryVertexDesc v

/-- Marked edges lead to what is reached without them. -/
def NothingCutOff (functions : List FunctionPtr) (h : Heap) : Prop :=
  ∀ g ∈ functions, ∀ e ∈ (h.graph g).edges,
    (h.edge e).edgeType.isIntraprocedural = true →
      ReflTransGen (h.InnerStep g) (h.function g).entryVertexDesc (h.edge e).source →
        ReflTransGen (h.InnerStep g) (h.function g).entryVertexDesc (h.edge e).target

/-- All that is on the set, is being visited or has a frame is live. -/
structure AllLive (functions : List FunctionPtr) (home : VertexPtr → FunctionPtr)
    (h : Heap) (s : State) : Prop where
  remaining : ∀ e ∈ s.noRemainingInEdgesSet, Live functions home h (h.edge e).target
  visiting : ∀ x, s.visiting = some x → Live functions home h x.u
  calls : ∀ c ∈ s.openCalls, Live functions home h c

section

variable {functions : List FunctionPtr} {home : VertexPtr → FunctionPtr} {h : Heap}
  (hp : ProgramFlow functions home h)

include hp

theorem live_entry {g : FunctionPtr} (hg : g ∈ functions) :
    Live functions home h (h.function g).entryVertexDesc := by
  rw [Live, hp.home_entry hg]
  exact ⟨hg, .refl⟩

/-- The target of an edge that is not skipped is live. -/
theorem AllLive.target (hcut : NothingCutOff functions h) {s : State}
    (hs : AllLive functions home h s) (hinv : PrintInv h s) {e : EdgePtr}
    (he : (h.edge e).source ≠ null) (hsource : Live functions home h (h.edge e).source)
    (hskip : (skipEdge h e s.visitor).1 = false) :
    Live functions home h (h.edge e).target := by
  obtain ⟨hhome, hreach⟩ := hsource
  have hback := isBackEdge_of_skipEdge hskip
  rcases hp.edgeType e he with hintra | hcall | hreturn
  · have hsame := hp.home_eq_home e he hintra
    have hmem := (hp.mem_edges _ hhome e).mpr ⟨he, rfl⟩
    rw [Live, hsame]
    exact ⟨hhome, hreach.tail ⟨e, hmem, rfl, rfl, hback, hintra⟩⟩
  · cases htype : (h.edge e).edgeType with
    | functionCall c g =>
        obtain ⟨hc, -, params, hst, htarget⟩ := hp.callEdge e c g he htype
        have hg := (hp.resolved c g params (hc ▸ hhome) hst).1
        rw [htarget]
        exact live_entry hp hg
    | _ => simp [htype, EdgeType.isFunctionCall] at hcall
  · cases htype : (h.edge e).edgeType with
    | returnEdge c =>
        obtain ⟨hchome, -, g, params, d, -, -, hd, htarget⟩ := hp.returnEdge e c he htype
        obtain ⟨calls, bottom, hframes, -⟩ := hinv.frames
        obtain ⟨x, hx, hxc, hc0⟩ := frames_of_skipEdge htype hskip (by
          change s.frames ≠ []
          rw [hframes]
          simp)
        -- The call is on the stack, and the edge leads where it falls through to.
        have hopen : c ∈ s.openCalls :=
          List.mem_filter.mpr ⟨List.mem_map.mpr ⟨x, hx, hxc⟩, decide_eq_true hc0⟩
        obtain ⟨hdsource, hfalls⟩ := (hd d).mpr rfl
        have hdnull : (h.edge d).source ≠ null := hdsource ▸ hc0
        have hintra : (h.edge d).edgeType.isIntraprocedural = true := by
          cases hty : (h.edge d).edgeType <;>
            simp_all [EdgeType.isFallthrough, EdgeType.isIntraprocedural]
        have hmem := (hp.mem_edges _ hchome d).mpr ⟨hdnull, by rw [hdsource]⟩
        have hsame := hp.home_eq_home d hdnull hintra
        rw [htarget, Live, hsame, hdsource]
        refine ⟨hchome, hcut _ hchome d hmem hintra ?_⟩
        rw [hdsource]
        exact (hs.calls c hopen).2
    | _ => simp [htype, EdgeType.isReturn] at hreturn

end

namespace Endless

variable {functions : List FunctionPtr} {home : VertexPtr → FunctionPtr} {h : Heap}
  {o : IterationOrder} {f : FunctionPtr} {cfgVerbose cfgVertexIds : Bool}
  {s : Nat → State} (hs : Endless h o f cfgVerbose cfgVertexIds s)
  (hp : ProgramFlow functions home h) (hf : f ∈ functions)
  (hcut : NothingCutOff functions h)

include hs hp hf hcut

theorem allLive (n : Nat) : AllLive functions home h (s n) := by
  induction n with
  | zero =>
      obtain ⟨cfg, hfirst⟩ := hs.exists_first
      rw [hfirst]
      exact
        { remaining := fun e he => by
            rw [List.mem_singleton.mp he, hp.entrySelf f hf]
            exact live_entry hp hf
          visiting := fun x hx => absurd hx (by simp)
          calls := fun c hc => absurd hc (by
            simp [State.openCalls, State.frames, CallStackFrame.new]) }
  | succ n ih =>
      have hcalls : ∀ c ∈ (s (n + 1)).openCalls,
          Live functions home h c := by
        intro c hc
        have heq := (hs.inv n).pushedBy_append hp.consistent (hs.next n)
          (hs.stop (n + 1))
        have hmem : c ∈ pushedBy h (s n) (s (n + 1)) ++ (s n).openCalls := by
          rw [heq]
          exact List.mem_append_right _ hc
        rw [(hs.inv n).pushedBy_eq (hs.next n), List.mem_append,
          Option.mem_toList] at hmem
        rcases hmem with henter | hold
        · obtain ⟨hdiscovering, -⟩ := State.entering_eq_some.mp henter
          obtain ⟨-, e, rest, hset, rfl⟩ := discovering_eq_some hdiscovering
          exact ih.remaining e (hset ▸ List.mem_cons_self)
        · exact ih.calls c hold
      cases hs.printStep n with
      | discover e rest hvisiting hset hrest hmap hnext _ =>
          refine ⟨fun d hd => ?_, fun x hx => ?_, hcalls⟩
          · rw [hrest] at hd
            exact ih.remaining d (hset ▸ List.mem_cons_of_mem e hd)
          · rw [hnext] at hx
            rw [← Option.some.inj hx]
            exact ih.remaining e (hset ▸ List.mem_cons_self)
      | examine x y e hvisiting hei hnext hu _ hexamined =>
          have hxlive := ih.visiting x hvisiting
          have hnew : ∀ z, (s (n + 1)).visiting = some z →
              Live functions home h z.u := by
            intro z hz
            rw [hnext] at hz
            rw [← Option.some.inj hz, hu]
            exact hxlive
          cases hexamined with
          | skip hskip hset hmap => exact ⟨hset ▸ ih.remaining, hnew, hcalls⟩
          | count hskip hid hset hmap => exact ⟨hset ▸ ih.remaining, hnew, hcalls⟩
          | push hskip hid hset hmap =>
              refine ⟨fun d hd => ?_, hnew, hcalls⟩
              rw [hset] at hd
              rcases List.mem_cons.mp hd with rfl | hd
              · have hout := (hs.pending_out n).2 x hvisiting d
                  (hei ▸ List.mem_cons_self)
                have hsource := (hp.consistent.mem_outEdges x.u d).mp hout
                exact ih.target hp hcut (hs.inv n) (hsource.1 ▸ hsource.2)
                  (hsource.1 ▸ hxlive) hskip
              · exact ih.remaining d hd
      | complete x hvisiting hei hnext hset hmap _ =>
          exact ⟨hset ▸ ih.remaining, fun z hz => absurd (hnext ▸ hz) (by simp),
            hcalls⟩

theorem live_of_discoveries {v : VertexPtr} {n : Nat}
    (hv : discoveries h s v n ≠ 0) : Live functions home h v := by
  obtain ⟨i, -, hi⟩ := Nat.count_ne_iff_exists.mp hv
  obtain ⟨-, e, rest, hset, rfl⟩ := discovering_eq_some hi
  exact (hs.allLive hp hf hcut i).remaining e (hset ▸ List.mem_cons_self)

end Endless

/-! ## The numbers of visits -/

/-- The number of in-edges in the heap. -/
def numInEdges (h : Heap) : Nat :=
  ∑ v ∈ Finset.range h.nextVertex, (h.vertex v).inEdges.card

namespace Endless

variable {functions : List FunctionPtr} {home : VertexPtr → FunctionPtr} {h : Heap}
  {o : IterationOrder} {f : FunctionPtr} {cfgVerbose cfgVertexIds : Bool}
  {s : Nat → State} (hs : Endless h o f cfgVerbose cfgVertexIds s)
  (hp : ProgramFlow functions home h)

include hs hp

/-- What comes in from other functions is bounded by the frames. -/
theorem sum_crossings_le {v : VertexPtr} (hv : home v ∈ functions)
    {P n : Nat} (hP : pushes h s n ≤ P) {E : Finset EdgePtr}
    (hE : E ⊆ (h.vertex v).inEdges)
    (htype : ∀ e ∈ E, (h.edge e).edgeType.isFunctionCall = true ∨
      (h.edge e).edgeType.isReturn = true) :
    ∑ e ∈ E, crossings h s e n ≤ numInEdges h * (P + 1) := by
  have hle : ∀ e ∈ E, crossings h s e n ≤ P + 1 := by
    intro e he
    have hsource := hp.consistent.source_ne_null_of_mem (hE he)
    have hpushes := hs.crossings_le_pushes hp hsource (htype e he) n
    omega
  have hcard : E.card ≤ numInEdges h := by
    have hmem := Finset.mem_range.mpr (hp.allocated v hv).2
    calc E.card ≤ (h.vertex v).inEdges.card := Finset.card_le_card hE
      _ ≤ numInEdges h :=
        Finset.single_le_sum (f := fun v => (h.vertex v).inEdges.card)
          (fun _ _ => Nat.zero_le _) hmem
  calc ∑ e ∈ E, crossings h s e n ≤ E.card * (P + 1) :=
        Finset.sum_le_card_nsmul E _ _ hle
    _ ≤ numInEdges h * (P + 1) := Nat.mul_le_mul_right _ hcard

/-- An ENTRY is visited at most as often as it is called, and once more. -/
theorem discoveries_entry_le {g : FunctionPtr} (hg : g ∈ functions) {P n : Nat}
    (hP : pushes h s n ≤ P) :
    discoveries h s (h.function g).entryVertexDesc n ≤
      numInEdges h * (P + 1) + 1 := by
  have hhome : home (h.function g).entryVertexDesc ∈ functions := by
    rw [hp.home_entry hg]
    exact hg
  have hcounter := hs.counter hp.consistent (h.function g).entryVertexDesc n
  have hcalls := hp.filteredInEdges_entry hg
  rw [hp.filteredInDegree_eq hhome, Heap.countedInEdges_of_call hcalls] at hcounter
  have htokens : tokens h s (h.function g).entryVertexDesc n ≤
      numInEdges h * (P + 1) := by
    refine hs.sum_crossings_le hp hhome hP (Finset.filter_subset _ _) fun e he => ?_
    obtain ⟨hmem, hback⟩ := Finset.mem_filter.mp he
    by_cases hreturn : (h.edge e).edgeType.isReturn = true
    · exact .inr hreturn
    · rw [Bool.not_eq_true] at hreturn
      exact .inl (hcalls e (Heap.mem_filteredInEdges.mpr ⟨hmem, hback, hreturn⟩))
  have hfired : fired h s (h.edge (h.function f).entryVertexSelfEdge).target
      (h.function g).entryVertexDesc n ≤
        tokens h s (h.function g).entryVertexDesc n := by
    split_ifs at hcounter with hempty
    · have hzero := hcounter.not_fired (Int.le_refl 0)
      omega
    · have hle := hcounter.mul_fired_le
      omega
  unfold fired at hfired
  split_ifs at hfired <;> omega

/-- Any other vertex is fed by its in-edges, apart from what comes in from other
functions. -/
theorem card_mul_discoveries_le (hf : f ∈ functions) {v : VertexPtr}
    (hv : home v ∈ functions) (hentry : v ≠ (h.function (home v)).entryVertexDesc)
    {P n : Nat} (hP : pushes h s n ≤ P) :
    (h.filteredInEdges v).card * discoveries h s v n ≤
      ∑ e ∈ h.filteredInEdges v, discoveries h s (h.edge e).source n +
        numInEdges h * (P + 1) := by
  have hfirst : v ≠ (h.edge (h.function f).entryVertexSelfEdge).target := by
    rw [hp.entrySelf f hf]
    rintro rfl
    rw [hp.home_entry hf] at hentry
    exact hentry rfl
  have hcounter := hs.counter hp.consistent v n
  rw [hp.filteredInDegree_eq hv, Heap.countedInEdges_of_notCall fun e he =>
    hp.inEdges_notCall hentry e (Heap.mem_filteredInEdges.mp he).1] at hcounter
  have hpaid := hcounter.mul_fired_le
  have hfired : (discoveries h s v n : Int) ≤
      fired h s (h.edge (h.function f).entryVertexSelfEdge).target v n := by
    unfold fired
    rw [if_neg hfirst]
    omega
  have htokens : (h.filteredInEdges v).card * discoveries h s v n ≤
      tokens h s v n := by
    have hmul := Int.mul_le_mul_of_nonneg_left hfired
      (Int.natCast_nonneg (h.filteredInEdges v).card)
    have hle := Int.le_trans hmul hpaid
    exact_mod_cast hle
  -- The edges that count, and the `Return` edges.
  have hsplit : tokens h s v n =
      ∑ e ∈ h.filteredInEdges v, crossings h s e n +
        ∑ e ∈ (h.unmarkedInEdges v).filter
          fun e => ¬ (h.edge e).edgeType.isReturn = false, crossings h s e n := by
    have hfilter : h.filteredInEdges v = (h.unmarkedInEdges v).filter
        fun e => (h.edge e).edgeType.isReturn = false :=
      (Finset.filter_filter _ _ _).symm
    rw [hfilter]
    exact (Finset.sum_filter_add_sum_filter_not _ _ _).symm
  have hreturns := hs.sum_crossings_le hp hv hP (E := (h.unmarkedInEdges v).filter
      fun e => ¬ (h.edge e).edgeType.isReturn = false)
    ((Finset.filter_subset _ _).trans (Finset.filter_subset _ _)) fun e he =>
      .inr (Bool.not_eq_false _ ▸ (Finset.mem_filter.mp he).2)
  have hcounted : ∑ e ∈ h.filteredInEdges v, crossings h s e n ≤
      ∑ e ∈ h.filteredInEdges v, discoveries h s (h.edge e).source n :=
    Finset.sum_le_sum fun e _ => hs.crossings_le hp.consistent n e
  omega

/-- The numbers of visits are those of a run in which ENTRYs are visited
so many times at most. -/
theorem fed (hf : f ∈ functions) (hcut : NothingCutOff functions h) {P n : Nat}
    (hP : pushes h s n ≤ P) :
    Fed h.filteredInEdges (fun e => (h.edge e).source)
      {v | ∃ g ∈ functions, v = (h.function g).entryVertexDesc}
      (numInEdges h * (P + 1) + 1) fun v => discoveries h s v n where
  le_of_mem := by
    rintro v ⟨g, hg, rfl⟩
    exact hs.discoveries_entry_le hp hg hP
  le_sum v hv := by
    by_cases hzero : discoveries h s v n = 0
    · rw [hzero, Nat.mul_zero]
      exact Nat.zero_le _
    · obtain ⟨hhome, -⟩ := hs.live_of_discoveries hp hf hcut hzero
      have hle := hs.card_mul_discoveries_le hp hf hhome
        (fun heq => hv ⟨_, hhome, heq⟩) hP
      omega

/-- A run that does not end pushes more and more frames. -/
theorem exists_lt_pushes (hf : f ∈ functions) (hcut : NothingCutOff functions h)
    (P : Nat) : ∃ n, P < pushes h s n := by
  classical
  by_contra hbounded
  push Not at hbounded
  obtain ⟨B, hB⟩ := exists_bound h.filteredInEdges (fun e => (h.edge e).source)
    {v | ∃ g ∈ functions, v = (h.function g).entryVertexDesc}
    (numInEdges h * (P + 1) + 1)
    ((Finset.range h.nextVertex).filter (Live functions home h)) fun v hv => by
      obtain ⟨-, hhome, hreach⟩ := Finset.mem_filter.mp hv
      refine ⟨_, ⟨home v, hhome, rfl⟩, ReflTransGen.mono ?_ _ _ hreach⟩
      rintro u w ⟨e, he, hsource, htarget, hback, htype⟩
      have hreturn : (h.edge e).edgeType.isReturn = false := by
        cases hty : (h.edge e).edgeType <;>
          simp_all [EdgeType.isIntraprocedural, EdgeType.isReturn]
      have hin : e ∈ (h.vertex w).inEdges :=
        (hp.consistent.mem_inEdges w e).mpr ⟨htarget, htarget ▸
          hp.target_ne_null (hp.consistent.edges_attached _ e he)⟩
      exact ⟨e, Heap.mem_filteredInEdges.mpr ⟨hin, hback, hreturn⟩, hsource⟩
  have hvisits : ∀ n v, discoveries h s v n ≤ B := fun n v =>
    hB _ (hs.fed hp hf hcut (hbounded n)) (fun w hw => by
      by_contra hzero
      have hlive := hs.live_of_discoveries hp hf hcut hzero
      exact hw (Finset.mem_filter.mpr
        ⟨Finset.mem_range.mpr (hp.allocated w hlive.1).2, hlive⟩)) v
  have hsteps : ∀ n, n ≤ ∑ v ∈ Finset.range h.nextVertex,
      B * ((h.vertex v).outEdges.card + 2) := by
    intro n
    have heq := hs.steps_eq hp.consistent n
    have hle : ∑ v ∈ Finset.range h.nextVertex,
          discoveries h s v n * ((h.vertex v).outEdges.card + 2) ≤
        ∑ v ∈ Finset.range h.nextVertex, B * ((h.vertex v).outEdges.card + 2) :=
      Finset.sum_le_sum fun v _ => Nat.mul_le_mul_right _ (hvisits n v)
    omega
  exact Nat.not_succ_le_self _ (hsteps _)

end Endless

/-! ## Calls that are entered again -/

section

variable (h : Heap) (o : IterationOrder) (f : FunctionPtr)
  (cfgVerbose cfgVertexIds : Bool)

/-- The state after `n` steps. -/
abbrev stateAfter (n : Nat) : State :=
  trajectory (step h o f cfgVerbose cfgVertexIds)
    (start h o f cfgVerbose cfgVertexIds) n

/-- The steps that push the frame of a call while the same calls are on the stack
as when a frame of the call was pushed before. -/
def reentries : Set Nat :=
  {n | ∃ c, (stateAfter h o f cfgVerbose cfgVertexIds n).entering h = some c ∧
    ∃ m < n, (stateAfter h o f cfgVerbose cfgVertexIds m).entering h = some c ∧
      (stateAfter h o f cfgVerbose cfgVertexIds m).openCalls =
        (stateAfter h o f cfgVerbose cfgVertexIds n).openCalls}

/-- The visit comes to its end, and has discovered finitely many vertices. -/
structure PrintingEnds : Prop where
  terminates : Terminates (step h o f cfgVerbose cfgVertexIds)
    (start h o f cfgVerbose cfgVertexIds)
  discovers : {n | (stateAfter h o f cfgVerbose cfgVertexIds n).discovering h ≠
    none}.Finite

variable {h o f cfgVerbose cfgVertexIds}

theorem map_calledFunction {calls : List CallStackFrame}
    (hcalls : ∀ x ∈ calls, x.functionCallWhichPushedThisFrame ≠ null ∧
      ∃ g, (h.vertex x.functionCallWhichPushedThisFrame).statement.calledFunction =
        some g) :
    calls.map (fun x =>
        (h.vertex x.functionCallWhichPushedThisFrame).statement.calledFunction) =
      (calls.filterMap (frameTarget h)).map some := by
  induction calls with
  | nil => rfl
  | cons x calls ih =>
      obtain ⟨hx, g, hg⟩ := hcalls x List.mem_cons_self
      have htarget : frameTarget h x = some g := by
        rw [frameTarget, if_neg hx, hg]
      rw [List.filterMap_cons_some htarget, List.map_cons, List.map_cons, hg,
        ih fun y hy => hcalls y (List.mem_cons_of_mem x hy)]

/-- No call is on the stack twice. -/
theorem PrintInv.nodup_openCalls {s : State} (hs : PrintInv h s) :
    s.openCalls.Nodup := by
  obtain ⟨calls, bottom, hframes, hbottom, hcalls⟩ := hs.frames
  obtain ⟨calls', bottom', hframes', -, hopen⟩ := hs.openCalls_eq
  obtain rfl := List.append_inj_left' (hframes.symm.trans hframes') rfl
  have hcallees : s.callees h = calls.filterMap (frameTarget h) := by
    have hnone : frameTarget h bottom = none := if_pos hbottom
    rw [State.callees, hframes, List.filterMap_append,
      List.filterMap_cons_none hnone, List.filterMap_nil, List.append_nil]
  have hnodup := (List.nodup_map_iff (Option.some_injective _)).mpr hs.nodup
  rw [hcallees, ← map_calledFunction hcalls, ← Function.comp_def
    (fun c => (h.vertex c).statement.calledFunction), ← List.map_map] at hnodup
  rw [hopen]
  exact hnodup.of_map

theorem discovering_of_step_eq_none {s : State}
    (hstep : step h o f cfgVerbose cfgVertexIds s = none) :
    s.discovering h = none := by
  by_contra hne
  obtain ⟨u, hu⟩ := Option.ne_none_iff_exists'.mp hne
  obtain ⟨hvisiting, e, rest, hset, -⟩ := discovering_eq_some hu
  have hstop : s.stop = none := by
    by_contra hstop
    rw [State.discovering, if_neg fun hcond => hstop hcond.1] at hu
    exact absurd hu (by simp)
  have hnext : step h o f cfgVerbose cfgVertexIds s = some _ :=
    TopologicalVisitKahn.step_of_discover _ _ _ _ hstop hvisiting hset
  rw [hstep] at hnext
  exact absurd hnext (by simp)

/-- A visit that has come to its end has discovered finitely many vertices. -/
theorem finite_discovering (hend : Terminates (step h o f cfgVerbose cfgVertexIds)
      (start h o f cfgVerbose cfgVertexIds)) :
    {n | (stateAfter h o f cfgVerbose cfgVertexIds n).discovering h ≠
      none}.Finite := by
  obtain ⟨t, hreach, ht⟩ := hend
  obtain ⟨m, rfl⟩ := hreach.exists_trajectory
  refine (Set.finite_lt_nat m).subset fun n hn => ?_
  by_contra hle
  have hstays : stateAfter h o f cfgVerbose cfgVertexIds n =
      stateAfter h o f cfgVerbose cfgVertexIds m :=
    trajectory_of_step_eq_none (Nat.not_lt.mp hle) ht
  refine hn ?_
  rw [hstays]
  exact discovering_of_step_eq_none ht

theorem entering_ne_none_of_reentry {n : Nat}
    (hn : n ∈ reentries h o f cfgVerbose cfgVertexIds) :
    (stateAfter h o f cfgVerbose cfgVertexIds n).discovering h ≠ none := by
  obtain ⟨c, hc, -⟩ := hn
  rw [(State.entering_eq_some.mp hc).1]
  exact Option.some_ne_none c

end

/-- A visit that does not end is an endless run. -/
theorem endless_of_not_terminates {p : Program} (hp : LinkedProgram p)
    {f : FunctionPtr} (hf : f ∈ p.functions) {o : IterationOrder}
    {cfgVerbose cfgVertexIds : Bool}
    (hnot : ¬ Terminates (step p.heap o f cfgVerbose cfgVertexIds)
      (start p.heap o f cfgVerbose cfgVertexIds)) :
    Endless p.heap o f cfgVerbose cfgVertexIds
      (stateAfter p.heap o f cfgVerbose cfgVertexIds) := by
  have hnext : ∀ n, step p.heap o f cfgVerbose cfgVertexIds
      (stateAfter p.heap o f cfgVerbose cfgVertexIds n) =
        some (stateAfter p.heap o f cfgVerbose cfgVertexIds (n + 1)) := by
    intro n
    cases hstep : step p.heap o f cfgVerbose cfgVertexIds
        (stateAfter p.heap o f cfgVerbose cfgVertexIds n) with
    | none => exact absurd ⟨_, reaches_trajectory _ n, hstep⟩ hnot
    | some t => exact congrArg some (trajectory_succ hstep).symm
  exact
    { first := rfl
      next := hnext
      inv := fun n => printInv_of_reaches hp hf (reaches_trajectory _ n)
        (TopologicalVisitKahn.step_moves _ _ _ _ (hnext n)).1 }

/-- When few calls are entered again, few are entered. -/
theorem finite_entering {p : Program} (hp : LinkedProgram p)
    {f : FunctionPtr} (hf : f ∈ p.functions) {o : IterationOrder}
    {cfgVerbose cfgVertexIds : Bool}
    (hs : Endless p.heap o f cfgVerbose cfgVertexIds
      (stateAfter p.heap o f cfgVerbose cfgVertexIds))
    (hfinite : (reentries p.heap o f cfgVerbose cfgVertexIds).Finite) :
    {n | (stateAfter p.heap o f cfgVerbose cfgVertexIds n).entering p.heap ≠
      none}.Finite := by
  obtain ⟨home, hflow, -⟩ := hp.flow
  have hcut : NothingCutOff p.functions p.heap :=
    fun g hg e he htype hreach => hp.reaches_target hg he htype hreach
  have hlt : ∀ n, ∀ c ∈ (stateAfter p.heap o f cfgVerbose cfgVertexIds n).openCalls,
      c < p.heap.nextVertex := fun n c hc =>
    (hflow.allocated c ((hs.allLive hflow hf hcut n).calls c hc).1).2
  -- The calls that are entered, with the calls on the stack.
  have hcontexts : ((some '' {c | c < p.heap.nextVertex}) ×ˢ
      {calls : List VertexPtr | calls.length ≤ p.heap.nextVertex ∧
        ∀ c ∈ calls, c < p.heap.nextVertex}).Finite :=
    ((Set.finite_lt_nat _).image _).prod (ContextSearch.finite_lists _ _)
  have hnew : ({n | (stateAfter p.heap o f cfgVerbose cfgVertexIds n).entering
      p.heap ≠ none} \ reentries p.heap o f cfgVerbose cfgVertexIds).Finite := by
    refine Set.Finite.of_injOn (f := fun n =>
      ((stateAfter p.heap o f cfgVerbose cfgVertexIds n).entering p.heap,
        (stateAfter p.heap o f cfgVerbose cfgVertexIds n).openCalls)) ?_ ?_ hcontexts
    · rintro n ⟨hentering, -⟩
      obtain ⟨c, hc⟩ := Option.ne_none_iff_exists'.mp hentering
      obtain ⟨-, e, rest, -, htarget⟩ :=
        discovering_eq_some (State.entering_eq_some.mp hc).1
      refine ⟨⟨c, ?_, hc.symm⟩, ?_, hlt n⟩
      · exact htarget ▸ hflow.consistent.target_lt e
      · have hsub := (hs.inv n).nodup_openCalls.subperm
          fun c hc => List.mem_range.mpr (hlt n c hc)
        exact hsub.length_le.trans_eq (List.length_range)
    · rintro m ⟨hm, hmnew⟩ n ⟨hn, hnnew⟩ heq
      obtain ⟨henter, hopen⟩ := Prod.mk.inj heq
      obtain ⟨c, hc⟩ := Option.ne_none_iff_exists'.mp hm
      rcases Nat.lt_trichotomy m n with hlt | heq | hgt
      · exact absurd ⟨c, henter ▸ hc, m, hlt, hc, hopen⟩ hnnew
      · exact heq
      · exact absurd ⟨c, hc, n, hgt, henter ▸ hc, hopen.symm⟩ hmnew
  exact (hnew.union hfinite).subset fun n hn => by
    by_cases hre : n ∈ reentries p.heap o f cfgVerbose cfgVertexIds
    · exact .inr hre
    · exact .inl ⟨hn, hre⟩

/-- Printing ends exactly when only finitely many steps enter a call that has been
entered before while the same calls were on the stack. -/
theorem printingEnds_iff {p : Program} (hp : LinkedProgram p) {f : FunctionPtr}
    (hf : f ∈ p.functions) (o : IterationOrder) (cfgVerbose cfgVertexIds : Bool) :
    PrintingEnds p.heap o f cfgVerbose cfgVertexIds ↔
      (reentries p.heap o f cfgVerbose cfgVertexIds).Finite := by
  constructor
  · intro hends
    exact hends.discovers.subset fun n hn => entering_ne_none_of_reentry hn
  · intro hfinite
    have hend : Terminates (step p.heap o f cfgVerbose cfgVertexIds)
        (start p.heap o f cfgVerbose cfgVertexIds) := by
      by_contra hnot
      have hs := endless_of_not_terminates hp hf hnot
      have hentering := finite_entering hp hf hs hfinite
      obtain ⟨home, hflow, -⟩ := hp.flow
      have hcut : NothingCutOff p.functions p.heap :=
        fun g hg e he htype hreach => hp.reaches_target hg he htype hreach
      obtain ⟨n, hn⟩ := hs.exists_lt_pushes hflow hf hcut hentering.toFinset.card
      have hle : pushes p.heap (stateAfter p.heap o f cfgVerbose cfgVertexIds) n ≤
          hentering.toFinset.card := Nat.count_le_card hentering n
      omega
    exact ⟨hend, finite_discovering hend⟩

/-- `while (c) g();` as it is compiled, with the test at the end, and a function `g`
that does nothing. -/
def whileCall : List FunctionInfo :=
  [⟨"f.c", "f", [(.gotoUnlinked "M", .unknown), (.label "L", .unknown),
      (.functionCallUnresolved "g" "", .unknown), (.label "M", .unknown),
      (.ifUnlinked "c" "L" "B", .unknown), (.label "B", .unknown)]⟩,
    ⟨"f.c", "g", []⟩]

/-- The `Return` edge of the call leads back to the test, so the loop is visited
again and again. -/
theorem whileCall_not_printingEnds :
    ∃ p, LinkedProgram p ∧ 1 ∈ p.functions ∧
      ¬ PrintingEnds p.heap .ascending 1 true true := by
  have hcheck : (Program.parse blankMemory .ascending whileCall).Holds fun p =>
      1 ∈ p.functions ∧
        (let s := run (step p.heap .ascending 1 true true) 11
            (start p.heap .ascending 1 true true);
          let t := run (step p.heap .ascending 1 true true) 23 s;
          (step p.heap .ascending 1 true true s).isSome = true ∧
            t.noRemainingInEdgesSet = s.noRemainingInEdgesSet ++ [11] ∧
            (∀ v < p.heap.nextVertex,
              t.inDegreeMap.lookup (filteredInDegree p.heap .ascending · false) v =
                s.inDegreeMap.lookup (filteredInDegree p.heap .ascending · false) v) ∧
            t.visiting = s.visiting ∧
            t.frames.map (·.functionCallWhichPushedThisFrame) =
              s.frames.map (·.functionCallWhichPushedThisFrame) ∧
            t.visitor.callStack.callSet = s.visitor.callStack.callSet ∧
            t.visitor.lastDiscoveredVertexIsRecursive =
              s.visitor.lastDiscoveredVertexIsRecursive ∧
            t.stop.isNone = true ∧ s.stop.isNone = true) := by
    decide +kernel
  obtain ⟨p, hrun, hf, hsome, hremaining, hdegree, hvisiting, hframes, hset, hflag,
    ht, hs⟩ := hcheck
  have hp := linkedProgram_of_parse (by decide) hrun
  obtain ⟨home, hflow, -⟩ := hp.flow
  refine ⟨p, hp, hf, fun hends => ?_⟩
  obtain ⟨s', hnext⟩ := Option.isSome_iff_exists.mp hsome
  have halike : AlikeStates p.heap .ascending
      (run (step p.heap .ascending 1 true true) 11 (start p.heap .ascending 1 true true))
      (run (step p.heap .ascending 1 true true) 23
        (run (step p.heap .ascending 1 true true) 11
          (start p.heap .ascending 1 true true))) :=
    { remaining := ⟨[11], hremaining⟩
      inDegree := hdegree
      visiting := hvisiting
      visitor := ⟨hframes, hset, hflag⟩
      stop := (Option.isNone_iff_eq_none.mp ht).trans
        (Option.isNone_iff_eq_none.mp hs).symm }
  rw [run_succ hnext 22] at halike
  exact halike.not_terminates hflow.consistent (reaches_run 11 _) hnext
    (reaches_run 22 s') hends.terminates

/-- The same loop over a call of a library function. -/
def whileLibraryCall : List FunctionInfo :=
  [⟨"f.c", "f", [(.gotoUnlinked "M", .unknown), (.label "L", .unknown),
    (.functionCallUnresolved "puts" "", .unknown), (.label "M", .unknown),
    (.ifUnlinked "c" "L" "B", .unknown), (.label "B", .unknown)]⟩]

/-- No frame is pushed for a call that is not resolved. -/
theorem printingEnds_iff_whileLibraryCall :
    ∃ p, Program.parse blankMemory .ascending whileLibraryCall = .ok p ∧
      reentries p.heap .ascending 1 true true = ∅ ∧
      PrintingEnds p.heap .ascending 1 true true := by
  have hcheck : (Program.parse blankMemory .ascending whileLibraryCall).Holds fun p =>
      1 ∈ p.functions ∧ ∀ v < p.heap.nextVertex,
        (p.heap.vertex v).statement.calledFunction = none := by
    decide +kernel
  obtain ⟨p, hrun, hf, hcalls⟩ := hcheck
  have hp := linkedProgram_of_parse (by decide) hrun
  obtain ⟨home, hflow, -⟩ := hp.flow
  have hnone : reentries p.heap .ascending 1 true true = ∅ := by
    ext n
    refine iff_of_false ?_ (Set.notMem_empty n)
    rintro ⟨c, hc, -⟩
    obtain ⟨hc, g, hg, -⟩ := State.entering_eq_some.mp hc
    obtain ⟨-, e, -, -, htarget⟩ := discovering_eq_some hc
    rw [hcalls c (htarget ▸ hflow.consistent.target_lt e)] at hg
    exact absurd hg (by simp)
  have hfinite : (reentries p.heap .ascending 1 true true).Finite := by
    rw [hnone]
    exact Set.finite_empty
  exact ⟨p, hrun, hnone, (printingEnds_iff hp hf .ascending true true).mpr hfinite⟩

end PrintControlFlowGraph

end CoFlo.Ports
