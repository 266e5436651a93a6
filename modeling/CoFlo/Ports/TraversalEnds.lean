import CoFlo.Ports.PathFrames
import CoFlo.Verified.FreshPaths

/-!
# When the traversal ends

Following a `FunctionCall` edge pushes a frame with an empty color map, so
nothing stops the search from entering a call again inside of itself: in
`SkipEdge` the test for recursion is commented out.  And a vertex that lost its
frame may be discovered again while it is on the path.  The traversal ends
exactly when this happens a finite number of times (`terminates_iff`).
-/

namespace CoFlo.Ports

open CoFlo.Verified CoFlo.Verified.StepMachine
open CoFlo.Verified.ContextSearch (Kind Aligned Grounded EachAbove Fresh Procedures
  discovers tip)

namespace ReachabilityVisitor

open RuleReachability (edgeType_of_kind_call edgeType_of_kind_ret edgeType_of_kind_plain
  callee procedures chain_of_threaded)

/-! ## Repeated visits -/

/-- The vertex a path from ENTRY of `source` has come to. -/
def lastVertex (h : Heap) (source : FunctionPtr) : List EdgePtr → VertexPtr
  | [] => (h.function source).entryVertexDesc
  | e :: _ => (h.edge e).target

/-- The vertex a path has come to, and the calls it has entered and not left. -/
def visited (h : Heap) (source : FunctionPtr) (path : List EdgePtr) :
    VertexPtr × List VertexPtr :=
  (lastVertex h source path, enteredCalls h path)

/-- The edge enters a call which the path has entered and not left. -/
def Reenters (h : Heap) (path : List EdgePtr) (e : EdgePtr) : Prop :=
  match (h.edge e).edgeType with
  | .functionCall functionCall _ => functionCall ∈ enteredCalls h path
  | _ => False

/-- The edge leads the path back to a vertex it has been to with the same calls
entered, or enters a call once more. -/
def Repeats (h : Heap) (source : FunctionPtr) (path : List EdgePtr) (e : EdgePtr) :
    Prop :=
  visited h source (e :: path) ∈ path.tails.map (visited h source) ∨ Reenters h path e

instance (h : Heap) (path : List EdgePtr) (e : EdgePtr) : Decidable (Reenters h path e) := by
  unfold Reenters
  split <;> infer_instance

instance (h : Heap) (source : FunctionPtr) (path : List EdgePtr) (e : EdgePtr) :
    Decidable (Repeats h source path e) :=
  inferInstanceAs (Decidable (_ ∨ _))

/-- The edge by which the next step discovers a vertex. -/
def discovered (h : Heap) (o : SetOrder) (s : State) : Option EdgePtr :=
  if s.stop.isSome then none else discovers (flow h o) (contextState s)

/-- The next step discovers a vertex by an edge that repeats a visit. -/
def StepRepeats (h : Heap) (o : SetOrder) (source : FunctionPtr) (s : State) : Prop :=
  ∃ e ∈ discovered h o s, Repeats h source s.path e

instance (h : Heap) (o : SetOrder) (source : FunctionPtr) (s : State) :
    Decidable (StepRepeats h o source s) :=
  inferInstanceAs (Decidable (∃ e ∈ discovered h o s, _))

/-! ## Finitely many visits -/

section visits

variable {functions : List FunctionPtr} {home : VertexPtr → FunctionPtr}
  {h : Heap} (hp : ProgramFlow functions home h) {source : FunctionPtr}

theorem length_enteredCalls_le (h : Heap) (path : List EdgePtr) :
    (enteredCalls h path).length ≤ path.length := by
  induction path with
  | nil => exact Nat.le_refl _
  | cons e path ih =>
      have htail := (List.tail_suffix (enteredCalls h path)).length_le
      unfold enteredCalls
      rw [List.length_cons]
      split
      · exact Nat.succ_le_succ ih
      · omega
      · omega

include hp in
theorem enteredCalls_lt {path : List EdgePtr}
    (hpath : ∀ e ∈ path, (h.edge e).source ≠ null) :
    ∀ c ∈ enteredCalls h path, c < h.nextVertex := by
  induction path with
  | nil => exact fun c hc => absurd hc List.not_mem_nil
  | cons e path ih =>
      have ih' := ih fun d hd => hpath d (List.mem_cons_of_mem e hd)
      unfold enteredCalls
      cases htype : (h.edge e).edgeType with
      | functionCall c g =>
          intro d hd
          rcases List.mem_cons.mp hd with rfl | hd
          · have hc := (hp.callEdge e d g (hpath e List.mem_cons_self) htype).1
            rw [← hc]
            exact hp.consistent.source_lt e
          · exact ih' d hd
      | returnEdge c => exact fun d hd => ih' d (List.mem_of_mem_tail hd)
      | _ => exact ih'

/-- Of the calls entered above some length of the path none is entered twice. -/
theorem exists_enteredCalls_append {bound : Nat} {path : List EdgePtr}
    (hpath : EachAbove (fun p e => ¬ Repeats h source p e) bound path) :
    ∃ new old, enteredCalls h path = new ++ old ∧ new.Nodup ∧ old.length ≤ bound := by
  induction path with
  | nil => exact ⟨[], [], rfl, List.nodup_nil, Nat.zero_le _⟩
  | cons e path ih =>
      by_cases hbound : bound ≤ path.length
      · obtain ⟨new, old, heq, hnew, hold⟩ :=
          ih (hpath.of_suffix (List.suffix_cons e path))
        have hnot : ¬ Reenters h path e := fun hin =>
          hpath e path List.suffix_rfl hbound (.inr hin)
        unfold Reenters at hnot
        unfold enteredCalls
        cases htype : (h.edge e).edgeType with
        | functionCall c g =>
            rw [htype, heq] at hnot
            refine ⟨c :: new, old, by rw [heq]; rfl, ?_, hold⟩
            exact List.nodup_cons.mpr
              ⟨fun hc => hnot (List.mem_append_left _ hc), hnew⟩
        | returnEdge c =>
            rw [heq]
            cases new with
            | nil =>
                have htail := (List.tail_suffix old).length_le
                exact ⟨[], old.tail, rfl, List.nodup_nil, by omega⟩
            | cons c' new => exact ⟨new, old, rfl, (List.nodup_cons.mp hnew).2, hold⟩
        | _ => exact ⟨new, old, heq, hnew, hold⟩
      · refine ⟨[], enteredCalls h (e :: path), rfl, List.nodup_nil, ?_⟩
        have hle := length_enteredCalls_le h (e :: path)
        rw [List.length_cons] at hle
        omega

/-- The visits of paths that repeat no visit above some length. -/
def visits (h : Heap) (bound : Nat) : Set (VertexPtr × List VertexPtr) :=
  {v | v < h.nextVertex} ×ˢ
    {calls | calls.length ≤ bound + h.nextVertex ∧ ∀ c ∈ calls, c < h.nextVertex}

theorem finite_visits (h : Heap) (bound : Nat) : (visits h bound).Finite :=
  (Set.finite_lt_nat h.nextVertex).prod (ContextSearch.finite_lists _ _)

include hp in
/-- What repeats no visit is fresh. -/
theorem fresh_of_not_repeats {bound : Nat} {path : List EdgePtr}
    (hattached : ∀ e ∈ path, (h.edge e).source ≠ null)
    (hpath : EachAbove (fun p e => ¬ Repeats h source p e) bound path) :
    EachAbove (Fresh (visited h source) (visits h bound)) bound path := by
  intro e p hsuffix hbound
  have hattached' : ∀ d ∈ e :: p, (h.edge d).source ≠ null :=
    fun d hd => hattached d (hsuffix.subset hd)
  have hlt := enteredCalls_lt hp hattached'
  refine ⟨⟨hp.consistent.target_lt e, ?_, hlt⟩, fun q hq hvisited => ?_⟩
  · obtain ⟨new, old, heq, hnew, hold⟩ :=
      exists_enteredCalls_append (hpath.of_suffix hsuffix)
    have hcard : new.length ≤ h.nextVertex := by
      have hsub : new.toFinset ⊆ Finset.range h.nextVertex := by
        intro c hc
        refine Finset.mem_range.mpr (hlt c ?_)
        rw [heq]
        exact List.mem_append_left _ (List.mem_toFinset.mp hc)
      have hle := Finset.card_le_card hsub
      rwa [List.toFinset_card_of_nodup hnew, Finset.card_range] at hle
    show (enteredCalls h (e :: p)).length ≤ _
    rw [heq, List.length_append]
    omega
  · refine hpath e p hsuffix hbound (.inl ?_)
    exact List.mem_map.mpr ⟨q, (List.mem_tails q p).mpr hq, hvisited⟩

end visits

/-! ## The run -/

section run

variable {functions : List FunctionPtr} {home : VertexPtr → FunctionPtr}
  {h : Heap} (hp : ProgramFlow functions home h) {o : SetOrder}
  {inspectVertex : VertexPtr → Bool} {source : FunctionPtr}
  (hsource : source ∈ functions)

theorem length_out_le (hc : h.Consistent) (o : SetOrder) (u : VertexPtr) :
    ((flow h o).out u).length ≤ h.nextEdge := by
  show (h.outEdgeList o u).length ≤ h.nextEdge
  unfold Heap.outEdgeList
  rw [o.length_enum, ← Finset.card_range h.nextEdge]
  refine Finset.card_le_card fun e he => Finset.mem_range.mpr ?_
  obtain ⟨hsource, hu⟩ := (hc.mem_outEdges u e).mp he
  exact (hc.allocated e (hsource ▸ hu)).2

theorem step_of_stop {s : State} (hs : s.stop ≠ none) :
    step h o inspectVertex s = none := by
  unfold step ControlFlowGraphTraversalDFS.step
  rw [if_pos (Option.isSome_iff_ne_none.mpr hs)]

/-- Nothing is discovered after the end. -/
theorem discovered_of_step_eq_none {s : State}
    (hs : step h o inspectVertex s = none) : discovered h o s = none := by
  unfold discovered
  split_ifs with hstop
  · rfl
  · unfold step ControlFlowGraphTraversalDFS.step at hs
    rw [if_neg hstop] at hs
    split at hs
    · rename_i hnil
      have hstack : (contextState s).stack = [] := congrArg (List.map contextItem) hnil
      simp only [discovers, hstack]
    · exact absurd hs (by simp)
    · exact absurd hs (by simp)

/-- A search that goes on from a state of the run in which it has not ended, and
whose path repeats no visit above some length. -/
structure Bounded (h : Heap) (o : SetOrder) (source : FunctionPtr) (bound : Nat)
    (s : State) (a : ContextSearch.State VertexPtr EdgePtr) : Prop where
  simulates : Simulates (h.function source).entryVertexSelfEdge s a
  aligned : Aligned (flow h o) (h.function source).entryVertexDesc a
  grounded : Grounded a.frames
  path : EachAbove (fun p e => ¬ Repeats h source p e) bound a.path

include hp hsource

/-- The path does not get long. -/
theorem Bounded.length_le {bound : Nat} {s : State}
    {a : ContextSearch.State VertexPtr EdgePtr} (ha : Bounded h o source bound s a) :
    a.path.length ≤ bound + (visits h bound).ncard := by
  refine (fresh_of_not_repeats hp ?_ ha.path).length_le (finite_visits h bound)
  intro e he
  rcases ha.aligned with ⟨-, hnil⟩ | hthread
  · rw [hnil] at he
    exact absurd he List.not_mem_nil
  · exact ((chain_of_threaded hp (by rw [hp.entrySelf source hsource] :
      (h.edge _).target = _) hthread).2.2 e he).1

/-- A step that repeats no visit leaves less to be done, or ends the search. -/
theorem Bounded.step {bound : Nat} {s t : State}
    {a : ContextSearch.State VertexPtr EdgePtr} (ha : Bounded h o source bound s a)
    (hrepeats : ¬ StepRepeats h o source s) (hstep : step h o inspectVertex s = some t) :
    ReachabilityVisitor.step h o inspectVertex t = none ∨
      ∃ b, Bounded h o source bound t b ∧
        ContextSearch.work h.nextEdge (bound + (visits h bound).ncard) b.stack <
          ContextSearch.work h.nextEdge (bound + (visits h bound).ncard) a.stack := by
  obtain ⟨b, hb, hcase⟩ := step_simulates hp ha.simulates ha.aligned ha.grounded hstep
  rcases hcase with ⟨hsim, -⟩ | hfound
  · right
    have hcontext := ha.simulates.contextState ha.aligned
    have hpath : s.path = a.path := by rw [← hcontext]; rfl
    have habove : EachAbove (fun p e => ¬ Repeats h source p e) bound b.path := by
      rcases hb.path_eq with hsuffix | ⟨e, he, hcons⟩
      · exact ha.path.of_suffix hsuffix
      · rw [hcons]
        refine ha.path.cons fun hrepeat => hrepeats ⟨e, ?_, hpath ▸ hrepeat⟩
        unfold discovered
        rw [ha.simulates.stop, Option.isSome_none, if_neg Bool.false_ne_true, hcontext]
        exact he
    have hbounded : Bounded h o source bound t b :=
      ⟨hsim, ha.aligned.preserved hb,
        ContextSearch.grounded_preserved ha.grounded hb, habove⟩
    exact ⟨b, hbounded, ContextSearch.work_lt (length_out_le hp.consistent o) ha.aligned hb
      (hbounded.length_le hp hsource)⟩
  · exact .inl (step_of_stop (by simp [hfound.stop]))

end run

/-! ## Programs without loops and recursion -/

section ranked

variable {functions : List FunctionPtr} {home : VertexPtr → FunctionPtr}
  {h : Heap} (hp : ProgramFlow functions home h) {o : SetOrder}
  {inspectVertex : VertexPtr → Bool} {source : FunctionPtr}

/-- A call that is entered has been entered by an edge of the path. -/
theorem exists_of_mem_enteredCalls {path : List EdgePtr} {c : VertexPtr}
    (hc : c ∈ enteredCalls h path) :
    ∃ e q g, e :: q <:+ path ∧ (h.edge e).edgeType = .functionCall c g := by
  induction path with
  | nil => exact absurd hc List.not_mem_nil
  | cons e path ih =>
      have hrest : c ∈ enteredCalls h path →
          ∃ d q g, d :: q <:+ e :: path ∧ (h.edge d).edgeType = .functionCall c g := by
        intro hmem
        obtain ⟨d, q, g, hsuffix, htype⟩ := ih hmem
        exact ⟨d, q, g, hsuffix.trans (List.suffix_cons e path), htype⟩
      unfold enteredCalls at hc
      cases htype : (h.edge e).edgeType with
      | functionCall functionCall g =>
          rw [htype] at hc
          rcases List.mem_cons.mp hc with rfl | hc
          · exact ⟨e, path, g, List.suffix_rfl, htype⟩
          · exact hrest hc
      | returnEdge functionCall =>
          rw [htype] at hc
          exact hrest (List.mem_of_mem_tail hc)
      | _ =>
          rw [htype] at hc
          exact hrest hc

theorem lastVertex_eq_tip (h : Heap) (o : SetOrder) (source : FunctionPtr)
    (path : List EdgePtr) :
    lastVertex h source path = tip (flow h o) (h.function source).entryVertexDesc path := by
  cases path with
  | nil => rfl
  | cons e path => rfl

include hp

theorem rank_lt_of_mem_out {rank : VertexPtr → Nat}
    (hrank : ∀ e < h.nextEdge, (h.edge e).source ≠ null → kind h e ≠ .closed →
      rank (h.edge e).source < rank (h.edge e).target) (u : VertexPtr) :
    ∀ e ∈ (flow h o).out u, (flow h o).kind e ≠ .closed →
      rank u < rank ((flow h o).target e) := by
  intro e he hkind
  obtain ⟨rfl, hu⟩ := (hp.consistent.mem_outEdges u e).mp ((o.mem_enum _).mp he)
  exact hrank e (hp.consistent.allocated e hu).2 hu hkind

/-- Where all edges that are followed go up in a rank, a path comes to new vertices only. -/
theorem not_repeats_of_rank {rank : VertexPtr → Nat}
    (hrank : ∀ e < h.nextEdge, (h.edge e).source ≠ null → kind h e ≠ .closed →
      rank (h.edge e).source < rank (h.edge e).target)
    {stack : List (VertexPtr × List EdgePtr)} {path : List EdgePtr}
    (hthread : ContextSearch.Threaded (flow h o) (h.function source).entryVertexDesc stack path)
    {e : EdgePtr}
    (he : e ∈ (flow h o).out (tip (flow h o) (h.function source).entryVertexDesc path))
    (hkind : (flow h o).kind e ≠ .closed) : ¬ Repeats h source path e := by
  have hup := rank_lt_of_mem_out hp hrank (o := o)
  have hlt := hup _ e he hkind
  rintro (hvisited | hreenters)
  · obtain ⟨q, hq, hsame⟩ := List.mem_map.mp hvisited
    have hvertex : lastVertex h source q = (h.edge e).target := congrArg Prod.fst hsame
    rw [lastVertex_eq_tip h o] at hvertex
    have hle := hthread.rank_le hup ((List.mem_tails q path).mp hq)
    rw [hvertex] at hle
    exact absurd hlt (Nat.not_lt.mpr hle)
  · unfold Reenters at hreenters
    cases htype : (h.edge e).edgeType with
    | functionCall c g =>
        rw [htype] at hreenters
        obtain ⟨d, q, g', hsuffix, hcall⟩ := exists_of_mem_enteredCalls hreenters
        -- Both edges leave the call, and the path has gone up in between.
        obtain ⟨hd, hkind'⟩ := hthread.mem_out hsuffix
        have hlt' := hup _ d hd hkind'
        have hle := hthread.rank_le hup hsuffix
        obtain ⟨hsource, hu⟩ := (hp.consistent.mem_outEdges _ e).mp ((o.mem_enum _).mp he)
        obtain ⟨hsource', hu'⟩ := (hp.consistent.mem_outEdges _ d).mp ((o.mem_enum _).mp hd)
        have hc := (hp.callEdge e c g (hsource ▸ hu) htype).1
        have hc' := (hp.callEdge d c g' (hsource' ▸ hu') hcall).1
        rw [← hsource', hc', ← hc, hsource] at hlt'
        exact absurd hlt' (Nat.not_lt.mpr hle)
    | _ =>
        rw [htype] at hreenters
        exact hreenters

/-- So no step of a run repeats a visit. -/
theorem not_stepRepeats_of_rank (hsource : source ∈ functions)
    (howner : (h.vertex (h.function source).entryVertexDesc).owningFunction = source)
    (rank : VertexPtr → Nat)
    (hrank : ∀ e < h.nextEdge, (h.edge e).source ≠ null → kind h e ≠ .closed →
      rank (h.edge e).source < rank (h.edge e).target) {s : State}
    (hs : Reaches (step h o inspectVertex) (start h o inspectVertex source) s) :
    ¬ StepRepeats h o source s := by
  rintro ⟨e, he, hrepeats⟩
  unfold discovered at he
  split_ifs at he with hstop
  · exact absurd he (by simp)
  cases searchState_of_reaches hp hsource howner hs with
  | found b _ _ hfound => exact absurd (by simp [hfound.stop]) hstop
  | searching a _ hsim haligned _ =>
      have hcontext := hsim.contextState haligned
      have hpath : s.path = a.path := by
        rw [← hcontext]
        rfl
      rw [hcontext] at he
      obtain ⟨u, rem, rest, hstack, hkind⟩ := ContextSearch.discovers_eq_some he
      have hthread : ContextSearch.Threaded (flow h o) (h.function source).entryVertexDesc
          ((u, e :: rem) :: rest) a.path := by
        rw [← hstack]
        exact haligned.resolve_left fun hnil => by simp [hstack] at hnil
      obtain ⟨htop, hsuffix⟩ := hthread.top
      rw [hpath] at hrepeats
      exact not_repeats_of_rank hp hrank hthread (htop ▸ hsuffix.subset List.mem_cons_self)
        hkind hrepeats

end ranked

/-- **The traversal ends if and only if it repeats a visit a finite number of
times.** -/
theorem terminates_iff {p : Program} (hp : LinkedProgram p) {source : FunctionPtr}
    (hsource : source ∈ p.functions) (o : SetOrder) (inspectVertex : VertexPtr → Bool) :
    Terminates (step p.heap o inspectVertex) (start p.heap o inspectVertex source) ↔
      ∃ m, ∀ n ≥ m, ¬ StepRepeats p.heap o source
        (trajectory (step p.heap o inspectVertex)
          (start p.heap o inspectVertex source) n) := by
  obtain ⟨home, hflow, -⟩ := hp.flow
  have howner := hp.owningFunction_entry hsource
  constructor
  · rintro ⟨t, ht, hend⟩
    obtain ⟨m, rfl⟩ := ht.exists_trajectory
    refine ⟨m, fun n hn => ?_⟩
    rw [trajectory_of_step_eq_none hn hend]
    rintro ⟨e, he, -⟩
    rw [discovered_of_step_eq_none hend] at he
    exact absurd he (by simp)
  · rintro ⟨m, hm⟩
    have hreach : Reaches (step p.heap o inspectVertex)
        (start p.heap o inspectVertex source) (trajectory (step p.heap o inspectVertex)
          (start p.heap o inspectVertex source) m) := reaches_trajectory _ m
    obtain ⟨t, ht, hend⟩ : Terminates (step p.heap o inspectVertex)
        (trajectory (step p.heap o inspectVertex)
          (start p.heap o inspectVertex source) m) := by
      cases searchState_of_reaches hflow hsource howner hreach with
      | found b _ _ hfound => exact ⟨_, .refl, step_of_stop (by simp [hfound.stop])⟩
      | searching a _ hsim haligned hgrounded =>
          -- What is on the path by then does not matter.
          have ha : Bounded p.heap o source a.path.length _ a :=
            ⟨hsim, haligned, hgrounded, ContextSearch.eachAbove_length _ a.path⟩
          refine terminates_of_simulation
            (R := fun s b => (∃ n ≥ m, trajectory (step p.heap o inspectVertex)
                (start p.heap o inspectVertex source) n = s) ∧
              Bounded p.heap o source a.path.length s b)
            (fun b => ContextSearch.work p.heap.nextEdge
              (a.path.length + (visits p.heap a.path.length).ncard) b.stack)
            (fun s b t hs hstep => ?_) ⟨⟨m, le_rfl, rfl⟩, ha⟩
          obtain ⟨⟨n, hn, rfl⟩, hb⟩ := hs
          rcases hb.step hflow hsource (hm n hn) hstep with hend | ⟨b', hb', hlt⟩
          · exact .inl hend
          · exact .inr ⟨b', ⟨⟨n + 1, Nat.le_succ_of_le hn, trajectory_succ hstep⟩, hb'⟩, hlt⟩
    exact ⟨t, hreach.trans ht, hend⟩

/-- All edges of `branchingCallee` go up: the traversal repeats no visit, and ends. -/
theorem terminates_iff_branchingCallee :
    ∃ p, LinkedProgram p ∧ 1 ∈ p.functions ∧
      (∀ n, ¬ StepRepeats p.heap .ascending 1
        (trajectory (step p.heap .ascending fun _ => false)
          (start p.heap .ascending (fun _ => false) 1) n)) ∧
      Terminates (step p.heap .ascending fun _ => false)
        (start p.heap .ascending (fun _ => false) 1) := by
  have hcheck : (Program.parse blankMemory .ascending branchingCallee).Holds fun p =>
      1 ∈ p.functions ∧ ∀ e < p.heap.nextEdge, (p.heap.edge e).source ≠ null →
        kind p.heap e ≠ .closed →
          [2, 10, 7, 9, 5, 6, 8, 3].idxOf (p.heap.edge e).source <
            [2, 10, 7, 9, 5, 6, 8, 3].idxOf (p.heap.edge e).target := by
    decide +kernel
  obtain ⟨p, hrun, hf, hrank⟩ := hcheck
  have hp := linkedProgram_of_parse (by decide) hrun
  obtain ⟨home, hflow, -⟩ := hp.flow
  have hnew : ∀ n, ¬ StepRepeats p.heap .ascending 1
      (trajectory (step p.heap .ascending fun _ => false)
        (start p.heap .ascending (fun _ => false) 1) n) :=
    fun n => not_stepRepeats_of_rank hflow hf (hp.owningFunction_entry hf)
      (fun v => [2, 10, 7, 9, 5, 6, 8, 3].idxOf v) hrank (reaches_trajectory _ n)
  exact ⟨p, hp, hf, hnew,
    (terminates_iff hp hf .ascending _).mpr ⟨0, fun n _ => hnew n⟩⟩

/-! ## Recursion -/

/-- A search that looks for nothing a path leads to does not end once it has
entered a call of a function inside of another one whose frame is still there. -/
theorem not_terminates_of_enters {p : Program} (hp : LinkedProgram p)
    {source : FunctionPtr} (hsource : source ∈ p.functions) {o : SetOrder}
    {inspectVertex : VertexPtr → Bool}
    (hentry : inspectVertex (p.heap.function source).entryVertexDesc = false)
    (hfree : ∀ e < p.heap.nextEdge,
      kind p.heap e = .closed ∨ inspectVertex (p.heap.edge e).target = false)
    {a b : Nat} {e e' : EdgePtr} {c c' : VertexPtr}
    (ha : ContextSearch.Enters (flow p.heap o) (p.heap.function source).entryVertexDesc a e c)
    (hb : ContextSearch.Enters (flow p.heap o) (p.heap.function source).entryVertexDesc b e' c')
    (hcallee : callee p.heap c' = callee p.heap c) (hab : a < b)
    (hcalls : StackHistory.Above (ContextSearch.callsAfter (flow p.heap o)
      (p.heap.function source).entryVertexDesc) (a + 1) (b + 1))
    (hpath : StackHistory.Above (ContextSearch.pathAfter (flow p.heap o)
      (p.heap.function source).entryVertexDesc) (a + 1) (b + 1)) :
    ¬ Terminates (step p.heap o inspectVertex) (start p.heap o inspectVertex source) := by
  obtain ⟨home, hflow, hlinked⟩ := hp.flow
  rintro ⟨t, ht, hend⟩
  cases searchState_of_reaches hflow hsource (hp.owningFunction_entry hsource) ht with
  | searching s hsearch hsim _ _ =>
      rw [searchStart_of_eq_false hentry] at hsearch
      obtain ⟨n, rfl⟩ := hsearch.exists_trajectory
      exact ContextSearch.stack_ne_nil_of_enters (procedures hflow hlinked o) ha
        ⟨e', c', hb, hcallee⟩ hab hcalls hpath n (stack_eq_nil_of_step_eq_none hsim hend)
  | found s _ haligned hfound =>
      have hthread := haligned.resolve_left fun hnil => hfound.stack hnil.1
      obtain ⟨d, path, hcons⟩ := List.exists_cons_of_ne_nil hfound.ne_nil
      obtain ⟨hattached, hkind⟩ := (chain_of_threaded hflow
        (by rw [hflow.entrySelf source hsource] : (p.heap.edge _).target = _)
        hthread).2.2 d (by rw [hcons]; exact List.mem_cons_self)
      have htip := hfound.tip
      rw [hcons] at htip
      have hnot := (hfree d (hflow.consistent.allocated d hattached).2).resolve_left hkind
      exact absurd (htip.symm.trans hnot) (by decide)

/-- `f() { f(); }` and a function `s` which is called by nobody. -/
def recursiveCall : List FunctionInfo :=
  [⟨"f.c", "f", [(.functionCallUnresolved "f" "", .unknown)]⟩, ⟨"f.c", "s", []⟩]

/-- From `f` the search for `s` does not end when the `FunctionCall` edge of the
call is walked before the `Fallthrough` edge. -/
theorem recursiveCall_not_terminates :
    ∃ p, LinkedProgram p ∧ p.functions = [1, 2] ∧
      ¬ Terminates (RuleReachability.step p.heap .descending 2)
        (RuleReachability.start p.heap .descending 1 2) := by
  have hcheck : (Program.parse blankMemory .ascending recursiveCall).Holds fun p =>
      p.functions = [1, 2] ∧
        RuleReachability.pred p.heap 2 (p.heap.function 1).entryVertexDesc = false ∧
        (∀ e < p.heap.nextEdge, kind p.heap e = .closed ∨
          RuleReachability.pred p.heap 2 (p.heap.edge e).target = false) ∧
        kind p.heap 8 = .call 6 ∧
        (let r := (p.heap.function 1).entryVertexDesc;
          let G := flow p.heap .descending;
          (ContextSearch.after G r 2).stack = [(6, [8, 2]), (2, [])] ∧
            (ContextSearch.after G r 5).stack = [(6, [8, 2]), (2, []), (6, [2]), (2, [])] ∧
            ∀ i < 7, 3 ≤ i → (ContextSearch.callsAfter G r 3).length ≤
                (ContextSearch.callsAfter G r i).length ∧
              (ContextSearch.pathAfter G r 3).length ≤
                (ContextSearch.pathAfter G r i).length) := by
    decide +kernel
  obtain ⟨p, hrun, hfunctions, hentry, hfree, hkind, hfirst, hsecond, habove⟩ := hcheck
  have hp := linkedProgram_of_parse (by decide) hrun
  refine ⟨p, hp, hfunctions, ?_⟩
  exact not_terminates_of_enters hp (by rw [hfunctions]; decide) hentry hfree
    (ContextSearch.enters_of_call hfirst hkind) (ContextSearch.enters_of_call hsecond hkind)
    rfl (by decide : 2 < 5)
    ⟨by decide, fun i hi hi' => (habove i (by omega) hi).1⟩
    ⟨by decide, fun i hi hi' => (habove i (by omega) hi).2⟩

end ReachabilityVisitor

end CoFlo.Ports
