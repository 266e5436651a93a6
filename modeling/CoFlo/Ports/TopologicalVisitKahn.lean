import CoFlo.Ports.Visitors

/-!
# `topological_visit_kahn`

Kahn's algorithm as a visit: an edge is pushed when the last in-edge of its
target has been removed, and the target is visited when the edge is popped.
How many in-edges of a vertex are left is kept in a `SparsePropertyMap`, which
forgets a vertex when the number comes to zero.

One step pops an edge and discovers its target, or is one round of the loop
over the out-edges of that vertex, or is the end of this loop.
-/

namespace CoFlo.Ports

namespace TopologicalVisitKahn

/-- `RemainingInDegreeMap`. -/
abbrev RemainingInDegreeMap := SparsePropertyMap VertexPtr Int

/-- The vertex whose out-edges are being walked, with the local variables of
that loop. -/
structure Visiting where
  u : VertexPtr
  ei : List EdgePtr
  numVerticesPushed : Nat
  firstEdgePushed : Option EdgePtr
  deriving DecidableEq, Repr

/-- The local variables of `topological_visit_kahn`. -/
structure State (ε σ : Type) where
  noRemainingInEdgesSet : List EdgePtr
  inDegreeMap : RemainingInDegreeMap
  visiting : Option Visiting
  visitor : σ
  stop : Option (Stop ε)

variable {ε σ : Type} (V : KahnVisitor ε σ) (h : Heap) (o : SetOrder)
  (defaultInDegree : VertexPtr → Int)

/-- Calls a callback; what goes wrong in it ends the visit. -/
def visit {ρ : Type} (callback : Callback ε σ ρ) (s : State ε σ)
    (next : ρ → State ε σ → State ε σ) : State ε σ :=
  match callback s.visitor with
  | .error err => { s with stop := some (.visitorFault err) }
  | .ok (r, visitor) => next r { s with visitor }

/-- Visits the target of an edge popped from the set. -/
def discover (e : EdgePtr) (rest : List EdgePtr) (s : State ε σ) : State ε σ :=
  let u := (h.edge e).target
  visit (V.discoverVertex u e) { s with noRemainingInEdgesSet := rest }
    fun r s =>
      if r = .terminateBranch then s
      else
        { s with visiting := some ⟨u, o.enum (h.vertex u).outEdges, 0, none⟩ }

/-- Takes the edge out of the in-degree of its target. -/
def remove (x : Visiting) (e : EdgePtr) (ei : List EdgePtr) (s : State ε σ) :
    State ε σ :=
  let v := (h.edge e).target
  let (degree, inDegreeMap) := s.inDegreeMap.get defaultInDegree v
  let id := degree - 1
  let s := { s with inDegreeMap := inDegreeMap.put 0 v id }
  if id = 0 then
    visit (V.treeEdge e) s fun _ s =>
      { s with
        noRemainingInEdgesSet := e :: s.noRemainingInEdgesSet
        visiting := some ⟨x.u, ei, x.numVerticesPushed + 1, some e⟩ }
  else
    { s with visiting := some { x with ei } }

/-- One round of the loop over the out-edges. -/
def examine (x : Visiting) (e : EdgePtr) (ei : List EdgePtr) (s : State ε σ) :
    State ε σ :=
  visit (V.examineEdge e) s fun r s =>
    if r = .terminateBranch then { s with visiting := some { x with ei } }
    -- For terminate_search the `break` only leaves the switch.
    else remove V h defaultInDegree x e ei s

/-- The end of the loop over the out-edges. -/
def complete (x : Visiting) (s : State ε σ) : State ε σ :=
  visit (V.vertexVisitComplete x.u x.numVerticesPushed x.firstEdgePushed) s
    fun _ s => { s with visiting := none }

/-- One step of the visit. -/
def step (s : State ε σ) : Option (State ε σ) :=
  if s.stop.isSome then none
  else
    match s.visiting with
    | none =>
        match s.noRemainingInEdgesSet with
        | [] => none
        | e :: rest => some (discover V h o e rest s)
    | some x =>
        match x.ei with
        | [] => some (complete V x s)
        | e :: ei => some (examine V h defaultInDegree x e ei s)

/-- Everything before the loop. -/
def start (source : EdgePtr) (visitor : σ) (inDegreeMap : RemainingInDegreeMap) :
    State ε σ :=
  visit (V.startVertex source) ⟨[source], inDegreeMap, none, visitor, none⟩
    fun _ s => s

/-! ## The steps -/

theorem visit_ok {ρ : Type} {callback : Callback ε σ ρ} {s : State ε σ}
    {next : ρ → State ε σ → State ε σ} {r : ρ} {visitor : σ}
    (hcall : callback s.visitor = .ok (r, visitor)) :
    visit callback s next = next r { s with visitor } := by
  unfold visit
  rw [hcall]

theorem visit_error {ρ : Type} {callback : Callback ε σ ρ} {s : State ε σ}
    {next : ρ → State ε σ → State ε σ} {err : ε}
    (hcall : callback s.visitor = .error err) :
    visit callback s next = { s with stop := some (.visitorFault err) } := by
  unfold visit
  rw [hcall]

theorem step_of_discover {s : State ε σ} (hstop : s.stop = none)
    (hvisiting : s.visiting = none) {e : EdgePtr} {rest : List EdgePtr}
    (hset : s.noRemainingInEdgesSet = e :: rest) :
    step V h o defaultInDegree s = some (discover V h o e rest s) := by
  unfold step
  rw [hstop, Option.isSome_none, if_neg Bool.false_ne_true, hvisiting, hset]

theorem step_of_examine {s : State ε σ} (hstop : s.stop = none) {x : Visiting}
    (hvisiting : s.visiting = some x) {e : EdgePtr} {ei : List EdgePtr}
    (hei : x.ei = e :: ei) :
    step V h o defaultInDegree s = some (examine V h defaultInDegree x e ei s) := by
  unfold step
  rw [hstop, Option.isSome_none, if_neg Bool.false_ne_true, hvisiting]
  simp only [hei]

theorem step_of_complete {s : State ε σ} (hstop : s.stop = none) {x : Visiting}
    (hvisiting : s.visiting = some x) (hei : x.ei = []) :
    step V h o defaultInDegree s = some (complete V x s) := by
  unfold step
  rw [hstop, Option.isSome_none, if_neg Bool.false_ne_true, hvisiting]
  simp only [hei]

/-- A step discovers a vertex, ends the visit of one or examines an out-edge. -/
theorem step_cases {s t : State ε σ} (hstep : step V h o defaultInDegree s = some t) :
    s.stop = none ∧
      ((s.visiting = none ∧ ∃ e rest, s.noRemainingInEdgesSet = e :: rest ∧
          t = discover V h o e rest s) ∨
        ∃ x, s.visiting = some x ∧ ((x.ei = [] ∧ t = complete V x s) ∨
          ∃ e ei, x.ei = e :: ei ∧ t = examine V h defaultInDegree x e ei s)) := by
  cases hstop : s.stop with
  | some stop =>
      unfold step at hstep
      simp [hstop] at hstep
  | none =>
      refine ⟨rfl, ?_⟩
      cases hvisiting : s.visiting with
      | none =>
          left
          cases hset : s.noRemainingInEdgesSet with
          | nil =>
              unfold step at hstep
              simp [hstop, hvisiting, hset] at hstep
          | cons e rest =>
              rw [step_of_discover V h o defaultInDegree hstop hvisiting hset,
                Option.some.injEq] at hstep
              exact ⟨rfl, e, rest, rfl, hstep.symm⟩
      | some x =>
          right
          cases hei : x.ei with
          | nil =>
              rw [step_of_complete V h o defaultInDegree hstop hvisiting hei,
                Option.some.injEq] at hstep
              exact ⟨x, rfl, .inl ⟨hei, hstep.symm⟩⟩
          | cons e ei =>
              rw [step_of_examine V h o defaultInDegree hstop hvisiting hei,
                Option.some.injEq] at hstep
              exact ⟨x, rfl, .inr ⟨e, ei, hei, hstep.symm⟩⟩

/-- What one step of the visit does. -/
inductive Moves (s : State ε σ) : State ε σ → Prop where
  | discover {e : EdgePtr} {rest : List EdgePtr} {r : VertexReturnValue}
      {visitor : σ} (hvisiting : s.visiting = none)
      (hset : s.noRemainingInEdgesSet = e :: rest)
      (hcall : V.discoverVertex (h.edge e).target e s.visitor =
        .ok (r, visitor)) (hr : r ≠ .terminateBranch) :
      Moves s ⟨rest, s.inDegreeMap,
        some ⟨(h.edge e).target, o.enum (h.vertex (h.edge e).target).outEdges,
          0, none⟩, visitor, none⟩
  | pass {e : EdgePtr} {rest : List EdgePtr} {visitor : σ}
      (hvisiting : s.visiting = none)
      (hset : s.noRemainingInEdgesSet = e :: rest)
      (hcall : V.discoverVertex (h.edge e).target e s.visitor =
        .ok (.terminateBranch, visitor)) :
      Moves s ⟨rest, s.inDegreeMap, none, visitor, none⟩
  | skip {x : Visiting} {e : EdgePtr} {ei : List EdgePtr} {visitor : σ}
      (hvisiting : s.visiting = some x) (hei : x.ei = e :: ei)
      (hcall : V.examineEdge e s.visitor = .ok (.terminateBranch, visitor)) :
      Moves s ⟨s.noRemainingInEdgesSet, s.inDegreeMap, some { x with ei },
        visitor, none⟩
  | count {x : Visiting} {e : EdgePtr} {ei : List EdgePtr}
      {r : EdgeReturnValue} {visitor : σ} {inDegreeMap : RemainingInDegreeMap}
      (hvisiting : s.visiting = some x) (hei : x.ei = e :: ei)
      (hcall : V.examineEdge e s.visitor = .ok (r, visitor))
      (hr : r ≠ .terminateBranch)
      (hid : s.inDegreeMap.lookup defaultInDegree (h.edge e).target ≠ 1)
      (hmap : inDegreeMap.underlyingMap =
        Function.update s.inDegreeMap.underlyingMap (h.edge e).target
          (some (s.inDegreeMap.lookup defaultInDegree (h.edge e).target - 1))) :
      Moves s ⟨s.noRemainingInEdgesSet, inDegreeMap, some { x with ei },
        visitor, none⟩
  | push {x : Visiting} {e : EdgePtr} {ei : List EdgePtr}
      {r : EdgeReturnValue} {r' : EdgeReturnValue} {visitor visitor' : σ}
      {inDegreeMap : RemainingInDegreeMap}
      (hvisiting : s.visiting = some x) (hei : x.ei = e :: ei)
      (hcall : V.examineEdge e s.visitor = .ok (r, visitor))
      (hr : r ≠ .terminateBranch)
      (hid : s.inDegreeMap.lookup defaultInDegree (h.edge e).target = 1)
      (hmap : inDegreeMap.underlyingMap =
        Function.update s.inDegreeMap.underlyingMap (h.edge e).target none)
      (htree : V.treeEdge e visitor = .ok (r', visitor')) :
      Moves s ⟨e :: s.noRemainingInEdgesSet, inDegreeMap,
        some ⟨x.u, ei, x.numVerticesPushed + 1, some e⟩, visitor', none⟩
  | complete {x : Visiting} {visitor : σ} (hvisiting : s.visiting = some x)
      (hei : x.ei = [])
      (hcall : V.vertexVisitComplete x.u x.numVerticesPushed x.firstEdgePushed
        s.visitor = .ok ((), visitor)) :
      Moves s ⟨s.noRemainingInEdgesSet, s.inDegreeMap, none, visitor, none⟩
  | fault {t : State ε σ} (hstop : t.stop ≠ none) : Moves s t

theorem discover_moves {s : State ε σ} (hstop : s.stop = none)
    (hvisiting : s.visiting = none) {e : EdgePtr} {rest : List EdgePtr}
    (hset : s.noRemainingInEdgesSet = e :: rest) :
    Moves V h o defaultInDegree s (discover V h o e rest s) := by
  unfold discover visit
  simp only
  cases hcall : V.discoverVertex (h.edge e).target e s.visitor with
  | error err => exact .fault (by simp)
  | ok p =>
      obtain ⟨r, visitor⟩ := p
      simp only [hstop]
      split_ifs with hr
      · rw [hr] at hcall
        rw [hvisiting]
        exact .pass hvisiting hset hcall
      · exact .discover hvisiting hset hcall hr

theorem examine_moves {s : State ε σ} (hstop : s.stop = none) {x : Visiting}
    (hvisiting : s.visiting = some x) {e : EdgePtr} {ei : List EdgePtr}
    (hei : x.ei = e :: ei) :
    Moves V h o defaultInDegree s (examine V h defaultInDegree x e ei s) := by
  unfold examine visit
  simp only
  cases hcall : V.examineEdge e s.visitor with
  | error err => exact .fault (by simp)
  | ok p =>
      obtain ⟨r, visitor⟩ := p
      simp only [hstop]
      split_ifs with hr
      · rw [hr] at hcall
        exact .skip hvisiting hei hcall
      · obtain ⟨d, hd⟩ : ∃ d,
            d = s.inDegreeMap.lookup defaultInDegree (h.edge e).target := ⟨_, rfl⟩
        have hmap := s.inDegreeMap.underlyingMap_put_get defaultInDegree 0
          (h.edge e).target (d - 1)
        have hfst := s.inDegreeMap.get_fst defaultInDegree (h.edge e).target
        rw [← hd] at hfst
        unfold remove visit
        simp only [hfst]
        split_ifs with hid
        · have hd1 : d = 1 := by omega
          rw [if_pos hid] at hmap
          cases htree : V.treeEdge e visitor with
          | error err => exact .fault (by simp)
          | ok p => exact .push hvisiting hei hcall hr (hd ▸ hd1) hmap htree
        · rw [if_neg hid] at hmap
          refine .count hvisiting hei hcall hr ?_ (hd ▸ hmap)
          rw [← hd]
          omega

theorem complete_moves {s : State ε σ} (hstop : s.stop = none) {x : Visiting}
    (hvisiting : s.visiting = some x) (hei : x.ei = []) :
    Moves V h o defaultInDegree s (complete V x s) := by
  unfold complete visit
  cases hcall : V.vertexVisitComplete x.u x.numVerticesPushed x.firstEdgePushed
      s.visitor with
  | error err => exact .fault (by simp)
  | ok p =>
      simp only [hstop]
      exact .complete hvisiting hei hcall

theorem step_moves {s t : State ε σ}
    (hstep : step V h o defaultInDegree s = some t) :
    s.stop = none ∧ Moves V h o defaultInDegree s t := by
  obtain ⟨hstop, hcases⟩ := step_cases V h o defaultInDegree hstep
  refine ⟨hstop, ?_⟩
  rcases hcases with ⟨hvisiting, e, rest, hset, rfl⟩ | ⟨x, hvisiting, hcases⟩
  · exact discover_moves V h o defaultInDegree hstop hvisiting hset
  · rcases hcases with ⟨hei, rfl⟩ | ⟨e, ei, hei, rfl⟩
    · exact complete_moves V h o defaultInDegree hstop hvisiting hei
    · exact examine_moves V h o defaultInDegree hstop hvisiting hei

end TopologicalVisitKahn

end CoFlo.Ports
