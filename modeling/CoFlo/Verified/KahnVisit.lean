import CoFlo.Verified.SearchInvariant
import Mathlib.Order.WellFoundedSet

/-!
# Kahn's algorithm with a map that forgets

Kahn's algorithm visits a vertex when the last of its in-edges has been
removed.  Here some edges are passed over as if they were not in the graph, and
the number of in-edges that are left of a vertex is taken back to its start
value when it comes to zero.  So the numbers alone do not tell a vertex that was
visited from one that was never seen.

What carries the visit is that every edge is examined once (`Inv.edges`): a
vertex is pushed when the last of its in-edges is, and there is no edge left
that could start over (`Inv.mem`).
-/

namespace CoFlo.Verified.KahnVisit

open CoFlo.Verified.DepthFirstSearch Relation

variable {V E : Type*}

/-- The state of a visit: the edges whose targets are to be visited, the
numbers of in-edges, the out-edges of the vertex being visited, and the
vertices, edges and tree edges that were come across so far. -/
structure State (V E : Type*) where
  ready : List E
  remaining : V → Int
  pending : Option (List E)
  discovered : List V
  examined : List E
  tree : List E

section step

variable [DecidableEq V] (G : Incidence V E) (S : Set E) (inEdges : V → Finset E)

/-- One step of the visit. -/
inductive Step (s : State V E) : State V E → Prop where
  | discover {e : E} {rest : List E} (hpending : s.pending = none)
      (hready : s.ready = e :: rest) :
      Step s { s with
        ready := rest
        pending := some (G.out (G.target e))
        discovered := s.discovered ++ [G.target e] }
  | skip {e : E} {ei : List E} (hpending : s.pending = some (e :: ei))
      (he : e ∈ S) :
      Step s { s with pending := some ei, examined := s.examined ++ [e] }
  | count {e : E} {ei : List E} (hpending : s.pending = some (e :: ei))
      (he : e ∉ S) (hremaining : s.remaining (G.target e) ≠ 1) :
      Step s { s with
        remaining := Function.update s.remaining (G.target e)
          (s.remaining (G.target e) - 1)
        pending := some ei
        examined := s.examined ++ [e] }
  | push {e : E} {ei : List E} (hpending : s.pending = some (e :: ei))
      (he : e ∉ S) (hremaining : s.remaining (G.target e) = 1) :
      Step s
        { ready := e :: s.ready
          remaining := Function.update s.remaining (G.target e)
            (inEdges (G.target e)).card
          pending := some ei
          discovered := s.discovered
          examined := s.examined ++ [e]
          tree := s.tree ++ [e] }
  | complete (hpending : s.pending = some []) :
      Step s { s with pending := none }

/-- The visit before its first step. -/
def init (source : E) : State V E :=
  ⟨[source], fun v => (inEdges v).card, none, [], [], []⟩

end step

/-- The edges that are not passed over, by their targets. -/
structure InEdges (G : Incidence V E) (S : Set E) (inEdges : V → Finset E) :
    Prop where
  mem_iff : ∀ v e, e ∈ inEdges v ↔
    e ∉ S ∧ G.target e = v ∧ ∃ u, e ∈ G.out u

/-- Along an edge that is not passed over. -/
def EdgeStep (G : Incidence V E) (S : Set E) (u v : V) : Prop :=
  ∃ e ∈ G.out u, e ∉ S ∧ G.target e = v

variable [DecidableEq E]

/-- The in-edges of a vertex that are still to be examined. -/
def left (inEdges : V → Finset E) (examined : List E) (v : V) : Finset E :=
  (inEdges v).filter (· ∉ examined)

/-- What holds in every state of a visit that starts at `r`. -/
structure Inv (G : Incidence V E) (inEdges : V → Finset E) (r : V)
    (s : State V E) : Prop where
  nodup : (s.discovered ++ s.ready.map G.target).Nodup
  edges : s.examined ++ s.pending.getD [] = s.discovered.flatMap G.out
  remaining : ∀ v, s.remaining v =
    if left inEdges s.examined v = ∅ then ((inEdges v).card : Int)
    else ((left inEdges s.examined v).card : Int)
  mem : ∀ v, v ∈ s.discovered ++ s.ready.map G.target ↔
    v = r ∨ inEdges v ≠ ∅ ∧ left inEdges s.examined v = ∅
  tree : (r :: s.tree.map G.target).Perm
    (s.discovered ++ s.ready.map G.target)
  order : ∀ l₁ v l₂, s.discovered = l₁ ++ v :: l₂ → v ≠ r →
    ∀ e ∈ inEdges v, ∃ u ∈ l₁, e ∈ G.out u

section inv

variable {G : Incidence V E} {S : Set E} {inEdges : V → Finset E} {r : V}
  {s : State V E}

theorem Inv.init (source : E) :
    Inv G inEdges (G.target source) (init inEdges source) where
  nodup := List.nodup_singleton _
  edges := rfl
  remaining v := by simp [left, KahnVisit.init]
  mem v := by
    simp only [KahnVisit.init, List.nil_append, List.map_cons, List.map_nil,
      List.mem_singleton, left, List.not_mem_nil, not_false_eq_true,
      Finset.filter_true]
    refine (or_iff_left fun hv => ?_).symm
    exact hv.1 hv.2
  tree := List.Perm.refl _
  order l₁ v l₂ hl := by simp [KahnVisit.init] at hl

/-- The edge that is examined next has not been examined before. -/
theorem Inv.notMem_examined (hG : G.Proper) (h : Inv G inEdges r s) {e : E}
    {ei : List E} (hpending : s.pending = some (e :: ei)) :
    e ∉ s.examined ∧ ∃ u ∈ s.discovered, e ∈ G.out u := by
  have hedges := h.edges
  rw [hpending, Option.getD_some] at hedges
  have hnodup : (s.discovered.flatMap G.out).Nodup := by
    rw [List.nodup_flatMap]
    refine ⟨fun u _ => hG.nodup u, ?_⟩
    refine (List.nodup_append.mp h.nodup).1.imp fun {u w} huw => ?_
    exact fun d hu hw => huw (hG.source_unique u w d hu hw)
  constructor
  · rw [← hedges, List.nodup_append] at hnodup
    exact fun hmem => hnodup.2.2 e hmem e List.mem_cons_self rfl
  · rw [← List.mem_flatMap, ← hedges]
    simp

theorem left_append {examined : List E} {e : E} (v : V) :
    left inEdges (examined ++ [e]) v = (left inEdges examined v).erase e := by
  ext d
  simp only [left, Finset.mem_filter, List.mem_append, List.mem_singleton,
    not_or, Finset.mem_erase]
  tauto

/-- Nothing is left to examine of a vertex that is not the target. -/
theorem left_append_of_notMem {examined : List E} {e : E} {v : V}
    (he : e ∉ inEdges v) :
    left inEdges (examined ++ [e]) v = left inEdges examined v := by
  rw [left_append, Finset.erase_eq_of_notMem]
  exact fun hmem => he (Finset.mem_filter.mp hmem).1

/-- The next edge is the only one that leaves what is left of its target. -/
theorem Inv.mem_left (hG : G.Proper) (hin : InEdges G S inEdges)
    (h : Inv G inEdges r s) {e : E} {ei : List E}
    (hpending : s.pending = some (e :: ei)) (he : e ∉ S) :
    e ∈ left inEdges s.examined (G.target e) ∧
      ∀ v, v ≠ G.target e →
        left inEdges (s.examined ++ [e]) v = left inEdges s.examined v := by
  obtain ⟨hnotMem, u, _, hu⟩ := h.notMem_examined hG hpending
  constructor
  · exact Finset.mem_filter.mpr ⟨(hin.mem_iff _ e).mpr ⟨he, rfl, u, hu⟩, hnotMem⟩
  · intro v hv
    refine left_append_of_notMem fun hmem => hv ?_
    exact ((hin.mem_iff v e).mp hmem).2.1.symm

theorem Inv.edges_next (h : Inv G inEdges r s) {e : E} {ei : List E}
    (hpending : s.pending = some (e :: ei)) :
    (s.examined ++ [e]) ++ ei = s.discovered.flatMap G.out := by
  have hedges := h.edges
  rw [hpending, Option.getD_some] at hedges
  rw [← hedges, List.append_assoc]
  rfl

theorem Inv.discover (h : Inv G inEdges r s) {e : E} {rest : List E}
    (hpending : s.pending = none) (hready : s.ready = e :: rest) :
    Inv G inEdges r { s with
      ready := rest
      pending := some (G.out (G.target e))
      discovered := s.discovered ++ [G.target e] } := by
  -- What was ready or discovered before is so now.
  have hsame : (s.discovered ++ [G.target e]) ++ rest.map G.target =
      s.discovered ++ s.ready.map G.target := by
    rw [hready, List.append_assoc]
    rfl
  have hedges := h.edges
  rw [hpending, Option.getD_none, List.append_nil] at hedges
  refine ⟨?_, ?_, h.remaining, fun v => ?_, ?_, fun l₁ v l₂ hl hv d hd => ?_⟩
  · dsimp only
    rw [hsame]
    exact h.nodup
  · dsimp only
    rw [Option.getD_some, List.flatMap_append, hedges]
    simp
  · dsimp only
    rw [hsame]
    exact h.mem v
  · dsimp only
    rw [hsame]
    exact h.tree
  · dsimp only at hl
    rcases List.eq_nil_or_concat l₂ with rfl | ⟨l, y, rfl⟩
    · -- The new vertex: all its in-edges have been examined.
      obtain ⟨rfl, hlast⟩ := List.append_inj' hl rfl
      obtain rfl : G.target e = v := by simpa using hlast
      have hready' : G.target e ∈ s.discovered ++ s.ready.map G.target := by
        rw [hready]
        simp
      have hempty := (((h.mem _).mp hready').resolve_left hv).2
      have hexamined : d ∈ s.examined := by
        by_contra hnot
        have hmem : d ∈ left inEdges s.examined (G.target e) :=
          Finset.mem_filter.mpr ⟨hd, hnot⟩
        rw [hempty] at hmem
        exact Finset.notMem_empty d hmem
      rw [hedges] at hexamined
      exact List.mem_flatMap.mp hexamined
    · have hl' : s.discovered ++ [G.target e] = (l₁ ++ v :: l) ++ [y] := by
        rw [hl]
        simp
      exact h.order l₁ v l (List.append_inj' hl' rfl).1 hv d hd

variable [DecidableEq V]

theorem Inv.step (hG : G.Proper) (hin : InEdges G S inEdges)
    (hroot : inEdges r = ∅) {t : State V E} (h : Inv G inEdges r s)
    (hstep : Step G S inEdges s t) : Inv G inEdges r t := by
  cases hstep with
  | discover hpending hready => exact h.discover hpending hready
  | @skip e ei hpending he =>
      have hleft : ∀ v, left inEdges (s.examined ++ [e]) v =
          left inEdges s.examined v := fun v =>
        left_append_of_notMem fun hmem => ((hin.mem_iff v e).mp hmem).1 he
      refine ⟨h.nodup, h.edges_next hpending, fun v => ?_, fun v => ?_, h.tree,
        h.order⟩
      · dsimp only
        rw [hleft]
        exact h.remaining v
      · dsimp only
        rw [hleft]
        exact h.mem v
  | @count e ei hpending he hremaining =>
      obtain ⟨hmem, hother⟩ := h.mem_left hG hin hpending he
      have hold := h.remaining (G.target e)
      have hne : left inEdges s.examined (G.target e) ≠ ∅ :=
        Finset.ne_empty_of_mem hmem
      rw [if_neg hne] at hold
      have hcard : (left inEdges (s.examined ++ [e]) (G.target e)).card + 1 =
          (left inEdges s.examined (G.target e)).card := by
        rw [left_append]
        exact Finset.card_erase_add_one hmem
      have hne' : left inEdges (s.examined ++ [e]) (G.target e) ≠ ∅ := by
        intro hempty
        rw [hempty, Finset.card_empty] at hcard
        omega
      refine ⟨h.nodup, h.edges_next hpending, fun v => ?_, fun v => ?_, h.tree,
        h.order⟩
      · dsimp only
        by_cases hv : v = G.target e
        · subst hv
          rw [Function.update_self, if_neg hne', hold]
          omega
        · rw [Function.update_of_ne hv, hother v hv]
          exact h.remaining v
      · dsimp only
        by_cases hv : v = G.target e
        · subst hv
          rw [h.mem]
          simp only [hne, hne', and_false]
        · rw [hother v hv]
          exact h.mem v
  | @push e ei hpending he hremaining =>
      obtain ⟨hmem, hother⟩ := h.mem_left hG hin hpending he
      have hold := h.remaining (G.target e)
      have hne : left inEdges s.examined (G.target e) ≠ ∅ :=
        Finset.ne_empty_of_mem hmem
      rw [if_neg hne] at hold
      have hempty : left inEdges (s.examined ++ [e]) (G.target e) = ∅ := by
        have hcard : (left inEdges s.examined (G.target e)).card = 1 := by omega
        rw [left_append, ← Finset.card_eq_zero, Finset.card_erase_of_mem hmem,
          hcard]
      have hinEdges : inEdges (G.target e) ≠ ∅ :=
        Finset.ne_empty_of_mem (Finset.mem_filter.mp hmem).1
      have hnew : G.target e ∉ s.discovered ++ s.ready.map G.target := by
        rw [h.mem]
        rintro (heq | ⟨_, heq⟩)
        · exact hinEdges (heq ▸ hroot)
        · exact hne heq
      have hperm : (G.target e :: (s.discovered ++ s.ready.map G.target)).Perm
          (s.discovered ++ (e :: s.ready).map G.target) :=
        List.perm_middle.symm
      refine ⟨?_, h.edges_next hpending, fun v => ?_, fun v => ?_, ?_, h.order⟩
      · dsimp only
        rw [← hperm.nodup_iff, List.nodup_cons]
        exact ⟨hnew, h.nodup⟩
      · dsimp only
        by_cases hv : v = G.target e
        · subst hv
          rw [Function.update_self, if_pos hempty]
        · rw [Function.update_of_ne hv, hother v hv]
          exact h.remaining v
      · dsimp only
        rw [← hperm.mem_iff, List.mem_cons]
        by_cases hv : v = G.target e
        · subst hv
          exact iff_of_true (.inl rfl) (.inr ⟨hinEdges, hempty⟩)
        · rw [or_iff_right hv, hother v hv]
          exact h.mem v
      · dsimp only
        refine .trans ?_ hperm
        refine .trans ?_ (h.tree.cons (G.target e))
        rw [List.map_append]
        exact (List.perm_append_singleton (G.target e) (r :: s.tree.map G.target))
  | complete hpending =>
      refine ⟨h.nodup, ?_, h.remaining, h.mem, h.tree, h.order⟩
      have hedges := h.edges
      rw [hpending] at hedges
      exact hedges

/-! ## The end of the visit -/

/-- The vertices come across so far are in `M`. -/
def InUniverse (G : Incidence V E) (M : Finset V) (s : State V E) : Prop :=
  ∀ v ∈ s.discovered ++ s.ready.map G.target, v ∈ M

/-- The work left: the edges of the vertex being visited, and every vertex that
is not discovered with its edges. -/
def work (G : Incidence V E) (M : Finset V) (s : State V E) : Nat :=
  s.pending.elim 0 (·.length + 1) +
    ∑ v ∈ M with v ∉ s.discovered, ((G.out v).length + 2)

theorem sum_discover {M : Finset V} {discovered : List V} {v : V} (hv : v ∈ M)
    (hnew : v ∉ discovered) (f : V → Nat) :
    (∑ w ∈ M with w ∉ discovered ++ [v], f w) + f v =
      ∑ w ∈ M with w ∉ discovered, f w := by
  have herase : {w ∈ M | w ∉ discovered ++ [v]} =
      {w ∈ M | w ∉ discovered}.erase v := by
    ext w
    simp only [Finset.mem_filter, List.mem_append, List.mem_singleton, not_or,
      Finset.mem_erase]
    tauto
  rw [herase]
  exact Finset.sum_erase_add _ _ (Finset.mem_filter.mpr ⟨hv, hnew⟩)

/-- Every step leaves less work. -/
theorem Inv.work_lt {M : Finset V} (h : Inv G inEdges r s)
    (hM : InUniverse G M s) (htarget : ∀ u ∈ M, ∀ e ∈ G.out u, G.target e ∈ M)
    {t : State V E} (hstep : Step G S inEdges s t) :
    InUniverse G M t ∧ work G M t < work G M s := by
  cases hstep with
  | @discover e rest hpending hready =>
      have hmem : G.target e ∈ s.discovered ++ s.ready.map G.target := by
        rw [hready]
        simp
      have hnew : G.target e ∉ s.discovered := fun hold =>
        (List.nodup_append.mp h.nodup).2.2 _ hold (G.target e)
          (by rw [hready]; simp) rfl
      have hsum := sum_discover (hM _ hmem) hnew
        (fun v => (G.out v).length + 2)
      constructor
      · intro v hv
        refine hM v ?_
        rw [hready]
        simpa using hv
      · simp only [work, hpending, Option.elim]
        omega
  | skip hpending _ =>
      refine ⟨hM, ?_⟩
      simp only [work, hpending, Option.elim, List.length_cons]
      omega
  | count hpending _ _ =>
      refine ⟨hM, ?_⟩
      simp only [work, hpending, Option.elim, List.length_cons]
      omega
  | @push e ei hpending _ _ =>
      have hedges := h.edges
      rw [hpending, Option.getD_some] at hedges
      obtain ⟨u, hu, he⟩ : ∃ u ∈ s.discovered, e ∈ G.out u := by
        rw [← List.mem_flatMap, ← hedges]
        simp
      constructor
      · intro v hv
        rw [List.mem_append, List.map_cons, List.mem_cons] at hv
        rcases hv with hv | rfl | hv
        · exact hM v (List.mem_append_left _ hv)
        · exact htarget u (hM u (List.mem_append_left _ hu)) e he
        · exact hM v (List.mem_append_right _ hv)
      · simp only [work, hpending, Option.elim, List.length_cons]
        omega
  | complete hpending =>
      refine ⟨hM, ?_⟩
      simp only [work, hpending, Option.elim, List.length_nil]
      omega

/-- There is one tree edge to each vertex but the root. -/
theorem Inv.count_tree (h : Inv G inEdges r s) (hready : s.ready = []) (v : V) :
    (s.tree.map G.target).count v =
      if v ∈ s.discovered ∧ v ≠ r then 1 else 0 := by
  have hcount := h.tree.count_eq v
  have hnodup := h.nodup
  rw [hready, List.map_nil, List.append_nil] at hcount hnodup
  rw [hnodup.count, List.count_cons] at hcount
  have hroot : r ∈ s.discovered := by
    have hmem := (h.mem r).mpr (.inl rfl)
    rwa [hready, List.map_nil, List.append_nil] at hmem
  by_cases hv : v = r
  · subst hv
    simp only [hroot, beq_self_eq_true, if_true] at hcount
    simp only [ne_eq, not_true, and_false, if_false]
    omega
  · have hrv : ¬ (r == v) = true := by simpa using fun heq => hv heq.symm
    rw [if_neg hrv, Nat.add_zero] at hcount
    rw [hcount]
    simp only [ne_eq, hv, not_false_eq_true, and_true]

omit [DecidableEq V] in
/-- When the edges that are not passed over make up an acyclic graph all of
which lies behind the root, the visit comes to all of it. -/
theorem Inv.mem_discovered (hin : InEdges G S inEdges) (h : Inv G inEdges r s)
    (hpending : s.pending = none) (hready : s.ready = []) {M : Finset V}
    (hrM : r ∈ M) (htarget : ∀ u ∈ M, ∀ e ∈ G.out u, G.target e ∈ M)
    (hacyclic : ∀ v, ¬ TransGen (EdgeStep G S) v v)
    (hbehind : ∀ u v, EdgeStep G S u v → ReflTransGen (EdgeStep G S) r u)
    {v : V} (hv : ReflTransGen (EdgeStep G S) r v) : v ∈ s.discovered := by
  have hedges := h.edges
  rw [hpending, Option.getD_none, List.append_nil] at hedges
  have hmem := h.mem
  simp only [hready, List.map_nil, List.append_nil] at hmem
  have hreachM : ∀ w, ReflTransGen (EdgeStep G S) r w → w ∈ M := by
    intro w hw
    induction hw with
    | refl => exact hrM
    | tail _ hstep ih =>
        obtain ⟨e, he, _, rfl⟩ := hstep
        exact htarget _ ih e he
  have hfinite : {w | ReflTransGen (EdgeStep G S) r w}.Finite :=
    M.finite_toSet.subset hreachM
  have : IsStrictOrder V (TransGen (EdgeStep G S)) :=
    { irrefl := hacyclic
      trans := fun _ _ _ => TransGen.trans }
  refine (hfinite.wellFoundedOn (r := TransGen (EdgeStep G S))).induction hv ?_
  intro w hw ih
  rw [hmem]
  rcases hw.cases_tail with heq | ⟨u, _, hstep⟩
  · exact .inl heq
  · right
    obtain ⟨e, he, heS, hew⟩ := hstep
    refine ⟨Finset.ne_empty_of_mem ((hin.mem_iff w e).mpr ⟨heS, hew, u, he⟩), ?_⟩
    -- Every in-edge comes from a vertex that is discovered, and so examined.
    rw [Finset.eq_empty_iff_forall_notMem]
    intro d hd
    obtain ⟨hdin, hdnot⟩ := Finset.mem_filter.mp hd
    obtain ⟨hdS, hdw, x, hdx⟩ := (hin.mem_iff w d).mp hdin
    have hxw : EdgeStep G S x w := ⟨d, hdx, hdS, hdw⟩
    have hx := ih x (hbehind x w hxw) (.single hxw)
    exact hdnot (hedges ▸ List.mem_flatMap.mpr ⟨x, hx, hdx⟩)

end inv

end CoFlo.Verified.KahnVisit
