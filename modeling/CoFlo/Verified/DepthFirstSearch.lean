import CoFlo.Verified.StepMachine
import Mathlib.Algebra.BigOperators.Group.Finset.Basic
import Mathlib.Algebra.GroupWithZero.Nat
import Mathlib.Algebra.Order.BigOperators.Group.Finset
import Mathlib.Data.Fintype.Defs
import Mathlib.Logic.Function.Basic

/-!
# Depth-first search as a step machine

The textbook search with an explicit stack and three colours, started at a
list of roots in turn.  Every frame of the stack is a vertex together with the
out-edges that are still to be examined, in the order in which they will be.
The machine records the events a visitor is called for: the classification of
every examined edge, and the finishing of every vertex.

Edges have an identity of their own, so parallel edges are different edges.
-/

namespace CoFlo.Verified.DepthFirstSearch

open CoFlo.Verified.StepMachine

/-- A directed graph with ordered out-edges. -/
structure Incidence (V E : Type*) where
  out : V → List E
  target : E → V

/-- The colour of a vertex: undiscovered, on the stack, finished. -/
inductive Color where
  | white
  | gray
  | black
  deriving DecidableEq, Repr

/-- What a visitor is told. -/
inductive Event (V E : Type*) where
  | treeEdge (e : E)
  | backEdge (e : E)
  | forwardOrCrossEdge (e : E)
  | finishVertex (v : V)

/-- The state of a search.  The top of the stack is the head of the list. -/
structure State (V E : Type*) where
  color : V → Color
  stack : List (V × List E)
  roots : List V
  trace : List (Event V E)

variable {V E : Type*} [DecidableEq V] (G : Incidence V E)

/-- One step: examine the next out-edge of the top vertex, or finish it, or
turn to the next root. -/
def step (s : State V E) : Option (State V E) :=
  match s.stack with
  | (u, e :: rem) :: rest =>
      match s.color (G.target e) with
      | .white => some
          { s with
            color := Function.update s.color (G.target e) .gray
            stack := (G.target e, G.out (G.target e)) :: (u, rem) :: rest
            trace := s.trace ++ [.treeEdge e] }
      | .gray => some
          { s with
            stack := (u, rem) :: rest
            trace := s.trace ++ [.backEdge e] }
      | .black => some
          { s with
            stack := (u, rem) :: rest
            trace := s.trace ++ [.forwardOrCrossEdge e] }
  | (u, []) :: rest => some
      { s with
        color := Function.update s.color u .black
        stack := rest
        trace := s.trace ++ [.finishVertex u] }
  | [] =>
      match s.roots with
      | [] => none
      | r :: roots =>
          match s.color r with
          | .white => some
              { s with
                color := Function.update s.color r .gray
                stack := [(r, G.out r)]
                roots := roots }
          | _ => some { s with roots := roots }

/-- Before the search everything is white. -/
def init (roots : List V) : State V E :=
  ⟨fun _ => .white, [], roots, []⟩

/-- What a step can do. -/
inductive Step : State V E → State V E → Prop where
  | treeEdge {s : State V E} {u e rem rest} (hstack : s.stack = (u, e :: rem) :: rest)
      (hcolor : s.color (G.target e) = .white) :
      Step s
        { s with
          color := Function.update s.color (G.target e) .gray
          stack := (G.target e, G.out (G.target e)) :: (u, rem) :: rest
          trace := s.trace ++ [.treeEdge e] }
  | backEdge {s : State V E} {u e rem rest} (hstack : s.stack = (u, e :: rem) :: rest)
      (hcolor : s.color (G.target e) = .gray) :
      Step s
        { s with
          stack := (u, rem) :: rest
          trace := s.trace ++ [.backEdge e] }
  | forwardOrCrossEdge {s : State V E} {u e rem rest}
      (hstack : s.stack = (u, e :: rem) :: rest)
      (hcolor : s.color (G.target e) = .black) :
      Step s
        { s with
          stack := (u, rem) :: rest
          trace := s.trace ++ [.forwardOrCrossEdge e] }
  | finishVertex {s : State V E} {u rest} (hstack : s.stack = (u, []) :: rest) :
      Step s
        { s with
          color := Function.update s.color u .black
          stack := rest
          trace := s.trace ++ [.finishVertex u] }
  | startRoot {s : State V E} {r roots} (hstack : s.stack = [])
      (hroots : s.roots = r :: roots) (hcolor : s.color r = .white) :
      Step s
        { s with
          color := Function.update s.color r .gray
          stack := [(r, G.out r)]
          roots := roots }
  | skipRoot {s : State V E} {r roots} (hstack : s.stack = [])
      (hroots : s.roots = r :: roots) (hcolor : s.color r ≠ .white) :
      Step s { s with roots := roots }

variable {G}

theorem Step.of_step {s t : State V E} (h : step G s = some t) : Step G s t := by
  unfold step at h
  split at h
  · rename_i u e rem rest hstack
    split at h
    · rename_i hcolor
      rw [← Option.some.inj h]
      exact .treeEdge hstack hcolor
    · rename_i hcolor
      rw [← Option.some.inj h]
      exact .backEdge hstack hcolor
    · rename_i hcolor
      rw [← Option.some.inj h]
      exact .forwardOrCrossEdge hstack hcolor
  · rename_i u rest hstack
    rw [← Option.some.inj h]
    exact .finishVertex hstack
  · rename_i hstack
    split at h
    · exact absurd h (by simp)
    · rename_i r roots hroots
      split at h
      · rename_i hcolor
        rw [← Option.some.inj h]
        exact .startRoot hstack hroots hcolor
      · rename_i hcolor
        rw [← Option.some.inj h]
        exact .skipRoot hstack hroots hcolor

theorem Step.step_eq {s t : State V E} (h : Step G s t) : step G s = some t := by
  unfold step
  cases h with
  | treeEdge hstack hcolor => simp only [hstack, hcolor]
  | backEdge hstack hcolor => simp only [hstack, hcolor]
  | forwardOrCrossEdge hstack hcolor => simp only [hstack, hcolor]
  | finishVertex hstack => simp only [hstack]
  | startRoot hstack hroots hcolor => simp only [hstack, hroots, hcolor]
  | skipRoot hstack hroots hcolor => simp only [hstack, hroots]

/-- The search ends with an empty stack and no roots left. -/
theorem eq_nil_of_step_eq_none {s : State V E} (h : step G s = none) :
    s.stack = [] ∧ s.roots = [] := by
  unfold step at h
  split at h
  · split at h <;> exact absurd h (by simp)
  · exact absurd h (by simp)
  · rename_i hstack
    split at h
    · rename_i hroots
      exact ⟨hstack, hroots⟩
    · split at h <;> exact absurd h (by simp)

/-! ## The search ends -/

variable (G)

/-- `M` holds the roots and is closed under out-edges. -/
structure Universe (M : Finset V) (roots : List V) : Prop where
  roots_mem : ∀ r ∈ roots, r ∈ M
  target_mem : ∀ v ∈ M, ∀ e ∈ G.out v, G.target e ∈ M

/-- The work left: every root, every edge on the stack, and every undiscovered
vertex with its edges. -/
def work (M : Finset V) (s : State V E) : Nat :=
  s.roots.length + (s.stack.map fun f => f.2.length + 1).sum +
    ∑ v ∈ M with s.color v = .white, ((G.out v).length + 2)

variable {G}

/-- Discovering a vertex takes its share out of the work left. -/
theorem sum_white_update {M : Finset V} {color : V → Color} {v : V}
    (hv : v ∈ M) (hwhite : color v = .white) {c : Color} (hc : c ≠ .white) :
    (∑ w ∈ M with Function.update color v c w = .white,
        ((G.out w).length + 2)) + ((G.out v).length + 2) =
      ∑ w ∈ M with color w = .white, ((G.out w).length + 2) := by
  have hset : M.filter (fun w => color w = .white) =
      insert v (M.filter fun w => Function.update color v c w = .white) := by
    ext w
    by_cases hw : w = v
    · subst hw
      simp [hv, hwhite]
    · simp [hw]
  have hnotMem : v ∉ M.filter fun w => Function.update color v c w = .white := by
    simp [hc]
  rw [hset, Finset.sum_insert hnotMem, add_comm]

/-- Recolouring a discovered vertex leaves the white vertices as they are. -/
theorem filter_white_update {M : Finset V} {color : V → Color} {v : V}
    (hwhite : color v ≠ .white) {c : Color} (hc : c ≠ .white) :
    (M.filter fun w => Function.update color v c w = .white) =
      M.filter fun w => color w = .white := by
  refine Finset.filter_congr fun w _ => ?_
  by_cases hw : w = v
  · subst hw
    simp [hc, hwhite]
  · rw [Function.update_of_ne hw]

/-- The stack and the roots stay in the universe, and stack vertices are
discovered. -/
structure InUniverse (M : Finset V) (s : State V E) : Prop where
  roots : ∀ r ∈ s.roots, r ∈ M
  stack : ∀ f ∈ s.stack, f.1 ∈ M ∧ s.color f.1 ≠ .white ∧
    ∀ e ∈ f.2, e ∈ G.out f.1

omit [DecidableEq V] in
theorem InUniverse.init {M : Finset V} {roots : List V}
    (hM : Universe G M roots) :
    InUniverse (G := G) M (DepthFirstSearch.init roots) where
  roots := hM.roots_mem
  stack _ hf := absurd hf List.not_mem_nil

/-- Recolouring keeps discovered vertices discovered. -/
theorem ne_white_update {color : V → Color} {v w : V} {c : Color}
    (hw : color w ≠ .white) (hc : c ≠ .white) :
    Function.update color v c w ≠ .white := by
  rw [Function.update_apply]
  split_ifs
  · exact hc
  · exact hw

omit [DecidableEq V] in
/-- Examining an edge of the top frame keeps the frames as they should be. -/
theorem InUniverse.examine {M : Finset V} {s : State V E} {u : V} {e : E}
    {rem : List E} {rest : List (V × List E)}
    (hs : InUniverse (G := G) M s) (hstack : s.stack = (u, e :: rem) :: rest) :
    ∀ f ∈ (u, rem) :: rest, f.1 ∈ M ∧ s.color f.1 ≠ .white ∧
      ∀ d ∈ f.2, d ∈ G.out f.1 := by
  intro f hf
  rcases List.mem_cons.mp hf with rfl | hf
  · obtain ⟨hmem, hcolor, hout⟩ := hs.stack (u, e :: rem) (by simp [hstack])
    exact ⟨hmem, hcolor, fun d hd => hout d (List.mem_cons_of_mem _ hd)⟩
  · exact hs.stack f (by simp [hstack, hf])

/-- Every step keeps to the universe and leaves less work. -/
theorem InUniverse.step {M : Finset V} {roots : List V}
    (hM : Universe G M roots) {s t : State V E}
    (hs : InUniverse (G := G) M s) (h : Step G s t) :
    InUniverse (G := G) M t ∧ work G M t < work G M s := by
  cases h with
  | @treeEdge u e rem rest hstack hcolor =>
      have htop := hs.stack (u, e :: rem) (by simp [hstack])
      have htarget : G.target e ∈ M :=
        hM.target_mem u htop.1 e (htop.2.2 e List.mem_cons_self)
      have hwhite := sum_white_update (G := G) (c := .gray) htarget hcolor
        (by decide)
      refine ⟨⟨hs.roots, fun f hf => ?_⟩, ?_⟩
      · rcases List.mem_cons.mp hf with rfl | hf
        · exact ⟨htarget, by simp, fun _ hd => hd⟩
        · obtain ⟨hmem, hne, hout⟩ := hs.examine hstack f hf
          exact ⟨hmem, ne_white_update hne (by decide), hout⟩
      · simp only [work, hstack, List.map_cons, List.sum_cons,
          List.length_cons]
        omega
  | @backEdge u e rem rest hstack hcolor =>
      refine ⟨⟨hs.roots, hs.examine hstack⟩, ?_⟩
      simp only [work, hstack, List.map_cons, List.sum_cons, List.length_cons]
      omega
  | @forwardOrCrossEdge u e rem rest hstack hcolor =>
      refine ⟨⟨hs.roots, hs.examine hstack⟩, ?_⟩
      simp only [work, hstack, List.map_cons, List.sum_cons, List.length_cons]
      omega
  | @finishVertex u rest hstack =>
      have htop := hs.stack (u, []) (by simp [hstack])
      refine ⟨⟨hs.roots, fun f hf => ?_⟩, ?_⟩
      · obtain ⟨hmem, hne, hout⟩ := hs.stack f (by simp [hstack, hf])
        exact ⟨hmem, ne_white_update hne (by decide), hout⟩
      · simp only [work, hstack, List.map_cons, List.sum_cons,
          List.length_nil, filter_white_update htop.2.1 (c := .black)
            (by decide)]
        omega
  | @startRoot r roots hstack hroots hcolor =>
      have hr : r ∈ M := hs.roots r (by simp [hroots])
      have hwhite := sum_white_update (G := G) (c := .gray) hr hcolor
        (by decide)
      refine ⟨⟨fun q hq => hs.roots q (by simp [hroots, hq]),
        fun f hf => ?_⟩, ?_⟩
      · rw [List.mem_singleton.mp hf]
        exact ⟨hr, by simp, fun _ hd => hd⟩
      · simp only [work, hstack, hroots, List.map_cons, List.map_nil,
          List.sum_cons, List.sum_nil, List.length_cons]
        omega
  | @skipRoot r roots hstack hroots hcolor =>
      refine ⟨⟨fun q hq => hs.roots q (by simp [hroots, hq]), hs.stack⟩, ?_⟩
      simp only [work, hroots, List.length_cons]
      omega

/-- With fuel for all the work the search comes to its end. -/
theorem step_run_eq_none {M : Finset V} {roots : List V}
    (hM : Universe G M roots) {fuel : Nat}
    (hfuel : work G M (init roots : State V E) ≤ fuel) :
    step G (run (step G) fuel (init roots)) = none :=
  StepMachine.step_run_eq_none (P := InUniverse (G := G) M) (work G M)
    (fun _ _ hs h => hs.step hM (Step.of_step h)) (InUniverse.init hM) hfuel

end CoFlo.Verified.DepthFirstSearch
