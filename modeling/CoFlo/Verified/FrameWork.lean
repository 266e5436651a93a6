import CoFlo.Verified.ContextSearch
import Mathlib.Algebra.Order.BigOperators.Group.List
import Mathlib.Data.Finset.Card

/-!
# What a search with frames has left to do

A frame that is pushed knows nothing, so the vertices of a procedure may be
discovered once more for every call of it.  The search has something left to do
for every edge on its stack and for every vertex that is still white in one of
its frames: discovering it there puts its edges on the stack, some of which
push frames of their own.  When frames have levels, and a vertex discovered in
a frame calls only what has a lower level, these costs are numbers, and every
step brings their sum down (`Step.cost_lt`).
-/

namespace CoFlo.Verified.ContextSearch

open CoFlo.Verified.DepthFirstSearch (Color)

variable {V E : Type*}

/-- What may have to be done for a vertex that is discovered in a frame of this
level, when there are `n` vertices and each has at most `degree` edges. -/
def vertexCost (degree n : Nat) : Nat → Nat
  | 0 => degree + 2
  | level + 1 => degree * (1 + n * vertexCost degree n level) + 2

theorem vertexCost_mono (degree n : Nat) {l m : Nat} (hlm : l ≤ m) :
    vertexCost degree n l ≤ vertexCost degree n m := by
  have hsucc : ∀ l, vertexCost degree n l ≤ vertexCost degree n (l + 1) := by
    intro l
    induction l with
    | zero =>
        show degree + 2 ≤ degree * (1 + n * (degree + 2)) + 2
        have hle : degree * 1 ≤ degree * (1 + n * (degree + 2)) :=
          Nat.mul_le_mul_left _ (Nat.le_add_right _ _)
        omega
    | succ l ih =>
        show degree * (1 + n * vertexCost degree n l) + 2 ≤
          degree * (1 + n * vertexCost degree n (l + 1)) + 2
        have hle : n * vertexCost degree n l ≤ n * vertexCost degree n (l + 1) :=
          Nat.mul_le_mul_left n ih
        exact Nat.add_le_add_right
          (Nat.mul_le_mul_left degree (Nat.add_le_add_left hle 1)) 2
  exact monotone_nat_of_le_succ hsucc hlm

section cost

variable (G : Incidence V E) (level : Option V → Nat) (M : Finset V)
  (degree : Nat)

/-- What may have to be done for an edge; one that opens a call pushes a frame
in which all vertices are white. -/
def edgeCost (e : E) : Nat :=
  match G.kind e with
  | .call c => M.card * vertexCost degree M.card (level (some c)) + 1
  | _ => 1

/-- What may have to be done for a vertex on the stack. -/
def itemCost (item : V × List E) : Nat :=
  (item.2.map (edgeCost G level M degree)).sum + 1

/-- What may have to be done for the vertices that are white in a frame. -/
def frameCost (f : Frame V) : Nat :=
  vertexCost degree M.card (level f.call) *
    (M.filter fun v => f.color v = .white).card

/-- What the search may have left to do. -/
def cost (s : State V E) : Nat :=
  (s.stack.map (itemCost G level M degree)).sum +
    (s.frames.map (frameCost level M degree)).sum

variable {G level M degree}

theorem edgeCost_pos (e : E) : 0 < edgeCost G level M degree e := by
  unfold edgeCost
  cases G.kind e with
  | call c => exact Nat.succ_pos _
  | _ => exact Nat.one_pos

theorem itemCost_cons (u : V) (e : E) (rem : List E) :
    itemCost G level M degree (u, e :: rem) =
      edgeCost G level M degree e + itemCost G level M degree (u, rem) := by
  show (edgeCost G level M degree e +
    (rem.map (edgeCost G level M degree)).sum) + 1 = _
  exact Nat.add_assoc _ _ 1

/-- A vertex that is discovered costs less than is put aside for it. -/
theorem itemCost_lt {v : V} (hdegree : (G.out v).length ≤ degree) {l : Nat}
    (hcalls : ∀ e ∈ G.out v, ∀ c, G.kind e = .call c → level (some c) < l) :
    itemCost G level M degree (v, G.out v) < vertexCost degree M.card l := by
  have hsum : ∀ m, (∀ e ∈ G.out v, edgeCost G level M degree e ≤ m) →
      ((G.out v).map (edgeCost G level M degree)).sum ≤ degree * m := by
    intro m hm
    have hle := List.sum_le_card_nsmul
      ((G.out v).map (edgeCost G level M degree)) m (by simpa using hm)
    rw [List.length_map] at hle
    exact hle.trans (Nat.mul_le_mul_right m hdegree)
  cases l with
  | zero =>
      have hone := hsum 1 fun e he => by
        unfold edgeCost
        cases hkind : G.kind e with
        | call c => exact absurd (hcalls e he c hkind) (Nat.not_lt_zero _)
        | _ => exact Nat.le_refl 1
      show ((G.out v).map (edgeCost G level M degree)).sum + 1 < degree + 2
      omega
  | succ l =>
      have hmany := hsum (1 + M.card * vertexCost degree M.card l) fun e he => by
        unfold edgeCost
        cases hkind : G.kind e with
        | call c =>
            have hle : level (some c) ≤ l :=
              Nat.le_of_lt_succ (hcalls e he c hkind)
            have hcost := Nat.mul_le_mul_left M.card
              (vertexCost_mono degree M.card hle)
            show _ + 1 ≤ _
            omega
        | _ => exact Nat.le_add_right 1 _
      show ((G.out v).map (edgeCost G level M degree)).sum + 1 <
        degree * (1 + M.card * vertexCost degree M.card l) + 2
      omega

variable [DecidableEq V]

/-- A vertex that is discovered in the top frame is not white there any more. -/
theorem frameCost_gray {v : V} {f : Frame V} (hv : v ∈ M)
    (hwhite : f.color v = .white) :
    frameCost level M degree ⟨f.call, Function.update f.color v .gray⟩ +
        vertexCost degree M.card (level f.call) =
      frameCost level M degree f := by
  have hset : M.filter (fun w => f.color w = .white) =
      insert v (M.filter fun w => Function.update f.color v .gray w = .white) := by
    ext w
    by_cases hw : w = v
    · subst hw
      simp [hv, hwhite]
    · simp [hw]
  have hnotMem :
      v ∉ M.filter fun w => Function.update f.color v .gray w = .white := by
    simp
  unfold frameCost
  rw [hset, Finset.card_insert_of_notMem hnotMem, Nat.mul_succ]

/-- No vertex gets white. -/
theorem frameCost_black (v : V) (f : Frame V) :
    frameCost level M degree ⟨f.call, Function.update f.color v .black⟩ ≤
      frameCost level M degree f := by
  refine Nat.mul_le_mul_left _ (Finset.card_le_card fun w hw => ?_)
  rw [Finset.mem_filter] at hw ⊢
  refine ⟨hw.1, ?_⟩
  by_cases hwv : w = v
  · subst hwv
    exact absurd hw.2 (by simp)
  · simpa [hwv] using hw.2

theorem sum_paint_black (v : V) (frames : List (Frame V)) :
    ((paint v .black frames).map (frameCost level M degree)).sum ≤
      (frames.map (frameCost level M degree)).sum := by
  cases frames with
  | nil => exact Nat.le_refl _
  | cons f frames => exact Nat.add_le_add_right (frameCost_black v f) _

/-- What an edge that is let through costs, with the frame it pushes. -/
theorem sum_framesFor {e : E} {frames frames' : List (Frame V)}
    (hpass : framesFor frames (G.kind e) = some frames') :
    (frames'.map (frameCost level M degree)).sum + 1 ≤
      edgeCost G level M degree e +
        (frames.map (frameCost level M degree)).sum := by
  unfold edgeCost
  cases hkind : G.kind e with
  | closed =>
      rw [hkind] at hpass
      exact absurd hpass (by simp [framesFor])
  | plain =>
      rw [hkind] at hpass
      rw [← Option.some.inj hpass]
      exact Nat.le_of_eq (Nat.add_comm _ 1)
  | call c =>
      rw [hkind] at hpass
      rw [← Option.some.inj hpass]
      have hfresh : frameCost level M degree ⟨some c, fun _ => .white⟩ =
          M.card * vertexCost degree M.card (level (some c)) := by
        unfold frameCost
        rw [Finset.filter_true_of_mem fun _ _ => rfl, Nat.mul_comm]
      rw [List.map_cons, List.sum_cons, hfresh]
      show _ ≤ _ + 1 + _
      omega
  | ret c =>
      rw [hkind] at hpass
      cases frames with
      | nil => exact absurd hpass (by simp [framesFor])
      | cons f frames =>
          simp only [framesFor, Option.ite_none_right_eq_some,
            Option.some.injEq] at hpass
          rw [← hpass.2, List.map_cons, List.sum_cons]
          show _ + 1 ≤ 1 + (_ + _)
          omega

/-- Every step brings the costs down, as long as the vertices discovered in a
frame call only what has a lower level. -/
theorem Step.cost_lt {s t : State V E} (h : Step G s t)
    (hdegree : ∀ v, (G.out v).length ≤ degree)
    (htree : ∀ u e rem rest f frames, s.stack = (u, e :: rem) :: rest →
      framesFor s.frames (G.kind e) = some (f :: frames) →
        f.color (G.target e) = .white → G.target e ∈ M ∧
          ∀ d ∈ G.out (G.target e), ∀ c, G.kind d = .call c →
            level (some c) < level f.call) :
    cost G level M degree t < cost G level M degree s := by
  have hcost : ∀ (u : V) (e : E) (rem : List E) (rest : List (V × List E)),
      s.stack = (u, e :: rem) :: rest → cost G level M degree s =
        edgeCost G level M degree e + itemCost G level M degree (u, rem) +
          (rest.map (itemCost G level M degree)).sum +
            (s.frames.map (frameCost level M degree)).sum := by
    intro u e rem rest hstack
    rw [cost, hstack, List.map_cons, List.sum_cons, itemCost_cons]
  cases h with
  | @finish u rest hstack =>
      have hle : ((paint u .black s.frames).map (frameCost level M degree)).sum ≤
          (s.frames.map (frameCost level M degree)).sum := sum_paint_black u _
      show (rest.map (itemCost G level M degree)).sum +
          ((paint u .black s.frames).map (frameCost level M degree)).sum < _
      rw [cost, hstack, List.map_cons, List.sum_cons, itemCost, List.map_nil,
        List.sum_nil]
      omega
  | @skip u e rem rest hstack hpass =>
      have hpos : 0 < edgeCost G level M degree e := edgeCost_pos e
      rw [hcost u e rem rest hstack]
      show itemCost G level M degree (u, rem) +
          (rest.map (itemCost G level M degree)).sum +
            (s.frames.map (frameCost level M degree)).sum < _
      omega
  | @cross u e rem rest frames hstack hpass hwhite =>
      have hle : (frames.map (frameCost level M degree)).sum + 1 ≤
          edgeCost G level M degree e +
            (s.frames.map (frameCost level M degree)).sum := sum_framesFor hpass
      rw [hcost u e rem rest hstack]
      show itemCost G level M degree (u, rem) +
          (rest.map (itemCost G level M degree)).sum +
            (frames.map (frameCost level M degree)).sum < _
      omega
  | @tree u e rem rest frames hstack hpass hwhite =>
      cases frames with
      | nil => exact absurd hwhite Bool.false_ne_true
      | cons f frames =>
          have hcolor : f.color (G.target e) = .white := by
            simpa [isWhite] using hwhite
          obtain ⟨hmem, hcalls⟩ := htree u e rem rest f frames hstack hpass hcolor
          have hitem : itemCost G level M degree (G.target e, G.out (G.target e)) <
              vertexCost degree M.card (level f.call) :=
            itemCost_lt (hdegree (G.target e)) hcalls
          have hgray : frameCost level M degree
                ⟨f.call, Function.update f.color (G.target e) .gray⟩ +
              vertexCost degree M.card (level f.call) =
                frameCost level M degree f := frameCost_gray hmem hcolor
          have hle : ((f :: frames).map (frameCost level M degree)).sum + 1 ≤
              edgeCost G level M degree e +
                (s.frames.map (frameCost level M degree)).sum :=
            sum_framesFor hpass
          rw [hcost u e rem rest hstack, cost, paint]
          simp only [List.map_cons, List.sum_cons] at hle ⊢
          omega

end cost

end CoFlo.Verified.ContextSearch
