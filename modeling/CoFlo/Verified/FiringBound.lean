import Mathlib.Algebra.Order.BigOperators.Group.Finset
import Mathlib.Data.Finset.Max
import Mathlib.Logic.Relation

/-!
# How often vertices fire

A vertex of a graph fires when as many tokens as it has in-edges have come in,
and puts a token on each of its out-edges then.  A run of this kind need not
follow the edges in any order, and they may lead round in circles.  Still the
numbers of firings have a bound when those of a few vertices have one and the
others are fed from them (`exists_bound`): a vertex that fires as often as any
has only in-neighbours that fire almost as often, and so back to a vertex whose
firings are bounded.
-/

namespace CoFlo.Verified.FiringBound

open Relation

variable {V E : Type*}

/-! ## The counter of one vertex -/

/-- A counter that goes down from `d` with every token, and is set to `d` again
instead of zero, stands at `left` after `tokens` tokens.  It never comes to zero
when it does not start above. -/
structure Counter (d left fired tokens : Int) : Prop where
  left_eq : left = d * (fired + 1) - tokens
  left_le : left ≤ d
  left_pos : 1 ≤ d → 1 ≤ left
  not_fired : d ≤ 0 → fired = 0

namespace Counter

theorem start (d : Int) : Counter d d 0 0 where
  left_eq := by omega
  left_le := Int.le_refl d
  left_pos hd := hd
  not_fired _ := rfl

variable {d left fired tokens : Int} (hd : Counter d left fired tokens)

include hd

theorem count (hleft : left ≠ 1) : Counter d (left - 1) fired (tokens + 1) where
  left_eq := by
    have heq := hd.left_eq
    omega
  left_le := by
    have hle := hd.left_le
    omega
  left_pos hpos := by
    have hleft' := hd.left_pos hpos
    omega
  not_fired := hd.not_fired

theorem fire (hleft : left = 1) : Counter d d (fired + 1) (tokens + 1) where
  left_eq := by
    have heq := hd.left_eq
    have hmul : d * (fired + 1 + 1) = d * (fired + 1) + d := by
      rw [Int.mul_add, Int.mul_one]
    omega
  left_le := Int.le_refl d
  left_pos hpos := hpos
  not_fired hzero := by
    have hle := hd.left_le
    omega

/-- All firings have been paid for. -/
theorem mul_fired_le : d * fired ≤ tokens := by
  have heq := hd.left_eq
  have hle := hd.left_le
  rw [Int.mul_add, Int.mul_one] at heq
  omega

end Counter

/-! ## All vertices together -/

/-- An in-edge of `v` comes from `u`. -/
def Feeds (ins : V → Finset E) (source : E → V) (u v : V) : Prop :=
  ∃ e ∈ ins v, source e = u

/-- The numbers of firings are at most `K` in `base`.  Elsewhere they are paid
for by tokens on the in-edges, and `K` more. -/
structure Fed (ins : V → Finset E) (source : E → V) (base : Set V) (K : Nat)
    (x : V → Nat) : Prop where
  le_of_mem : ∀ v ∈ base, x v ≤ K
  le_sum : ∀ v, v ∉ base →
    (ins v).card * x v ≤ ∑ e ∈ ins v, x (source e) + K

variable {ins : V → Finset E} {source : E → V} {base : Set V} {K : Nat}
  {x : V → Nat}

/-- An in-neighbour falls behind the maximum by a multiple of what the vertex
does. -/
theorem Fed.behind (hx : Fed ins source base K x) {X : Nat} (hX : ∀ v, x v ≤ X)
    {v : V} (hv : v ∉ base) {e : E} (he : e ∈ ins v) :
    X - x (source e) ≤ (ins v).card * (X - x v) + K := by
  classical
  have hfed := hx.le_sum v hv
  have hothers : ∑ d ∈ (ins v).erase e, x (source d) ≤
      ((ins v).card - 1) * X := by
    have hle := Finset.sum_le_card_nsmul ((ins v).erase e)
      (fun d => x (source d)) X fun d _ => hX (source d)
    rwa [Finset.card_erase_of_mem he] at hle
  have hsum := Finset.add_sum_erase (ins v) (fun d => x (source d)) he
  have hpos : 0 < (ins v).card := Finset.card_pos.mpr ⟨e, he⟩
  obtain ⟨n, hn⟩ : ∃ n, (ins v).card = n + 1 := ⟨_, (Nat.sub_add_cancel hpos).symm⟩
  rw [hn, Nat.add_sub_cancel] at hothers
  rw [hn] at hfed ⊢
  have hall : (n + 1) * X = n * X + X := Nat.succ_mul n X
  rw [Nat.mul_sub]
  omega

/-- Where the firings lead back to `base`, the maximum is not far from `K`
unless it is far from the number of firings. -/
theorem exists_slack (ins : V → Finset E) (source : E → V) (base : Set V)
    (K : Nat) {u v : V} (hu : u ∈ base) (huv : ReflTransGen (Feeds ins source) u v) :
    ∃ a b, ∀ x X, Fed ins source base K x → (∀ w, x w ≤ X) →
      X ≤ a * (X - x v) + b := by
  have hbase : ∀ w ∈ base, ∃ a b, ∀ x X, Fed ins source base K x →
      (∀ w, x w ≤ X) → X ≤ a * (X - x w) + b := by
    intro w hw
    refine ⟨1, K, fun x X hx hX => ?_⟩
    have hle := hx.le_of_mem w hw
    omega
  induction huv with
  | refl => exact hbase u hu
  | @tail w v _ hfeeds ih =>
      by_cases hv : v ∈ base
      · exact hbase v hv
      · obtain ⟨a, b, hab⟩ := ih
        obtain ⟨e, he, rfl⟩ := hfeeds
        refine ⟨a * (ins v).card, a * K + b, fun x X hx hX => ?_⟩
        calc X ≤ a * (X - x (source e)) + b := hab x X hx hX
          _ ≤ a * ((ins v).card * (X - x v) + K) + b :=
            Nat.add_le_add_right
              (Nat.mul_le_mul_left a (hx.behind hX hv he)) b
          _ = a * (ins v).card * (X - x v) + (a * K + b) := by
            rw [Nat.mul_add, Nat.mul_assoc, Nat.add_assoc]

/-- The firings of finitely many vertices that are fed from `base` have a bound,
which the run has nothing to do with. -/
theorem exists_bound (ins : V → Finset E) (source : E → V) (base : Set V)
    (K : Nat) (L : Finset V)
    (hL : ∀ v ∈ L, ∃ u ∈ base, ReflTransGen (Feeds ins source) u v) :
    ∃ B, ∀ x, Fed ins source base K x → (∀ v, v ∉ L → x v = 0) →
      ∀ v, x v ≤ B := by
  have hslack : ∀ v, ∃ a b, v ∈ L → ∀ x X, Fed ins source base K x →
      (∀ w, x w ≤ X) → X ≤ a * (X - x v) + b := by
    intro v
    by_cases hv : v ∈ L
    · obtain ⟨u, hu, huv⟩ := hL v hv
      obtain ⟨a, b, hab⟩ := exists_slack ins source base K hu huv
      exact ⟨a, b, fun _ => hab⟩
    · exact ⟨0, 0, fun hmem => absurd hmem hv⟩
  choose a b hab using hslack
  refine ⟨∑ v ∈ L, b v, fun x hx hzero v => ?_⟩
  by_cases hempty : L.Nonempty
  · -- At the vertex of `L` that fires most nothing is lost.
    obtain ⟨m, hm, hmax⟩ := L.exists_max_image x hempty
    have hX : ∀ w, x w ≤ x m := by
      intro w
      by_cases hw : w ∈ L
      · exact hmax w hw
      · rw [hzero w hw]
        exact Nat.zero_le _
    have hle := hab m hm x (x m) hx hX
    rw [Nat.sub_self, Nat.mul_zero, Nat.zero_add] at hle
    calc x v ≤ x m := hX v
      _ ≤ b m := hle
      _ ≤ ∑ v ∈ L, b v := Finset.single_le_sum (fun _ _ => Nat.zero_le _) hm
  · rw [Finset.not_nonempty_iff_eq_empty] at hempty
    rw [hzero v (by rw [hempty]; exact Finset.notMem_empty v)]
    exact Nat.zero_le _

end CoFlo.Verified.FiringBound
