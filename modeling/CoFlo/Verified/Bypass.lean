import Mathlib.Logic.Relation

/-!
# Taking a point out of a relation

Contracting a vertex of a graph leaves a relation in which every passage
through the vertex has become one step.  Between the points that stay, the old
and the new relation reach the same.
-/

namespace CoFlo.Verified.Bypass

open Relation

variable {V : Type*}

/-- `R'` is `R` with the point `v` bypassed. -/
structure Bypasses (R R' : V → V → Prop) (v : V) : Prop where
  of_step : ∀ u w, R' u w → u ≠ v ∧ w ≠ v ∧ (R u w ∨ R u v ∧ R v w)
  step : ∀ u w, R u w → u ≠ v → w ≠ v → R' u w
  bypass : ∀ u w, R u v → R v w → u ≠ v → w ≠ v → R' u w

variable {R R' : V → V → Prop} {v : V}

/-- A chain of `R` ends where a chain of `R'` does, or at `v` right after
one. -/
theorem Bypasses.exists_chain (h : Bypasses R R' v) {u w : V} (hu : u ≠ v)
    (huw : ReflTransGen R u w) :
    (w ≠ v → ReflTransGen R' u w) ∧
      (w = v → ∃ x, x ≠ v ∧ ReflTransGen R' u x ∧ R x v) := by
  induction huw with
  | refl => exact ⟨fun _ => .refl, fun heq => absurd heq hu⟩
  | @tail y w _ hstep ih =>
      by_cases hy : y = v
      · subst hy
        obtain ⟨x, hx, hux, hxy⟩ := ih.2 rfl
        refine ⟨fun hw => hux.tail (h.bypass x w hxy hstep hx hw), ?_⟩
        rintro rfl
        exact ⟨x, hx, hux, hxy⟩
      · refine ⟨fun hw => (ih.1 hy).tail (h.step y w hstep hy hw), ?_⟩
        rintro rfl
        exact ⟨y, hy, ih.1 hy, hstep⟩

theorem Bypasses.reflTransGen_iff (h : Bypasses R R' v) {u w : V} (hu : u ≠ v)
    (hw : w ≠ v) : ReflTransGen R' u w ↔ ReflTransGen R u w := by
  constructor
  · intro huw
    induction huw with
    | refl => exact .refl
    | @tail y w _ hstep ih =>
        obtain ⟨hy, _, hR | ⟨hyv, hvw⟩⟩ := h.of_step y w hstep
        · exact (ih hy).tail hR
        · exact ((ih hy).tail hyv).tail hvw
  · exact fun huw => (h.exists_chain hu huw).1 hw

/-- Two relations that agree on a set the first one does not lead out of reach
the same from within it. -/
theorem reflTransGen_iff_of_closed {S T : V → V → Prop} {L : V → Prop}
    (hST : ∀ u w, L u → (S u w ↔ T u w)) (hclosed : ∀ u w, L u → S u w → L w)
    {u w : V} (hu : L u) : ReflTransGen S u w ↔ ReflTransGen T u w := by
  constructor
  · intro h
    suffices hboth : ReflTransGen T u w ∧ L w from hboth.1
    induction h with
    | refl => exact ⟨.refl, hu⟩
    | @tail y w _ hstep ih =>
        exact ⟨ih.1.tail ((hST y w ih.2).mp hstep), hclosed y w ih.2 hstep⟩
  · intro h
    suffices hboth : ReflTransGen S u w ∧ L w from hboth.1
    induction h with
    | refl => exact ⟨.refl, hu⟩
    | @tail y w _ hstep ih =>
        have hS := (hST y w ih.2).mpr hstep
        exact ⟨ih.1.tail hS, hclosed y w ih.2 hS⟩

/-! ## Skipping all points of a set -/

section skip

variable (start next : V → V → Prop) (gone : V → Prop)

/-- On through points that are gone. -/
def Through (u w : V) : Prop :=
  gone u ∧ next u w

/-- From a point that stays to the next one: a first step, and on through the
points that are gone. -/
def Skip (u w : V) : Prop :=
  ¬ gone u ∧ ∃ x, start u x ∧ ReflTransGen (Through next gone) x w ∧ ¬ gone w

/-- The steps that make up `Skip`. -/
def Stepwise (u w : V) : Prop :=
  ¬ gone u ∧ start u w ∨ gone u ∧ next u w

variable {start next gone}

theorem Skip.stepwise {u w : V} (h : Skip start next gone u w) :
    TransGen (Stepwise start next gone) u w := by
  obtain ⟨hu, x, hstart, hthrough, _⟩ := h
  have hwalk : ReflTransGen (Stepwise start next gone) x w :=
    ReflTransGen.mono (fun _ _ => Or.inr) _ _ hthrough
  exact TransGen.head' (Or.inl ⟨hu, hstart⟩) hwalk

/-- A chain from a point that stays comes to a last one, and goes on from there
through points that are gone. -/
theorem exists_last {v x : V} (hv : ¬ gone v)
    (h : TransGen (Stepwise start next gone) v x) :
    ∃ u, ¬ gone u ∧ ReflTransGen (Skip start next gone) v u ∧
      ∃ y, start u y ∧ ReflTransGen (Through next gone) y x := by
  induction h with
  | single hstep =>
      rcases hstep with ⟨_, hstart⟩ | ⟨hgone, _⟩
      · exact ⟨v, hv, .refl, _, hstart, .refl⟩
      · exact absurd hgone hv
  | @tail x z _ hstep ih =>
      obtain ⟨u, hu, hvu, y, hstart, hthrough⟩ := ih
      rcases hstep with ⟨hx, hstart'⟩ | hnext
      · have hskip : Skip start next gone u x := ⟨hu, y, hstart, hthrough, hx⟩
        exact ⟨x, hx, hvu.tail hskip, z, hstart', .refl⟩
      · exact ⟨u, hu, hvu, y, hstart, hthrough.tail hnext⟩

/-- Skipping leaves no cycle exactly when no point that stays is on a cycle. -/
theorem forall_not_transGen_skip_iff :
    (∀ v, ¬ TransGen (Skip start next gone) v v) ↔
      ∀ v, ¬ gone v → ¬ TransGen (Stepwise start next gone) v v := by
  constructor
  · intro h v hv hcycle
    obtain ⟨u, hu, hvu, y, hstart, hthrough⟩ := exists_last hv hcycle
    have hskip : Skip start next gone u v := ⟨hu, y, hstart, hthrough, hv⟩
    exact h v (TransGen.tail' hvu hskip)
  · intro h v hcycle
    have hv : ¬ gone v := by
      obtain ⟨w, hskip, _⟩ := TransGen.head'_iff.mp hcycle
      exact hskip.1
    exact h v hv (TransGen.closed (fun _ _ => Skip.stepwise) v v hcycle)

end skip

end CoFlo.Verified.Bypass
