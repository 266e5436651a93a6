import Mathlib.Order.Basic

/-!
# Deterministic step machines

A loop whose body is a partial function `step : σ → Option σ` stops in the
first state without a successor.  `Reaches` collects the states such a loop
passes through, `run` executes it with fuel, and `Terminates` says that it
stops.  Invariants go along runs one step at a time (`Reaches.invariant`), and
a measure that goes down with every step bounds the fuel
(`step_run_eq_none`).
-/

namespace CoFlo.Verified.StepMachine

variable {σ : Type*} (step : σ → Option σ)

/-- The states a run from `s` passes through. -/
inductive Reaches (s : σ) : σ → Prop where
  | refl : Reaches s s
  | tail {t u : σ} (hst : Reaches s t) (htu : step t = some u) : Reaches s u

/-- The run from `s` ends. -/
def Terminates (s : σ) : Prop :=
  ∃ t, Reaches step s t ∧ step t = none

/-- Runs at most `fuel` steps. -/
def run : Nat → σ → σ
  | 0, s => s
  | fuel + 1, s =>
      match step s with
      | none => s
      | some t => run fuel t

variable {step}

theorem Reaches.trans {s t u : σ} (hst : Reaches step s t)
    (htu : Reaches step t u) : Reaches step s u := by
  induction htu with
  | refl => exact hst
  | tail _ hstep ih => exact .tail ih hstep

theorem Reaches.head {s t u : σ} (hst : step s = some t)
    (htu : Reaches step t u) : Reaches step s u :=
  Reaches.trans (.tail .refl hst) htu

/-- What holds initially and is kept by every step holds along a run. -/
theorem Reaches.invariant {P : σ → Prop}
    (hstep : ∀ t u, P t → step t = some u → P u) {s t : σ}
    (hst : Reaches step s t) (hs : P s) : P t := by
  induction hst with
  | refl => exact hs
  | tail _ hstep' ih => exact hstep _ _ ih hstep'

/-- The same rule when the step may use that the state is reached. -/
theorem Reaches.invariant_of_reaches {P : σ → Prop} {s : σ}
    (hstep : ∀ t u, Reaches step s t → P t → step t = some u → P u) {t : σ}
    (hst : Reaches step s t) (hs : P s) : P t := by
  induction hst with
  | refl => exact hs
  | tail hreach hstep' ih => exact hstep _ _ hreach ih hstep'

theorem run_of_step_eq_none {s : σ} (hs : step s = none) (fuel : Nat) :
    run step fuel s = s := by
  cases fuel with
  | zero => rfl
  | succ fuel => simp only [run, hs]

theorem run_succ {s t : σ} (hst : step s = some t) (fuel : Nat) :
    run step (fuel + 1) s = run step fuel t := by
  simp only [run, hst]

theorem reaches_run (fuel : Nat) (s : σ) : Reaches step s (run step fuel s) := by
  induction fuel generalizing s with
  | zero => exact .refl
  | succ fuel ih =>
      cases hs : step s with
      | none =>
          simp only [run, hs]
          exact .refl
      | some t =>
          simp only [run, hs]
          exact .head hs (ih t)

/-- Fuel at least the value of a measure that every step decreases is enough. -/
theorem step_run_eq_none {P : σ → Prop} (μ : σ → Nat)
    (hstep : ∀ t u, P t → step t = some u → P u ∧ μ u < μ t) {fuel : Nat}
    {s : σ} (hs : P s) (hfuel : μ s ≤ fuel) :
    step (run step fuel s) = none := by
  induction fuel generalizing s with
  | zero =>
      cases hnext : step s with
      | none => simp only [run, hnext]
      | some t =>
          have hlt := (hstep s t hs hnext).2
          omega
  | succ fuel ih =>
      cases hnext : step s with
      | none => simp only [run, hnext]
      | some t =>
          obtain ⟨ht, hlt⟩ := hstep s t hs hnext
          simp only [run, hnext]
          exact ih ht (by omega)

/-- With enough fuel a run comes to its end. -/
theorem exists_fuel {s t : σ} (hst : Reaches step s t) (ht : step t = none) :
    ∃ fuel, ∀ n ≥ fuel, run step n s = t := by
  have hrun : ∃ k, ∀ n, run step (n + k) s = run step n t := by
    clear ht
    induction hst with
    | refl => exact ⟨0, fun _ => rfl⟩
    | tail _ htu ih =>
        obtain ⟨k, hk⟩ := ih
        refine ⟨k + 1, fun n => ?_⟩
        rw [show n + (k + 1) = n + 1 + k by omega, hk, run_succ htu]
  obtain ⟨k, hk⟩ := hrun
  refine ⟨k, fun n hn => ?_⟩
  rw [← Nat.sub_add_cancel hn, hk, run_of_step_eq_none ht]

theorem terminates_of_run {fuel : Nat} {s : σ}
    (hs : step (run step fuel s) = none) : Terminates step s :=
  ⟨_, reaches_run fuel s, hs⟩

variable (step) in
/-- Looks at every state of a run, up to the one in which it ends. -/
def checkRun (P : σ → Bool) : Nat → σ → Bool
  | 0, _ => false
  | fuel + 1, s => P s && (step s).all (checkRun P fuel)

theorem Reaches.of_checkRun {P : σ → Bool} {fuel : Nat} {s t : σ}
    (hst : Reaches step s t) (hs : checkRun step P fuel s = true) : P t = true := by
  obtain ⟨n, hn⟩ := hst.invariant (P := fun s => ∃ n, checkRun step P n s = true)
    (fun t u ht htu => by
      obtain ⟨n, hn⟩ := ht
      cases n with
      | zero => exact absurd hn (by simp [checkRun])
      | succ n =>
          rw [checkRun, Bool.and_eq_true, htu, Option.all_some] at hn
          exact ⟨n, hn.2⟩) ⟨fuel, hs⟩
  cases n with
  | zero => exact absurd hn (by simp [checkRun])
  | succ n =>
      rw [checkRun, Bool.and_eq_true] at hn
      exact hn.1

/-- A measure that every step decreases makes the run end. -/
theorem terminates_of_measure {P : σ → Prop} (μ : σ → Nat)
    (hstep : ∀ t u, P t → step t = some u → P u ∧ μ u < μ t) {s : σ}
    (hs : P s) : Terminates step s :=
  terminates_of_run (step_run_eq_none μ hstep hs (Nat.le_refl _))

/-- The same for a measure of something that goes along with the run, until
the run may come to its end. -/
theorem terminates_of_simulation {κ : Type*} {R : σ → κ → Prop} (μ : κ → Nat)
    (hstep : ∀ t k u, R t k → step t = some u →
      step u = none ∨ ∃ k', R u k' ∧ μ k' < μ k) {s : σ} {k : κ} (hs : R s k) :
    Terminates step s := by
  induction hμ : μ k using Nat.strongRecOn generalizing s k with
  | ind n ih =>
      cases hnext : step s with
      | none => exact ⟨s, .refl, hnext⟩
      | some t =>
          rcases hstep s k t hs hnext with hend | ⟨k', hk', hlt⟩
          · exact ⟨t, .tail .refl hnext, hend⟩
          · obtain ⟨u, htu, hu⟩ := ih (μ k') (hμ ▸ hlt) hk' rfl
            exact ⟨u, .head hnext htu, hu⟩

/-! ## Runs that do not end -/

/-- The machine can take so many steps. -/
def CanStep (step : σ → Option σ) : Nat → σ → Prop
  | 0, _ => True
  | n + 1, s => ∃ t, step s = some t ∧ CanStep step n t

theorem CanStep.of_succ {n : Nat} {s : σ} (hs : CanStep step (n + 1) s) :
    CanStep step n s := by
  induction n generalizing s with
  | zero => trivial
  | succ n ih =>
      obtain ⟨t, ht, hcan⟩ := hs
      exact ⟨t, ht, ih hcan⟩

/-- A run that can take any number of steps does not end. -/
theorem not_terminates_of_canStep {s : σ} (hs : ∀ n, CanStep step n s) :
    ¬ Terminates step s := by
  rintro ⟨t, hst, ht⟩
  have hcan := hst.invariant (P := fun s => ∀ n, CanStep step n s)
    (fun t u htcan htu n => by
      obtain ⟨u', hu', hcan⟩ := htcan (n + 1)
      rw [Option.some.inj (htu.symm.trans hu')]
      exact hcan) hs
  obtain ⟨u, hu, -⟩ := hcan 1
  rw [ht] at hu
  exact absurd hu (by simp)

theorem CanStep.of_reaches {s t : σ} (hst : Reaches step s t) (n : Nat)
    (ht : CanStep step n t) : CanStep step n s := by
  induction hst with
  | refl => exact ht
  | tail _ htu ih => exact ih (CanStep.of_succ ⟨_, htu, ht⟩)

/-- A run does not end when it comes back to a state that can do what an earlier one
could do. -/
theorem not_terminates_of_recurs {R : σ → σ → Prop}
    (hR : ∀ s t s', R s t → step s = some s' → ∃ t', step t = some t' ∧ R s' t')
    {s₀ s s' t : σ} (hs : Reaches step s₀ s) (hnext : step s = some s')
    (hreach : Reaches step s' t) (hst : R s t) : ¬ Terminates step s₀ := by
  have hsim : ∀ n s t, R s t → CanStep step n s → CanStep step n t := by
    intro n
    induction n with
    | zero => exact fun _ _ _ _ => trivial
    | succ n ih =>
        rintro s t hst ⟨s', hs', hcan⟩
        obtain ⟨t', ht', hst'⟩ := hR s t s' hst hs'
        exact ⟨t', ht', ih s' t' hst' hcan⟩
  have hcan : ∀ n, CanStep step n s := by
    intro n
    induction n with
    | zero => trivial
    | succ n ih =>
        exact ⟨s', hnext, CanStep.of_reaches hreach n (hsim n s t hst ih)⟩
  exact not_terminates_of_canStep fun n => CanStep.of_reaches hs n (hcan n)

/-! ## A run as a sequence -/

variable (step)

/-- The state after `n` steps; a run that has ended stays where it is. -/
def trajectory (s : σ) : Nat → σ
  | 0 => s
  | n + 1 => (step (trajectory s n)).getD (trajectory s n)

variable {step}

theorem trajectory_succ {s t : σ} {n : Nat}
    (ht : step (trajectory step s n) = some t) :
    trajectory step s (n + 1) = t := by
  rw [trajectory, ht, Option.getD_some]

theorem trajectory_of_step_eq_none {s : σ} {n m : Nat} (hnm : n ≤ m)
    (hn : step (trajectory step s n) = none) :
    trajectory step s m = trajectory step s n := by
  induction hnm with
  | refl => rfl
  | step _ ih => rw [trajectory, ih, hn, Option.getD_none]

/-- What every step keeps that is taken under a condition holds as long as the
steps are taken under it. -/
theorem trajectory_invariant {P C : σ → Prop}
    (hstep : ∀ t u, P t → C t → step t = some u → P u) {s : σ} (hs : P s) (n : Nat)
    (hC : ∀ i < n, C (trajectory step s i)) : P (trajectory step s n) := by
  induction n with
  | zero => exact hs
  | succ n ih =>
      have hn := ih fun i hi => hC i (Nat.lt_succ_of_lt hi)
      cases hnext : step (trajectory step s n) with
      | none =>
          rw [trajectory, hnext]
          exact hn
      | some t =>
          rw [trajectory_succ hnext]
          exact hstep _ t hn (hC n (Nat.lt_succ_self n)) hnext

theorem Reaches.exists_trajectory {s t : σ} (hst : Reaches step s t) :
    ∃ n, trajectory step s n = t := by
  induction hst with
  | refl => exact ⟨0, rfl⟩
  | tail _ htu ih =>
      obtain ⟨n, rfl⟩ := ih
      exact ⟨n + 1, trajectory_succ htu⟩

/-- A run ends in one state. -/
theorem Reaches.end_unique {s t u : σ} (hst : Reaches step s t) (ht : step t = none)
    (hsu : Reaches step s u) (hu : step u = none) : t = u := by
  obtain ⟨n, rfl⟩ := hst.exists_trajectory
  obtain ⟨m, rfl⟩ := hsu.exists_trajectory
  rcases Nat.le_total n m with hle | hle
  · exact (trajectory_of_step_eq_none hle ht).symm
  · exact trajectory_of_step_eq_none hle hu

theorem reaches_trajectory (s : σ) (n : Nat) :
    Reaches step s (trajectory step s n) := by
  induction n with
  | zero => exact .refl
  | succ n ih =>
      cases hnext : step (trajectory step s n) with
      | none =>
          rw [trajectory, hnext]
          exact ih
      | some t =>
          rw [trajectory_succ hnext]
          exact .tail ih hnext

end CoFlo.Verified.StepMachine
