import Mathlib.Data.List.Infix

/-!
# The history of a stack

A sequence of lists in which every list pushes an entry on the one before, or
pops one, or is the same.  An entry that is on the stack at some moment has
been pushed at some earlier one and has stayed since: the stack has not been
lower in the meantime (`Above`), and what was below the entry then still is
(`Above.suffix`).
-/

namespace CoFlo.Verified.StackHistory

variable {α : Type*} {x : Nat → List α}

/-- Every step pushes an entry, pops one, or leaves the stack alone. -/
def IsHistory (x : Nat → List α) : Prop :=
  ∀ n, x (n + 1) = x n ∨ x (n + 1) = (x n).tail ∨ ∃ a, x (n + 1) = a :: x n

/-- From `b` to `t` the stack is not lower than it is at `b`. -/
def Above (x : Nat → List α) (b t : Nat) : Prop :=
  b ≤ t ∧ ∀ i, b ≤ i → i ≤ t → (x b).length ≤ (x i).length

/-- At `b` the entry `a` is pushed on `p`. -/
def Pushes (x : Nat → List α) (b : Nat) (a : α) (p : List α) : Prop :=
  x b = p ∧ x (b + 1) = a :: p

namespace Above

variable {b c t u : Nat}

theorem refl (x : Nat → List α) (b : Nat) : Above x b b :=
  ⟨Nat.le_refl b, fun i hbi hib => by rw [Nat.le_antisymm hbi hib]⟩

theorem le (h : Above x b t) : b ≤ t := h.1

theorem length_le (h : Above x b t) : (x b).length ≤ (x t).length :=
  h.2 t h.1 (Nat.le_refl t)

theorem mono (h : Above x b t) (hbu : b ≤ u) (hut : u ≤ t) : Above x b u :=
  ⟨hbu, fun i hbi hiu => h.2 i hbi (Nat.le_trans hiu hut)⟩

theorem trans (hbc : Above x b c) (hct : Above x c t) : Above x b t := by
  refine ⟨Nat.le_trans hbc.le hct.le, fun i hbi hit => ?_⟩
  rcases Nat.le_total i c with hic | hci
  · exact hbc.2 i hbi hic
  · exact Nat.le_trans hbc.length_le (hct.2 i hci hit)

theorem succ (h : Above x b t) (hlength : (x b).length ≤ (x (t + 1)).length) :
    Above x b (t + 1) := by
  refine ⟨Nat.le_succ_of_le h.le, fun i hbi hit => ?_⟩
  rcases Nat.lt_or_eq_of_le hit with hlt | rfl
  · exact h.2 i hbi (Nat.le_of_lt_succ hlt)
  · exact hlength

/-- What is not above any more has come down at some moment. -/
theorem exists_leave (hb : b ≤ t) (h : ¬ Above x b t) :
    ∃ f, Above x b f ∧ f < t ∧ (x (f + 1)).length < (x b).length := by
  induction t with
  | zero =>
      have hzero : b = 0 := Nat.le_zero.mp hb
      rw [hzero] at h
      exact absurd (refl x 0) h
  | succ t ih =>
      rcases Nat.lt_or_eq_of_le hb with hlt | rfl
      · by_cases ht : Above x b t
        · refine ⟨t, ht, Nat.lt_succ_self t, ?_⟩
          by_contra hle
          exact h (ht.succ (Nat.le_of_not_lt hle))
        · obtain ⟨f, hf, hft, hlength⟩ := ih (Nat.le_of_lt_succ hlt) ht
          exact ⟨f, hf, Nat.lt_succ_of_lt hft, hlength⟩
      · exact absurd (refl x _) h

/-- What is on the stack at `b` stays at the bottom. -/
theorem suffix (hx : IsHistory x) (h : Above x b t) : x b <:+ x t := by
  obtain ⟨hbt, hlength⟩ := h
  induction hbt with
  | refl => exact List.suffix_rfl
  | @step t hbt ih =>
      have hsuffix := ih fun i hbi hit => hlength i hbi (Nat.le_succ_of_le hit)
      have hle := hlength (t + 1) (Nat.le_succ_of_le hbt) (Nat.le_refl _)
      rcases hx t with hsame | hpop | ⟨a, hpush⟩
      · rw [hsame]
        exact hsuffix
      · rw [hpop] at hle ⊢
        obtain ⟨y, hy⟩ := hsuffix
        rw [← hy] at hle ⊢
        cases y with
        | nil =>
            have hnil : x b = [] := by
              cases hb : x b with
              | nil => rfl
              | cons a l =>
                  rw [hb, List.nil_append, List.tail_cons, List.length_cons] at hle
                  omega
            rw [hnil]
            exact List.nil_suffix
        | cons a y => exact List.suffix_append y (x b)
      · rw [hpush]
        exact hsuffix.trans (List.suffix_cons a (x t))

end Above

/-- An entry that was not there from the start has been pushed. -/
theorem exists_pushes (hx : IsHistory x) {t : Nat} {a : α} {p : List α}
    (hstart : ¬ a :: p <:+ x 0) (ht : a :: p <:+ x t) :
    ∃ b, Pushes x b a p ∧ Above x (b + 1) t := by
  induction t with
  | zero => exact absurd ht hstart
  | succ t ih =>
      have hlength := ht.length_le
      have hold : a :: p <:+ x t →
          ∃ b, Pushes x b a p ∧ Above x (b + 1) (t + 1) := by
        intro hsuffix
        obtain ⟨b, hb, habove⟩ := ih hsuffix
        exact ⟨b, hb, habove.succ (by rw [hb.2]; exact hlength)⟩
      rcases hx t with hsame | hpop | ⟨c, hpush⟩
      · rw [hsame] at ht
        exact hold ht
      · rw [hpop] at ht
        exact hold (ht.trans (List.tail_suffix _))
      · rw [hpush, List.suffix_cons_iff] at ht
        rcases ht with heq | ht
        · refine ⟨t, ⟨(List.cons.inj heq).2.symm, ?_⟩, Above.refl x _⟩
          rw [hpush, ← heq]
        · exact hold ht

/-- At any moment there is one entry at a height. -/
theorem Pushes.unique {b c t : Nat} {a d : α} {p q : List α}
    (hb : Pushes x b a p) (hc : Pushes x c d q) (hbt : Above x (b + 1) t)
    (hct : Above x (c + 1) t) (hlength : p.length = q.length) : b = c := by
  have hle : ∀ {b c : Nat} {a d : α} {p q : List α}, Pushes x b a p →
      Pushes x c d q → Above x (b + 1) t → c < t → p.length = q.length →
        ¬ b < c := by
    intro b c a d p q hb hc hbt hct hlength hlt
    have habove := hbt.2 c hlt (Nat.le_of_lt hct)
    rw [hb.2, hc.1, List.length_cons] at habove
    omega
  rcases Nat.lt_trichotomy b c with hlt | heq | hlt
  · exact absurd hlt (hle hb hc hbt hct.le hlength)
  · exact heq
  · exact absurd hlt (hle hc hb hct hbt.le hlength.symm)

/-- Of two entries the lower one has been pushed before. -/
theorem Pushes.lt_of_length_lt {b c t : Nat} {a d : α} {p q : List α}
    (hb : Pushes x b a p) (hc : Pushes x c d q) (hbt : Above x (b + 1) t)
    (hct : Above x (c + 1) t) (hlength : p.length < q.length) : b < c := by
  by_contra hle
  have hcb : c < b := by
    rcases Nat.lt_or_eq_of_le (Nat.le_of_not_lt hle) with hlt | rfl
    · exact hlt
    · rw [← hb.1, ← hc.1] at hlength
      exact absurd hlength (Nat.lt_irrefl _)
  have habove := hct.2 b hcb (Nat.le_of_lt hbt.le)
  rw [hc.2, hb.1, List.length_cons] at habove
  omega

end CoFlo.Verified.StackHistory
