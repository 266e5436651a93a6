import Mathlib.Data.List.Basic

/-!
# Loop invariants for folds

A `for` loop over a list is a fold.  An invariant of such a loop speaks about
the elements already consumed and the state they led to, so it is a predicate
on a prefix of the list and a state.  The rules below take one step of the
loop body, with the position in the list in view, and give the invariant of
the whole run.  The second one is for bodies that may fail: the step then
also says that the body does not, or when it does (`foldlM_cases`).  The last
one is for a run of such a loop that has come to its end.
-/

namespace CoFlo.Verified.FoldInvariant

variable {α σ ε : Type*}

/-- The invariant of a total loop. -/
theorem foldl_invariant (f : σ → α → σ) (P : List α → σ → Prop) (l : List α)
    (s : σ) (hinit : P [] s)
    (hstep : ∀ pre a post s, l = pre ++ a :: post → P pre s →
      P (pre ++ [a]) (f s a)) :
    P l (l.foldl f s) := by
  suffices h : ∀ post pre s, l = pre ++ post → P pre s →
      P l (post.foldl f s) from h l [] s rfl hinit
  intro post
  induction post with
  | nil =>
      intro pre s hl hP
      rw [List.append_nil] at hl
      rw [hl]
      exact hP
  | cons a post ih =>
      intro pre s hl hP
      exact ih (pre ++ [a]) (f s a) (by simp [hl]) (hstep pre a post s hl hP)

/-- One more element, after a run that did not throw. -/
theorem foldlM_append_singleton (f : σ → α → Except ε σ) {l : List α}
    {s s' : σ} (hl : l.foldlM f s = .ok s') (a : α) :
    (l ++ [a]).foldlM f s = f s' a := by
  rw [List.foldlM_append, hl]
  exact bind_pure (f s' a)

/-- One more element, after a run that threw. -/
theorem foldlM_append_of_error (f : σ → α → Except ε σ) {l : List α} {s : σ}
    {err : ε} (hl : l.foldlM f s = .error err) (l' : List α) :
    (l ++ l').foldlM f s = .error err := by
  rw [List.foldlM_append, hl]
  rfl

/-- The invariant of a loop whose body may throw but, under the invariant,
does not. -/
theorem foldlM_invariant (f : σ → α → Except ε σ) (P : List α → σ → Prop)
    (l : List α) (s : σ) (hinit : P [] s)
    (hstep : ∀ pre a post s, l = pre ++ a :: post → P pre s →
      ∃ s', f s a = .ok s' ∧ P (pre ++ [a]) s') :
    ∃ s', l.foldlM f s = .ok s' ∧ P l s' := by
  suffices h : ∀ post pre s, l = pre ++ post → P pre s →
      ∃ s', post.foldlM f s = .ok s' ∧ P l s' from h l [] s rfl hinit
  intro post
  induction post with
  | nil =>
      intro pre s hl hP
      rw [List.append_nil] at hl
      rw [hl]
      exact ⟨s, rfl, hP⟩
  | cons a post ih =>
      intro pre s hl hP
      obtain ⟨s', hf, hP'⟩ := hstep pre a post s hl hP
      obtain ⟨s'', hrun, hP''⟩ := ih (pre ++ [a]) s' (by simp [hl]) hP'
      refine ⟨s'', ?_, hP''⟩
      rw [List.foldlM_cons, hf]
      exact hrun

/-- The invariant of a loop whose body throws in some states: it consumes the
whole list, or a part of it, and throws at the next element. -/
theorem foldlM_cases (f : σ → α → Except ε σ) (P : List α → σ → Prop)
    (Q : List α → α → ε → Prop) (l : List α) (s : σ) (hinit : P [] s)
    (hstep : ∀ pre a post s, l = pre ++ a :: post → P pre s →
      (∃ s', f s a = .ok s' ∧ P (pre ++ [a]) s') ∨
        ∃ err, f s a = .error err ∧ Q pre a err) :
    (∃ s', l.foldlM f s = .ok s' ∧ P l s') ∨
      ∃ pre a post t err, l = pre ++ a :: post ∧ pre.foldlM f s = .ok t ∧
        f t a = .error err ∧ l.foldlM f s = .error err ∧ Q pre a err := by
  suffices h : ∀ post pre t, l = pre ++ post → pre.foldlM f s = .ok t → P pre t →
      (∃ s', post.foldlM f t = .ok s' ∧ P l s') ∨
        ∃ pre a post' t' err, l = pre ++ a :: post' ∧ pre.foldlM f s = .ok t' ∧
          f t' a = .error err ∧ post.foldlM f t = .error err ∧ Q pre a err from
    h l [] s rfl rfl hinit
  intro post
  induction post with
  | nil =>
      intro pre t hl _ hP
      rw [List.append_nil] at hl
      rw [hl]
      exact .inl ⟨t, rfl, hP⟩
  | cons a post ih =>
      intro pre t hl hpre hP
      rw [List.foldlM_cons]
      rcases hstep pre a post t hl hP with ⟨s', hf, hP'⟩ | ⟨err, hf, hQ⟩
      · rw [hf]
        exact ih (pre ++ [a]) s' (by simp [hl])
          ((foldlM_append_singleton f hpre a).trans hf) hP'
      · rw [hf]
        exact .inr ⟨pre, a, post, t, err, hl, hpre, hf, rfl, hQ⟩

/-- The invariant of a loop that has not thrown. -/
theorem foldlM_ok_invariant {f : σ → α → Except ε σ} {l : List α} {s s' : σ}
    (hrun : l.foldlM f s = .ok s') (P : List α → σ → Prop) (hinit : P [] s)
    (hstep : ∀ pre a post s t, l = pre ++ a :: post → P pre s →
      f s a = .ok t → P (pre ++ [a]) t) : P l s' := by
  suffices h : ∀ post pre s, l = pre ++ post → P pre s →
      post.foldlM f s = .ok s' → P l s' from h l [] s rfl hinit hrun
  intro post
  induction post with
  | nil =>
      intro pre s hl hP hend
      rw [List.append_nil] at hl
      rw [hl, ← Except.ok.inj hend]
      exact hP
  | cons a post ih =>
      intro pre s hl hP hend
      rw [List.foldlM_cons] at hend
      cases hf : f s a with
      | error err =>
          rw [hf] at hend
          exact absurd hend (by simp [bind, Except.bind])
      | ok t =>
          rw [hf] at hend
          exact ih (pre ++ [a]) t (by simp [hl]) (hstep pre a post s t hl hP hf) hend

end CoFlo.Verified.FoldInvariant
