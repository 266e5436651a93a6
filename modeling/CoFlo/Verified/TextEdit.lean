import Mathlib.Data.List.Infix

/-!
# Replacing every match of a pattern in a text

A text is a list, a pattern says how many of the first elements of a text it
matches, and `replaceAll` goes through a text from the left and replaces every
match which does not overlap the one before it.

What such an edit does to a long text is found by cutting the text in pieces.
A piece is `Untouched` in front of what follows it when no match begins in it;
it is then copied (`replaceAll_append`).  For a literal pattern `m` there are
two ways to see this without looking at all that follows:

* a piece which is known can be checked once for every continuation (`Free`);
* a piece of which it is only known that `m` does not occur in it is untouched
  when the next element cannot continue a match (`untouched_literal`).
-/

namespace CoFlo.Verified.TextEdit

variable {α : Type*}

/-- How many of the first elements of a text are matched. -/
abbrev Pattern (α : Type*) := List α → Option Nat

/-! ## Patterns -/

/-- One element of a class. -/
def oneOf (inClass : α → Bool) : Pattern α
  | [] => none
  | x :: _ => if inClass x then some 1 else none

/-- Elements of the given classes, one after the other. -/
def classes : List (α → Bool) → Pattern α
  | [], _ => some 0
  | _ :: _, [] => none
  | inClass :: rest, x :: text =>
      if inClass x then (classes rest text).map (· + 1) else none

section

variable [DecidableEq α]

/-- The text `m` itself. -/
def literal (m : List α) : Pattern α := fun text =>
  if m <+: text then some m.length else none

/-- As little as possible, up to and with the text `stop`. -/
def upTo (stop : List α) : Pattern α
  | [] => if stop = [] then some 0 else none
  | x :: rest =>
      if stop <+: x :: rest then some stop.length
      else (upTo stop rest).map (· + 1)

/-- The text `start` and then as little as possible up to and with `stop`. -/
def between (start stop : List α) : Pattern α := fun text =>
  if start <+: text then
    (upTo stop (text.drop start.length)).map (start.length + ·)
  else none

end

/-! ## Replacing -/

/-- Go through a text of which the first elements, as many as the number
says, belong to the match just replaced. -/
def replaceFrom (pattern : Pattern α) (replacement : List α → List α) :
    Nat → List α → List α
  | _, [] => []
  | skip + 1, _ :: rest => replaceFrom pattern replacement skip rest
  | 0, x :: rest =>
      match pattern (x :: rest) with
      | some (k + 1) =>
          replacement ((x :: rest).take (k + 1)) ++
            replaceFrom pattern replacement k rest
      | _ => x :: replaceFrom pattern replacement 0 rest

/-- Replace every match, from the left.  A pattern which matches the empty
text does not count as a match. -/
def replaceAll (pattern : Pattern α) (replacement : List α → List α)
    (text : List α) : List α :=
  replaceFrom pattern replacement 0 text

section Replacing

variable {pattern : Pattern α} {replacement : List α → List α}

@[simp] theorem replaceAll_nil : replaceAll pattern replacement [] = [] := rfl

theorem replaceFrom_length (u v : List α) :
    replaceFrom pattern replacement u.length (u ++ v) =
      replaceAll pattern replacement v := by
  induction u with
  | nil => rfl
  | cons x u ih =>
      show replaceFrom pattern replacement u.length (u ++ v) = _
      exact ih

theorem replaceAll_cons_of_none {x : α} {text : List α}
    (hnone : pattern (x :: text) = none) :
    replaceAll pattern replacement (x :: text) =
      x :: replaceAll pattern replacement text := by
  simp only [replaceAll, replaceFrom, hnone]

/-- A match at the front is replaced, and the edit goes on behind it. -/
theorem replaceAll_match {u v : List α} (hu : u ≠ [])
    (hmatch : pattern (u ++ v) = some u.length) :
    replaceAll pattern replacement (u ++ v) =
      replacement u ++ replaceAll pattern replacement v := by
  cases u with
  | nil => exact absurd rfl hu
  | cons x u =>
      have hskip : replaceFrom pattern replacement u.length (u ++ v) =
          replaceAll pattern replacement v := replaceFrom_length u v
      simp only [List.cons_append, List.length_cons] at hmatch
      simp only [replaceAll, List.cons_append, replaceFrom, hmatch, hskip,
        List.take_succ_cons, List.take_left']

/-- No match begins in `u` when `v` follows it. -/
def Untouched (pattern : Pattern α) (u v : List α) : Prop :=
  ∀ s, s ≠ [] → s <:+ u → pattern (s ++ v) = none

theorem untouched_nil (v : List α) : Untouched pattern [] v :=
  fun _ hs hsuffix => absurd (List.suffix_nil.mp hsuffix) hs

theorem untouched_append {u v w : List α} (hu : Untouched pattern u (v ++ w))
    (hv : Untouched pattern v w) : Untouched pattern (u ++ v) w := by
  intro s hs hsuffix
  rcases List.suffix_or_suffix_of_suffix hsuffix (List.suffix_append u v) with h | h
  · exact hv s hs h
  · obtain ⟨t, rfl⟩ := h
    cases t with
    | nil => exact hv v hs (List.suffix_refl v)
    | cons x t =>
        have ht : x :: t <:+ u := by
          obtain ⟨front, hfront⟩ := hsuffix
          rw [← List.append_assoc] at hfront
          exact ⟨front, List.append_cancel_right hfront⟩
        rw [List.append_assoc]
        exact hu _ (List.cons_ne_nil x t) ht

/-- An untouched piece is copied. -/
theorem replaceAll_append {u v : List α} (hu : Untouched pattern u v) :
    replaceAll pattern replacement (u ++ v) =
      u ++ replaceAll pattern replacement v := by
  induction u with
  | nil => rfl
  | cons x u ih =>
      have hx : pattern (x :: (u ++ v)) = none :=
        hu (x :: u) (List.cons_ne_nil x u) (List.suffix_refl _)
      have hrest : Untouched pattern u v :=
        fun s hs hsuffix => hu s hs (hsuffix.trans (List.suffix_cons x u))
      rw [List.cons_append, replaceAll_cons_of_none hx, ih hrest, List.cons_append]

theorem replaceAll_untouched {text : List α} (htext : Untouched pattern text []) :
    replaceAll pattern replacement text = text := by
  have hcopy : replaceAll pattern replacement (text ++ []) =
      text ++ replaceAll pattern replacement [] := replaceAll_append htext
  rwa [List.append_nil, replaceAll_nil, List.append_nil] at hcopy

end Replacing

/-- Replacing the elements of a class one by one. -/
theorem replaceAll_oneOf (inClass : α → Bool) (y : α) (text : List α) :
    replaceAll (oneOf inClass) (fun _ => [y]) text =
      text.map fun x => if inClass x then y else x := by
  induction text with
  | nil => rfl
  | cons x text ih =>
      by_cases hx : inClass x = true
      · have hmatch : oneOf inClass ([x] ++ text) = some [x].length := by
          simp [oneOf, hx]
        have hstep : replaceAll (oneOf inClass) (fun _ => [y]) ([x] ++ text) =
            [y] ++ replaceAll (oneOf inClass) (fun _ => [y]) text :=
          replaceAll_match (List.cons_ne_nil x []) hmatch
        rw [List.singleton_append] at hstep
        rw [hstep, ih, List.map_cons, if_pos hx, List.singleton_append]
      · have hnone : oneOf inClass (x :: text) = none := if_neg hx
        rw [replaceAll_cons_of_none hnone, ih, List.map_cons, if_neg hx]

/-! ## Literal patterns -/

section Literal

variable [DecidableEq α] {m : List α} {replacement : List α → List α}

theorem literal_append (m v : List α) : literal m (m ++ v) = some m.length :=
  if_pos (List.prefix_append m v)

theorem replaceAll_literal (hm : m ≠ []) (v : List α) :
    replaceAll (literal m) replacement (m ++ v) =
      replacement m ++ replaceAll (literal m) replacement v :=
  replaceAll_match hm (literal_append m v)

/-- Neither does `m` occur in `u`, nor does the end of `u` begin an `m`. -/
def Free (m u : List α) : Prop :=
  ∀ s ∈ u.tails, s ≠ [] → ¬ m <+: s ∧ ¬ s <+: m

instance (m u : List α) : Decidable (Free m u) :=
  inferInstanceAs (Decidable (∀ s ∈ u.tails, s ≠ [] → ¬ m <+: s ∧ ¬ s <+: m))

/-- A free piece is untouched, whatever follows. -/
theorem Free.untouched {u : List α} (hfree : Free m u) (v : List α) :
    Untouched (literal m) u v := by
  intro s hs hsuffix
  have hboth := hfree s (List.mem_tails _ _ |>.mpr hsuffix) hs
  apply if_neg
  intro hfront
  rcases List.prefix_or_prefix_of_prefix hfront (List.prefix_append s v) with h | h
  · exact hboth.1 h
  · exact hboth.2 h

/-- `m` does not begin in a piece which does not contain it, when the next
element cannot stand inside `m`. -/
theorem untouched_literal {u v : List α} (hu : ¬ m <:+: u)
    (hnext : ∀ x ∈ v.head?, x ∉ m.tail) : Untouched (literal m) u v := by
  intro s hs hsuffix
  apply if_neg
  intro hfront
  rcases List.prefix_or_prefix_of_prefix hfront (List.prefix_append s v) with h | h
  · exact hu (h.isInfix.trans hsuffix.isInfix)
  · obtain ⟨rest, rfl⟩ := h
    cases rest with
    | nil =>
        rw [List.append_nil] at hu
        exact hu hsuffix.isInfix
    | cons x rest =>
        -- `m` goes on behind `s`, so that its next element is the next of the text
        have htail : x :: rest <+: v := (List.prefix_append_right_inj s).mp hfront
        cases v with
        | nil => exact absurd (List.prefix_nil.mp htail) (List.cons_ne_nil x rest)
        | cons y v =>
            have hxy : x = y := (List.cons_prefix_cons.mp htail).1
            apply hnext y rfl
            rw [← hxy, List.tail_append_of_ne_nil hs]
            exact List.mem_append_right _ List.mem_cons_self

theorem untouched_before {u v : List α} {x : α} (hu : ¬ m <:+: u)
    (hv : v.head? = some x) (hx : x ∉ m.tail) : Untouched (literal m) u v := by
  apply untouched_literal hu
  intro y hy
  rw [hv] at hy
  cases hy
  exact hx

/-- A text in which `m` does not occur stays as it is. -/
theorem replaceAll_absent {text : List α} (habsent : ¬ m <:+: text) :
    replaceAll (literal m) replacement text = text := by
  apply replaceAll_untouched
  exact untouched_literal habsent fun x hx => by cases hx

end Literal

/-! ## Finding a text -/

section Finding

variable [DecidableEq α]

/-- What stands before and what stands behind the first occurrence of `m`. -/
def splitFirst (m : List α) : List α → Option (List α × List α)
  | [] => none
  | x :: rest =>
      if m <+: x :: rest then some ([], (x :: rest).drop m.length)
      else (splitFirst m rest).map fun parts => (x :: parts.1, parts.2)

theorem splitFirst_append {m u v : List α} (hm : m ≠ [])
    (hu : Untouched (literal m) u (m ++ v)) :
    splitFirst m (u ++ (m ++ v)) = some (u, v) := by
  induction u with
  | nil =>
      cases m with
      | nil => exact absurd rfl hm
      | cons x m =>
          rw [List.nil_append, List.cons_append, splitFirst, ← List.cons_append,
            if_pos (List.prefix_append _ _), List.drop_left]
  | cons x u ih =>
      have hx := hu (x :: u) (List.cons_ne_nil x u) (List.suffix_refl _)
      have hnot : ¬ m <+: x :: (u ++ (m ++ v)) := by
        intro hfront
        rw [List.cons_append, literal, if_pos hfront] at hx
        cases hx
      have hrest : Untouched (literal m) u (m ++ v) :=
        fun s hs hsuffix => hu s hs (hsuffix.trans (List.suffix_cons x u))
      rw [List.cons_append, splitFirst, if_neg hnot, ih hrest]
      rfl

end Finding

end CoFlo.Verified.TextEdit
