import Mathlib.Data.List.Count

/-!
# Sequences of brackets

A sequence of brackets of several kinds is read with a stack: an opening
bracket is put on it, and a closing bracket has to be of the kind on top, which
it takes off.  `scan` fails at the first closing bracket that does not match.
-/

namespace CoFlo.Verified.Brackets

variable {κ : Type*}

inductive Bracket (κ : Type*) where
  | opening (kind : κ)
  | closing (kind : κ)
  deriving DecidableEq, Repr

variable [DecidableEq κ]

/-- The kinds which are open after a sequence, the innermost first. -/
def scan : List κ → List (Bracket κ) → Option (List κ)
  | opened, [] => some opened
  | opened, .opening k :: rest => scan (k :: opened) rest
  | k' :: opened, .closing k :: rest => if k = k' then scan opened rest else none
  | [], .closing _ :: _ => none

/-- Every closing bracket matches the innermost open one. -/
def Matched (bs : List (Bracket κ)) : Prop := (scan [] bs).isSome

/-- Matched, and nothing is open at the end. -/
def Balanced (bs : List (Bracket κ)) : Prop := scan [] bs = some []

instance (bs : List (Bracket κ)) : Decidable (Matched bs) :=
  inferInstanceAs (Decidable ((scan [] bs).isSome = true))

instance (bs : List (Bracket κ)) : Decidable (Balanced bs) :=
  inferInstanceAs (Decidable (scan [] bs = some []))

/-- Of every kind, what is open has been opened and not closed. -/
theorem count_scan {opened opened' : List κ} {bs : List (Bracket κ)}
    (hscan : scan opened bs = some opened') (k : κ) :
    opened.count k + bs.count (.opening k) = opened'.count k + bs.count (.closing k) := by
  induction bs generalizing opened with
  | nil =>
      rw [scan, Option.some.injEq] at hscan
      rw [hscan]
      rfl
  | cons b bs ih =>
      cases b with
      | opening k' =>
          have hrest := ih hscan
          rw [List.count_cons] at hrest
          simp only [List.count_cons, beq_iff_eq, Bracket.opening.injEq, reduceCtorEq,
            if_false]
          simp only [beq_iff_eq] at hrest
          omega
      | closing k' =>
          cases opened with
          | nil => exact absurd hscan (by simp [scan])
          | cons k'' opened =>
              rw [scan] at hscan
              split_ifs at hscan with hk
              have hrest := ih hscan
              simp only [List.count_cons, beq_iff_eq, Bracket.closing.injEq, reduceCtorEq,
                if_false, hk]
              omega

/-- A balanced sequence closes as often as it opens. -/
theorem Balanced.count_eq {bs : List (Bracket κ)} (hbalanced : Balanced bs) (k : κ) :
    bs.count (.opening k) = bs.count (.closing k) := by
  have hcount := count_scan hbalanced k
  simpa using hcount

end CoFlo.Verified.Brackets
