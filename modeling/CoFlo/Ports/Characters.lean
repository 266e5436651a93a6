import Mathlib.Data.List.TakeWhile

/-!
# Classes of characters

The classes of characters that the regular expressions and the streams of CoFlo
use, in the "C" locale.
-/

namespace CoFlo.Ports

/-- `[[:space:]]`. -/
def isSpace (c : Char) : Bool :=
  c ∈ [' ', '\t', '\n', '\x0b', '\x0c', '\r']

/-- What a function that is given `c_str()` sees of a string. -/
def cStr (s : String) : List Char := s.toList.takeWhile (· ≠ '\x00')

theorem cStr_eq {s : String} (hs : '\x00' ∉ s.toList) : cStr s = s.toList :=
  List.takeWhile_eq_self_iff.mpr fun _ hc => decide_eq_true fun heq => hs (heq ▸ hc)

/-- A text of one digit or more. -/
def Digits (l : List Char) : Prop := l ≠ [] ∧ ∀ c ∈ l, c.isDigit = true

theorem digits_singleton {c : Char} (hc : c.isDigit = true) : Digits [c] :=
  ⟨List.cons_ne_nil _ _, fun _ hd => by rwa [List.mem_singleton.mp hd]⟩

theorem digits_toDigits (n : Nat) : Digits (Nat.toDigits 10 n) :=
  ⟨Nat.toDigits_ne_nil, fun _ hc => Nat.isDigit_of_mem_toDigits (by decide) (by decide) hc⟩

theorem isSpace_eq_false_of_isDigit {c : Char} (hc : c.isDigit = true) :
    isSpace c = false := by
  cases hspace : isSpace c with
  | false => rfl
  | true =>
      simp only [isSpace, List.mem_cons, List.not_mem_nil, or_false, decide_eq_true_eq] at hspace
      rcases hspace with rfl | rfl | rfl | rfl | rfl | rfl <;> exact absurd hc (by decide)

theorem nul_notMem_digits {digits : List Char} (hdigits : Digits digits) :
    '\x00' ∉ digits := fun hmem => absurd (hdigits.2 _ hmem) (by decide)

end CoFlo.Ports
