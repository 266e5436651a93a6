import Mathlib.Data.List.TakeWhile
import Mathlib.Order.Lattice

/-!
# Sorted multimaps

A multimap kept in the order of its keys, as the list of its entries: what an
iterator passes over from `begin()` on.  A new entry goes behind all entries
with its key, and `upperBound` is where the entries with greater keys start.
On a sorted multimap it is a filter (`Sorted.upperBound_eq`).
-/

namespace CoFlo.Verified

/-- The entries of a multimap. -/
abbrev Multimap (κ α : Type*) := List (κ × α)

namespace Multimap

variable {κ α : Type*} [LinearOrder κ]

/-- The entries from the first one on whose key is greater than `k`. -/
def upperBound (m : Multimap κ α) (k : κ) : Multimap κ α :=
  m.dropWhile fun p => p.1 ≤ k

/-- The multimap with one more entry. -/
def insertEntry (m : Multimap κ α) (k : κ) (a : α) : Multimap κ α :=
  m.takeWhile (fun p => p.1 ≤ k) ++ (k, a) :: m.upperBound k

/-- The entries are in the order of their keys. -/
def Sorted (m : Multimap κ α) : Prop :=
  m.Pairwise fun p q => p.1 ≤ q.1

theorem mem_insertEntry {m : Multimap κ α} {k : κ} {a : α} {p : κ × α} :
    p ∈ m.insertEntry k a ↔ p = (k, a) ∨ p ∈ m := by
  have hsplit : p ∈ m ↔ p ∈ m.takeWhile (fun p => p.1 ≤ k) ∨
      p ∈ m.upperBound k := by
    rw [upperBound, ← List.mem_append, List.takeWhile_append_dropWhile]
  rw [insertEntry, List.mem_append, List.mem_cons, hsplit]
  exact or_left_comm

/-- On a sorted multimap nothing with a smaller key comes later. -/
theorem Sorted.upperBound_eq {m : Multimap κ α} (hm : m.Sorted) (k : κ) :
    m.upperBound k = m.filter fun p => k < p.1 := by
  induction m with
  | nil => rfl
  | cons p m ih =>
      obtain ⟨hp, hm⟩ := List.pairwise_cons.mp hm
      rw [upperBound, List.dropWhile_cons, List.filter_cons]
      by_cases hle : p.1 ≤ k
      · rw [if_pos (decide_eq_true hle), if_neg (by simpa using hle)]
        exact ih hm
      · have hlt := not_le.mp hle
        rw [if_neg (by simpa using hle), if_pos (decide_eq_true hlt),
          List.filter_eq_self.mpr]
        intro q hq
        exact decide_eq_true (lt_of_lt_of_le hlt (hp q hq))

theorem Sorted.insertEntry {m : Multimap κ α} (hm : m.Sorted) (k : κ) (a : α) :
    (m.insertEntry k a).Sorted := by
  have htake : ∀ p ∈ m.takeWhile (fun p => p.1 ≤ k), p.1 ≤ k := by
    intro p hp
    simpa using List.mem_takeWhile_imp hp
  have hdrop : ∀ p ∈ m.upperBound k, k < p.1 := by
    intro p hp
    rw [hm.upperBound_eq] at hp
    exact of_decide_eq_true (List.mem_filter.mp hp).2
  refine List.pairwise_append.mpr ⟨?_, ?_, fun p hp q hq => ?_⟩
  · exact hm.sublist (List.takeWhile_sublist _)
  · refine List.pairwise_cons.mpr ⟨fun q hq => le_of_lt (hdrop q hq), ?_⟩
    exact hm.sublist (List.dropWhile_sublist _)
  · rcases List.mem_cons.mp hq with rfl | hq
    · exact htake p hp
    · exact le_trans (htake p hp) (le_of_lt (hdrop q hq))

end Multimap

end CoFlo.Verified
