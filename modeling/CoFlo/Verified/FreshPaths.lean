import CoFlo.Verified.ContextSearch
import Mathlib.Data.Set.Card
import Mathlib.Data.Set.Finite.List

/-!
# How long a path can get

A search colours a vertex in one frame at a time, so it may come to a vertex
again that is on its path.  It ends all the same when each vertex put on the
path is new there under some label, as long as there are finitely many labels:
then the path stays short (`EachAbove.length_le`), and a search whose path
stays short has finitely many steps (`work_lt`).
-/

namespace CoFlo.Verified.ContextSearch

variable {V E X : Type*}

/-! ## Labels -/

/-- What holds of each edge of a path that has been put on it above some length,
and the path before. -/
def EachAbove (P : List E → E → Prop) (bound : Nat) (path : List E) : Prop :=
  ∀ e p, e :: p <:+ path → bound ≤ p.length → P p e

section eachAbove

variable {P : List E → E → Prop} {bound : Nat} {path : List E}

theorem eachAbove_length (P : List E → E → Prop) (path : List E) :
    EachAbove P path.length path := by
  intro e p hp hbound
  have hle := hp.length_le
  rw [List.length_cons] at hle
  omega

theorem EachAbove.of_suffix (h : EachAbove P bound path) {q : List E}
    (hq : q <:+ path) : EachAbove P bound q :=
  fun e p hp => h e p (hp.trans hq)

theorem EachAbove.cons (h : EachAbove P bound path) {e : E} (he : P path e) :
    EachAbove P bound (e :: path) := by
  intro d p hp hbound
  rcases List.suffix_cons_iff.mp hp with heq | hp
  · obtain ⟨rfl, rfl⟩ := List.cons.inj heq
    exact he
  · exact h d p hp hbound

end eachAbove

/-- The edge leads the path to one of the labels, which it has not had before. -/
def Fresh (label : List E → X) (labels : Set X) (path : List E) (e : E) : Prop :=
  label (e :: path) ∈ labels ∧ ∀ q, q <:+ path → label q ≠ label (e :: path)

section labels

variable {label : List E → X} {labels : Set X} {bound : Nat} {path : List E}

/-- The fresh part of a path has a label of its own for each edge. -/
theorem EachAbove.exists_labels (h : EachAbove (Fresh label labels) bound path) :
    ∃ S : Finset X, path.length ≤ bound + S.card ∧ (S : Set X) ⊆ labels ∧
      ∀ x ∈ S, ∃ q, q <:+ path ∧ label q = x := by
  classical
  induction path with
  | nil => exact ⟨∅, by simp, by simp, fun x hx => absurd hx (Finset.notMem_empty x)⟩
  | cons e path ih =>
      obtain ⟨S, hlength, hS, hsuffix⟩ := ih (h.of_suffix (List.suffix_cons e path))
      by_cases hbound : bound ≤ path.length
      · obtain ⟨hmem, hnew⟩ := h e path List.suffix_rfl hbound
        have hnotMem : label (e :: path) ∉ S := by
          intro hin
          obtain ⟨q, hq, hlabel⟩ := hsuffix _ hin
          exact hnew q hq hlabel
        refine ⟨insert (label (e :: path)) S, ?_, ?_, fun x hx => ?_⟩
        · rw [Finset.card_insert_of_notMem hnotMem, List.length_cons]
          omega
        · rw [Finset.coe_insert]
          exact Set.insert_subset hmem hS
        · rcases Finset.mem_insert.mp hx with rfl | hx
          · exact ⟨_, List.suffix_rfl, rfl⟩
          · obtain ⟨q, hq, hlabel⟩ := hsuffix x hx
            exact ⟨q, hq.trans (List.suffix_cons e path), hlabel⟩
      · refine ⟨∅, ?_, by simp, fun x hx => absurd hx (Finset.notMem_empty x)⟩
        rw [List.length_cons]
        omega

/-- A path does not get longer than there are labels. -/
theorem EachAbove.length_le (h : EachAbove (Fresh label labels) bound path)
    (hlabels : labels.Finite) : path.length ≤ bound + labels.ncard := by
  obtain ⟨S, hlength, hS, -⟩ := h.exists_labels
  have hcard := Set.ncard_le_ncard hS hlabels
  rw [Set.ncard_coe_finset] at hcard
  omega

end labels

/-- There are finitely many short lists of small numbers. -/
theorem finite_lists (length bound : Nat) :
    {l : List Nat | l.length ≤ length ∧ ∀ n ∈ l, n < bound}.Finite := by
  refine ((List.finite_length_le (Fin bound) length).image (List.map Fin.val)).subset ?_
  rintro l ⟨hlength, hbound⟩
  refine ⟨l.pmap Fin.mk hbound, ?_, ?_⟩
  · simpa using hlength
  · rw [List.map_pmap]
    simp

/-! ## The work left -/

variable [DecidableEq V] (G : Incidence V E)

/-- The edge that takes the search to another vertex with the next step. -/
def discovers (s : State V E) : Option E :=
  match s.stack with
  | (_, e :: _) :: _ =>
      match framesFor s.frames (G.kind e) with
      | some frames => if isWhite (G.target e) frames then some e else none
      | none => none
  | _ => none

variable {G}

/-- A step takes an edge off the path, or puts the one on it that leads to a new
vertex, or leaves the path alone. -/
theorem Step.path_eq {s t : State V E} (h : Step G s t) :
    t.path <:+ s.path ∨ ∃ e, discovers G s = some e ∧ t.path = e :: s.path := by
  cases h with
  | finish hstack => exact .inl (List.tail_suffix _)
  | skip hstack hpass => exact .inl List.suffix_rfl
  | tree hstack hpass hwhite =>
      refine .inr ⟨_, ?_, rfl⟩
      simp only [discovers, hstack, hpass, hwhite, if_true]
  | cross hstack hpass hwhite => exact .inl List.suffix_rfl

/-- What is discovered is at the end of the first edge left of the top vertex. -/
theorem discovers_eq_some {s : State V E} {e : E} (h : discovers G s = some e) :
    ∃ u rem rest, s.stack = (u, e :: rem) :: rest ∧ G.kind e ≠ .closed := by
  unfold discovers at h
  split at h
  · rename_i u d rem rest hstack
    split at h
    · rename_i frames hpass
      split_ifs at h
      obtain rfl := Option.some.inj h
      exact ⟨u, rem, rest, hstack, not_closed_of_framesFor hpass⟩
    · exact absurd h (by simp)
  · exact absurd h (by simp)

section rank

omit [DecidableEq V]

variable {r : V} {stack : List (V × List E)} {path : List E}

/-- Every edge of the path leaves the vertex that the path has come to before it. -/
theorem Threaded.mem_out (h : Threaded G r stack path) {e : E} {q : List E}
    (hsuffix : e :: q <:+ path) : e ∈ G.out (tip G r q) ∧ G.kind e ≠ .closed := by
  induction h with
  | root _ => exact absurd (List.suffix_nil.mp hsuffix) (List.cons_ne_nil e q)
  | @edge u rem rem' rest d path h hout hkind _ ih =>
      rcases List.suffix_cons_iff.mp hsuffix with heq | hsuffix
      · obtain ⟨rfl, rfl⟩ := List.cons.inj heq
        exact ⟨h.top.1 ▸ hout, hkind⟩
      · exact ih hsuffix

/-- Where all edges that are not closed go up in a rank, so does the path. -/
theorem Threaded.rank_le {rank : V → Nat}
    (hrank : ∀ u, ∀ e ∈ G.out u, G.kind e ≠ .closed → rank u < rank (G.target e))
    (h : Threaded G r stack path) {q : List E} (hsuffix : q <:+ path) :
    rank (tip G r q) ≤ rank (tip G r path) := by
  induction h with
  | root _ =>
      rw [List.suffix_nil.mp hsuffix]
  | @edge u rem rem' rest d path h hout hkind _ ih =>
      rcases List.suffix_cons_iff.mp hsuffix with rfl | hsuffix
      · exact Nat.le_refl _
      · have hlt := hrank u d hout hkind
        rw [h.top.1] at hlt
        exact Nat.le_trans (ih hsuffix) (Nat.le_of_lt hlt)

end rank

/-- What may have to be done for an edge, when every vertex has at most
`degree` and the path may get longer by `n`. -/
def edgeWork (degree : Nat) : Nat → Nat
  | 0 => 1
  | n + 1 => degree * edgeWork degree n + 2

/-- What may have to be done for a stack, when the path gets no longer than
`bound`. -/
def work (degree bound : Nat) : List (V × List E) → Nat
  | [] => 0
  | (_, rem) :: rest =>
      rem.length * edgeWork degree (bound - rest.length) + 1 + work degree bound rest

theorem edgeWork_pos (degree n : Nat) : 0 < edgeWork degree n := by
  cases n with
  | zero => exact Nat.one_pos
  | succ n => exact Nat.succ_pos _

omit [DecidableEq V] in
theorem work_cons_cons (degree bound : Nat) (u : V) (e : E) (rem : List E)
    (rest : List (V × List E)) :
    work degree bound ((u, e :: rem) :: rest) =
      edgeWork degree (bound - rest.length) + work degree bound ((u, rem) :: rest) := by
  simp only [work, List.length_cons, Nat.succ_mul]
  omega

/-- Every step leaves less to be done, as long as the path stays short. -/
theorem work_lt {degree bound : Nat} (hdegree : ∀ v, (G.out v).length ≤ degree) {r : V}
    {s t : State V E} (haligned : Aligned G r s) (h : Step G s t)
    (hbound : t.path.length ≤ bound) :
    work degree bound t.stack < work degree bound s.stack := by
  cases h with
  | @finish u rest hstack =>
      rw [hstack]
      simp only [work, List.length_nil, Nat.zero_mul]
      omega
  | @skip u e rem rest hstack hpass =>
      show work degree bound ((u, rem) :: rest) < work degree bound s.stack
      rw [hstack, work_cons_cons]
      exact Nat.lt_add_of_pos_left (edgeWork_pos _ _)
  | @cross u e rem rest frames hstack hpass hwhite =>
      show work degree bound ((u, rem) :: rest) < work degree bound s.stack
      rw [hstack, work_cons_cons]
      exact Nat.lt_add_of_pos_left (edgeWork_pos _ _)
  | @tree u e rem rest frames hstack hpass hwhite =>
      -- The stack is as long as the path.
      have hlength : rest.length + 1 ≤ bound := by
        rcases haligned with ⟨hnil, -⟩ | hthread
        · rw [hstack] at hnil
          exact absurd hnil (List.cons_ne_nil _ _)
        · have hthread' := hthread.length_eq
          rw [hstack, List.length_cons] at hthread'
          rw [List.length_cons] at hbound
          omega
      have hstep : bound - rest.length = bound - (rest.length + 1) + 1 := by omega
      have hnew : (G.out (G.target e)).length *
          edgeWork degree (bound - (rest.length + 1)) ≤
            degree * edgeWork degree (bound - (rest.length + 1)) :=
        Nat.mul_le_mul_right _ (hdegree _)
      rw [hstack, work_cons_cons, work, List.length_cons, hstep, edgeWork]
      omega

end CoFlo.Verified.ContextSearch
