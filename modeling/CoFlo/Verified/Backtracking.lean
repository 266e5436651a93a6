import Mathlib.Data.List.TakeWhile

/-!
# Backtracking patterns

A pattern in the manner of Perl may match a text in several ways, and it tries
them in a fixed order: a lazy repetition starts with the shortest, a greedy one
with the longest.  Here a pattern is the list of all its ways to match the start
of a text, in that order, each with what it captures and with the rest of the
text.  `fullMatch` takes the first way that leaves nothing.

Which ways there are does not depend on the order (`mem_bind` and its
companions), and which of them comes first is settled at the repetitions
(`fullMatch_lazyMany`, `fullMatch_greedyMany`).
-/

namespace CoFlo.Verified.Backtracking

/-- All ways to match the start of a text. -/
def Pattern (α : Type) := List Char → List (α × List Char)

namespace Pattern

variable {α β : Type}

instance : Monad Pattern where
  pure a := fun s => [(a, s)]
  bind p f := fun s => (p s).flatMap fun x => f x.1 x.2

instance : LawfulMonad Pattern := .mk' Pattern
  (fun p => by
    funext s
    exact List.flatMap_singleton' (p s))
  (fun a f => by
    funext s
    exact List.flatMap_singleton (fun x => f x.1 x.2) (a, s))
  (fun p f g => by
    funext s
    exact List.flatMap_assoc)

/-- One character out of a class. -/
def char (q : Char → Bool) : Pattern Char
  | [] => []
  | c :: s => if q c then [(c, s)] else []

/-- A text as it stands. -/
def literal (t : List Char) : Pattern Unit := fun s =>
  if t <+: s then [((), s.drop t.length)] else []

/-- `[q]*?`, which starts with the shortest match. -/
def lazyMany (q : Char → Bool) : Pattern (List Char)
  | [] => [([], [])]
  | c :: s =>
      ([], c :: s) :: if q c then (lazyMany q s).map (Prod.map (c :: ·) id) else []

/-- `[q]*`, which starts with the longest match. -/
def greedyMany (q : Char → Bool) : Pattern (List Char)
  | [] => [([], [])]
  | c :: s =>
      (if q c then (greedyMany q s).map (Prod.map (c :: ·) id) else []) ++ [([], c :: s)]

/-- `[q]+`. -/
def greedySome (q : Char → Bool) : Pattern (List Char) := do
  let c ← char q
  let cs ← greedyMany q
  pure (c :: cs)

/-- `p?`, which tries `p` first. -/
def optional (p : Pattern α) : Pattern (Option α) := fun s =>
  (p s).map (Prod.map some id) ++ [(none, s)]

/-- The first way to match all of a text. -/
def fullMatch (p : Pattern α) (s : List Char) : Option α :=
  (p s).findSome? fun x => if x.2 = [] then some x.1 else none

/-! ## Which ways there are -/

variable {p : Pattern α} {f : α → Pattern β} {q : Char → Bool} {s rest : List Char}

theorem bind_apply (p : Pattern α) (f : α → Pattern β) (s : List Char) :
    (p >>= f) s = (p s).flatMap fun x => f x.1 x.2 := rfl

@[simp] theorem mem_pure {a b : α} : (b, rest) ∈ (pure a : Pattern α) s ↔ b = a ∧ rest = s := by
  show (b, rest) ∈ [(a, s)] ↔ _
  simp

@[simp] theorem mem_bind {b : β} :
    (b, rest) ∈ (p >>= f) s ↔ ∃ a t, (a, t) ∈ p s ∧ (b, rest) ∈ f a t := by
  rw [bind_apply, List.mem_flatMap]
  constructor
  · rintro ⟨⟨a, t⟩, hp, hf⟩
    exact ⟨a, t, hp, hf⟩
  · rintro ⟨a, t, hp, hf⟩
    exact ⟨(a, t), hp, hf⟩

@[simp] theorem mem_char {c : Char} : (c, rest) ∈ char q s ↔ s = c :: rest ∧ q c = true := by
  cases s with
  | nil => simp [char]
  | cons d s =>
      rw [char]
      split_ifs with hd
      · simp only [List.mem_singleton, Prod.mk.injEq, List.cons.injEq]
        constructor
        · rintro ⟨rfl, rfl⟩
          exact ⟨⟨rfl, rfl⟩, hd⟩
        · rintro ⟨⟨rfl, rfl⟩, -⟩
          exact ⟨rfl, rfl⟩
      · simp only [List.not_mem_nil, false_iff, List.cons.injEq]
        rintro ⟨⟨rfl, -⟩, hc⟩
        exact hd hc

@[simp] theorem mem_literal {t : List Char} {u : Unit} :
    (u, rest) ∈ literal t s ↔ s = t ++ rest := by
  unfold literal
  split_ifs with hprefix
  · obtain ⟨s', rfl⟩ := hprefix
    simp [eq_comm]
  · simp only [List.not_mem_nil, false_iff]
    rintro rfl
    exact hprefix (List.prefix_append _ _)

@[simp] theorem mem_lazyMany {cs : List Char} :
    (cs, rest) ∈ lazyMany q s ↔ s = cs ++ rest ∧ ∀ c ∈ cs, q c = true := by
  induction s generalizing cs with
  | nil =>
      simp only [lazyMany, List.mem_singleton, Prod.mk.injEq, List.nil_eq_append_iff]
      constructor
      · rintro ⟨rfl, rfl⟩
        exact ⟨⟨rfl, rfl⟩, fun c hc => absurd hc List.not_mem_nil⟩
      · exact fun h => h.1
  | cons d s ih =>
      cases cs with
      | nil =>
          rw [lazyMany, List.nil_append]
          by_cases hd : q d = true
          · simp [hd, @eq_comm _ rest]
          · simp [hd, @eq_comm _ rest]
      | cons c cs =>
          by_cases hd : q d = true
          · simp [lazyMany, hd, ih]
            grind
          · simp only [lazyMany, hd, Bool.false_eq_true, if_false, List.mem_singleton,
              Prod.mk.injEq, reduceCtorEq, false_and, false_iff]
            rintro ⟨heq, hall⟩
            obtain ⟨rfl, -⟩ := List.cons.inj heq
            exact hd (hall d List.mem_cons_self)

@[simp] theorem mem_greedyMany {cs : List Char} :
    (cs, rest) ∈ greedyMany q s ↔ s = cs ++ rest ∧ ∀ c ∈ cs, q c = true := by
  induction s generalizing cs with
  | nil =>
      simp only [greedyMany, List.mem_singleton, Prod.mk.injEq, List.nil_eq_append_iff]
      constructor
      · rintro ⟨rfl, rfl⟩
        exact ⟨⟨rfl, rfl⟩, fun c hc => absurd hc List.not_mem_nil⟩
      · exact fun h => h.1
  | cons d s ih =>
      cases cs with
      | nil =>
          rw [greedyMany, List.nil_append]
          by_cases hd : q d = true
          · simp [hd, @eq_comm _ rest]
          · simp [hd, @eq_comm _ rest]
      | cons c cs =>
          by_cases hd : q d = true
          · simp [greedyMany, hd, ih]
            grind
          · simp only [greedyMany, hd, Bool.false_eq_true, if_false, List.nil_append,
              List.mem_singleton, Prod.mk.injEq, reduceCtorEq, false_and, false_iff]
            rintro ⟨heq, hall⟩
            obtain ⟨rfl, -⟩ := List.cons.inj heq
            exact hd (hall d List.mem_cons_self)

@[simp] theorem mem_greedySome {cs : List Char} :
    (cs, rest) ∈ greedySome q s ↔
      s = cs ++ rest ∧ cs ≠ [] ∧ ∀ c ∈ cs, q c = true := by
  unfold greedySome
  simp only [mem_bind, mem_char, mem_greedyMany, mem_pure]
  constructor
  · rintro ⟨c, t, ⟨rfl, hc⟩, ds, t', ⟨rfl, hds⟩, rfl, rfl⟩
    refine ⟨rfl, List.cons_ne_nil _ _, fun d hd => ?_⟩
    rcases List.mem_cons.mp hd with rfl | hd
    · exact hc
    · exact hds d hd
  · rintro ⟨rfl, hne, hall⟩
    cases cs with
    | nil => exact absurd rfl hne
    | cons c cs =>
        exact ⟨c, cs ++ rest, ⟨rfl, hall c List.mem_cons_self⟩, cs, rest,
          ⟨rfl, fun d hd => hall d (List.mem_cons_of_mem _ hd)⟩, rfl, rfl⟩

@[simp] theorem mem_optional {a : Option α} :
    (a, rest) ∈ optional p s ↔
      (∃ b, a = some b ∧ (b, rest) ∈ p s) ∨ a = none ∧ rest = s := by
  unfold optional
  rw [List.mem_append, List.mem_map, List.mem_singleton, Prod.mk.injEq]
  refine or_congr_left ?_
  constructor
  · rintro ⟨⟨b, t⟩, hmem, heq⟩
    obtain ⟨rfl, rfl⟩ := Prod.mk.inj heq
    exact ⟨b, rfl, hmem⟩
  · rintro ⟨b, rfl, hmem⟩
    exact ⟨(b, rest), hmem, rfl⟩

/-! ## Which of them comes first -/

theorem mem_of_fullMatch {a : α} (h : fullMatch p s = some a) : (a, []) ∈ p s := by
  obtain ⟨⟨b, t⟩, hmem, hb⟩ := List.exists_of_findSome?_eq_some h
  dsimp only at hb
  split_ifs at hb with ht
  rw [← Option.some.inj hb, ← ht]
  exact hmem

theorem fullMatch_eq_none_iff : fullMatch p s = none ↔ ∀ a, (a, []) ∉ p s := by
  constructor
  · intro h a ha
    have := List.findSome?_eq_none_iff.mp h (a, []) ha
    simp at this
  · intro h
    cases hm : fullMatch p s with
    | none => rfl
    | some a => exact absurd (mem_of_fullMatch hm) (h a)

theorem fullMatch_bind (p : Pattern α) (f : α → Pattern β) (s : List Char) :
    fullMatch (p >>= f) s = (p s).findSome? fun x => fullMatch (f x.1) x.2 := by
  unfold fullMatch
  rw [bind_apply]
  induction p s with
  | nil => rfl
  | cons x l ih =>
      rw [List.flatMap_cons, List.findSome?_append, List.findSome?_cons, ih]
      cases List.findSome? _ (f x.1 x.2) <;> rfl

theorem fullMatch_map (p : Pattern α) (g : α → β) (s : List Char) :
    fullMatch (p >>= fun a => pure (g a)) s = (fullMatch p s).map g := by
  rw [fullMatch_bind, fullMatch, List.map_findSome?]
  refine congrArg (List.findSome? · (p s)) (funext fun x => ?_)
  by_cases hx : x.2 = []
  · simp [fullMatch, pure, hx]
  · simp [fullMatch, pure, hx]

theorem fullMatch_char {f : Char → Pattern β} {c : Char} (hc : q c = true) :
    fullMatch (char q >>= f) (c :: s) = fullMatch (f c) s := by
  rw [fullMatch_bind, char, if_pos hc]
  exact List.findSome?_singleton ..

theorem fullMatch_lazyMany_cons {f : List Char → Pattern β} {c : Char} (hc : q c = true) :
    fullMatch (lazyMany q >>= f) (c :: s) =
      (fullMatch (f []) (c :: s)).or
        (fullMatch (lazyMany q >>= fun cs => f (c :: cs)) s) := by
  rw [fullMatch_bind, fullMatch_bind, lazyMany, if_pos hc, List.findSome?_cons,
    List.findSome?_map]
  cases fullMatch (f []) (c :: s) <;> rfl

/-- A lazy repetition takes the shortest way. -/
theorem fullMatch_lazyMany {f : List Char → Pattern β} {cs : List Char} {b : β}
    (hcs : ∀ c ∈ cs, q c = true) (hb : fullMatch (f cs) s = some b) :
    ∃ l r b', cs = l ++ r ∧ fullMatch (lazyMany q >>= f) (cs ++ s) = some b' ∧
      fullMatch (f l) (r ++ s) = some b' := by
  induction cs generalizing f with
  | nil =>
      refine ⟨[], [], b, rfl, ?_, hb⟩
      cases s with
      | nil =>
          rw [fullMatch_bind]
          exact (List.findSome?_singleton ..).trans hb
      | cons d s =>
          rw [fullMatch_bind, List.nil_append, lazyMany, List.findSome?_cons, hb]
  | cons c cs ih =>
      obtain ⟨l, r, b', rfl, hfull, hl⟩ :=
        ih (f := fun cs => f (c :: cs)) (fun d hd => hcs d (List.mem_cons_of_mem _ hd)) hb
      rw [List.cons_append, fullMatch_lazyMany_cons (hcs c List.mem_cons_self), hfull]
      cases hempty : fullMatch (f []) (c :: (l ++ r ++ s)) with
      | none => exact ⟨c :: l, r, b', rfl, rfl, hl⟩
      | some b'' => exact ⟨[], c :: (l ++ r), b'', rfl, rfl, hempty⟩

/-- A greedy repetition takes the longest way, when that leads on. -/
theorem fullMatch_greedyMany {f : List Char → Pattern β} {cs : List Char} {b : β}
    (hcs : ∀ c ∈ cs, q c = true) (hs : ∀ c ∈ s.head?, q c = false)
    (hb : fullMatch (f cs) s = some b) :
    fullMatch (greedyMany q >>= f) (cs ++ s) = some b := by
  induction cs generalizing f with
  | nil =>
      rw [fullMatch_bind, List.nil_append]
      cases s with
      | nil => exact (List.findSome?_singleton ..).trans hb
      | cons d s =>
          rw [greedyMany, hs d rfl]
          exact (List.findSome?_singleton ..).trans hb
  | cons c cs ih =>
      have hrest := ih (f := fun cs => f (c :: cs))
        (fun d hd => hcs d (List.mem_cons_of_mem _ hd)) hb
      rw [fullMatch_bind] at hrest
      rw [fullMatch_bind, List.cons_append, greedyMany, if_pos (hcs c List.mem_cons_self),
        List.findSome?_append, List.findSome?_map]
      exact (congrArg (Option.or · _) hrest).trans rfl

theorem fullMatch_greedySome {f : List Char → Pattern β} {cs : List Char} {b : β}
    (hne : cs ≠ []) (hcs : ∀ c ∈ cs, q c = true) (hs : ∀ c ∈ s.head?, q c = false)
    (hb : fullMatch (f cs) s = some b) :
    fullMatch (greedySome q >>= f) (cs ++ s) = some b := by
  cases cs with
  | nil => exact absurd rfl hne
  | cons c cs =>
      rw [greedySome, bind_assoc, List.cons_append,
        fullMatch_char (hcs c List.mem_cons_self), bind_assoc]
      simp only [pure_bind]
      exact fullMatch_greedyMany (f := fun cs => f (c :: cs))
        (fun d hd => hcs d (List.mem_cons_of_mem _ hd)) hs hb

/-- An optional part is taken when that leads on. -/
theorem fullMatch_optional {f : Option α → Pattern β} {b : β}
    (hb : fullMatch (p >>= fun a => f (some a)) s = some b) :
    fullMatch (optional p >>= f) s = some b := by
  rw [fullMatch_bind] at hb
  rw [fullMatch_bind, optional, List.findSome?_append, List.findSome?_map]
  exact (congrArg (Option.or · _) hb).trans rfl

theorem fullMatch_optional_of_eq_nil {f : Option α → Pattern β} (hp : p s = []) :
    fullMatch (optional p >>= f) s = fullMatch (f none) s := by
  rw [fullMatch_bind, optional, hp]
  exact List.findSome?_singleton ..

end Pattern

end CoFlo.Verified.Backtracking
