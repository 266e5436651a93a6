import Mathlib.Logic.Relation

/-!
# Adding detours to an acyclic relation

Take an acyclic relation `F` and add the pairs of another relation `P` to it.
A cycle of the two together cannot be made of `F` alone, so it can be cut at
the `P`-steps, and what is left between two of them is a walk along `F`.
`Detour` relates the points such pieces lead between: the sources of `P`.  The
union is acyclic exactly when `Detour` is, and `Detour` is about the sources
of `P` only.

When `P` starts at dead ends of `F` only, where the union leads to can be read
off in the same way: `Hop` goes from one dead end to the next.
-/

namespace CoFlo.Verified.Detours

open Relation

variable {V : Type*} (F P : V → V → Prop)

/-- A step of the relation or of what was added to it. -/
def Either (u v : V) : Prop :=
  F u v ∨ P u v

/-- No element is related to itself by a chain. -/
def Acyclic (R : V → V → Prop) : Prop :=
  ∀ v, ¬ TransGen R v v

/-- From the source `s` of an added pair to the next one. -/
def Detour (s t : V) : Prop :=
  ∃ x, P s x ∧ ReflTransGen F x t ∧ ∃ y, P t y

variable {F P}

theorem Detour.either {s t : V} (h : Detour F P s t) :
    TransGen (Either F P) s t := by
  obtain ⟨x, hsx, hxt, _⟩ := h
  have hwalk : ReflTransGen (Either F P) x t :=
    ReflTransGen.mono (fun _ _ => Or.inl) _ _ hxt
  exact TransGen.head' (Or.inr hsx) hwalk

/-- A walk to a source of an added pair comes to a first one along `F`, and
goes on along detours. -/
theorem exists_detour {x t y : V} (hty : P t y)
    (h : ReflTransGen (Either F P) x t) :
    ∃ s, ReflTransGen F x s ∧ (∃ z, P s z) ∧ ReflTransGen (Detour F P) s t := by
  induction h using ReflTransGen.head_induction_on with
  | refl => exact ⟨t, .refl, ⟨y, hty⟩, .refl⟩
  | @head x w hstep _ ih =>
      obtain ⟨s, hws, hs, hst⟩ := ih
      rcases hstep with hF | hP
      · exact ⟨s, .head hF hws, hs, hst⟩
      · exact ⟨x, .refl, ⟨w, hP⟩, .head ⟨w, hP, hws, hs⟩ hst⟩

/-- A chain stays in `F` or takes an added pair. -/
theorem transGen_or_exists {u v : V} (h : TransGen (Either F P) u v) :
    TransGen F u v ∨ ∃ s x, P s x ∧ ReflTransGen (Either F P) u s ∧
      ReflTransGen (Either F P) x v := by
  induction h with
  | single hstep =>
      rcases hstep with hF | hP
      · exact .inl (.single hF)
      · exact .inr ⟨u, _, hP, .refl, .refl⟩
  | @tail w v hchain hstep ih =>
      rcases ih with hF | ⟨s, x, hP, hus, hxw⟩
      · rcases hstep with hF' | hP
        · exact .inl (hF.tail hF')
        · exact .inr ⟨w, v, hP, hchain.to_reflTransGen, .refl⟩
      · exact .inr ⟨s, x, hP, hus, hxw.tail hstep⟩

/-- The union is acyclic if and only if the detours are. -/
theorem acyclic_either_iff (hF : Acyclic F) :
    Acyclic (Either F P) ↔ Acyclic (Detour F P) := by
  constructor
  · intro h s hs
    exact h s (TransGen.closed (fun _ _ => Detour.either) s s hs)
  · intro h v hv
    rcases transGen_or_exists hv with hcycle | ⟨s, x, hP, hvs, hxv⟩
    · exact hF v hcycle
    · obtain ⟨t, hxt, ht, hts⟩ := exists_detour hP (hxv.trans hvs)
      exact h s (TransGen.head' ⟨x, hP, hxt, ht⟩ hts)

/-- A relation that goes down in a rank is acyclic. -/
theorem Acyclic.of_rank {R : V → V → Prop} (rank : V → Nat)
    (h : ∀ u v, R u v → rank v < rank u) : Acyclic R := by
  have hchain : ∀ u v, TransGen R u v → rank v < rank u := by
    intro u v huv
    induction huv with
    | single hstep => exact h _ _ hstep
    | tail _ hstep ih => exact Nat.lt_trans (h _ _ hstep) ih
  exact fun v hv => Nat.lt_irrefl _ (hchain v v hv)

/-- Where each element but one has another one of lower rank before it, that one leads
to all of them. -/
theorem reflTransGen_of_rank {R : V → V → Prop} {L : V → Prop} {r : V} (rank : V → Nat)
    (hL : ∀ v, L v → v = r ∨ ∃ u, L u ∧ rank u < rank v ∧ R u v) {v : V} (hv : L v) :
    ReflTransGen R r v := by
  induction hn : rank v using Nat.strongRecOn generalizing v with
  | ind n ih =>
      rcases hL v hv with rfl | ⟨u, hu, hlt, huv⟩
      · exact .refl
      · exact (ih (rank u) (hn ▸ hlt) hu rfl).tail huv

/-! ## From dead end to dead end -/

variable (F P)

/-- An element `F` does not lead on from. -/
def DeadEnd (d : V) : Prop :=
  ∀ v, ¬ F d v

/-- From a dead end over an added pair to another one. -/
def Hop (d d' : V) : Prop :=
  ∃ x, P d x ∧ ReflTransGen F x d' ∧ DeadEnd F d'

variable {F P}

theorem Hop.either {d d' : V} (h : Hop F P d d') :
    ReflTransGen (Either F P) d d' := by
  obtain ⟨x, hdx, hxd, _⟩ := h
  exact .head (.inr hdx) (ReflTransGen.mono (fun _ _ => Or.inl) _ _ hxd)

theorem reflTransGen_of_hops {d d' : V} (h : ReflTransGen (Hop F P) d d') :
    ReflTransGen (Either F P) d d' := by
  induction h with
  | refl => exact .refl
  | tail _ hhop ih => exact ih.trans hhop.either

/-- From a dead end there is nothing to follow. -/
theorem DeadEnd.eq_of_reflTransGen {d v : V} (hd : DeadEnd F d)
    (h : ReflTransGen F d v) : v = d := by
  rcases ReflTransGen.cases_head h with heq | ⟨w, hdw, _⟩
  · exact heq.symm
  · exact absurd hdw (hd w)

/-- A walk to a dead end comes to a first one along `F`, and hops from
there. -/
theorem exists_deadEnd (hP : ∀ s x, P s x → DeadEnd F s) {y z : V}
    (hz : DeadEnd F z) (h : ReflTransGen (Either F P) y z) :
    ∃ d, ReflTransGen F y d ∧ DeadEnd F d ∧ ReflTransGen (Hop F P) d z := by
  induction h using ReflTransGen.head_induction_on with
  | refl => exact ⟨z, .refl, hz, .refl⟩
  | @head y w hstep _ ih =>
      obtain ⟨d, hwd, hd, hdz⟩ := ih
      rcases hstep with hF | hstep
      · exact ⟨d, .head hF hwd, hd, hdz⟩
      · exact ⟨y, .refl, hP y w hstep, .head ⟨w, hstep, hwd, hd⟩ hdz⟩

/-- Everything in `L` leads to the dead end `z` if and only if its dead ends
hop there. -/
theorem forall_reaches_iff (hP : ∀ s x, P s x → DeadEnd F s) {L : V → Prop}
    {z : V} (hz : DeadEnd F z)
    (hL : ∀ v, L v → ∃ d, L d ∧ ReflTransGen F v d ∧ DeadEnd F d) :
    (∀ v, L v → ReflTransGen (Either F P) v z) ↔
      ∀ d, L d → DeadEnd F d → ReflTransGen (Hop F P) d z := by
  constructor
  · intro h d hLd hd
    obtain ⟨d', hdd', _, hd'z⟩ := exists_deadEnd hP hz (h d hLd)
    rwa [hd.eq_of_reflTransGen hdd'] at hd'z
  · intro h v hv
    obtain ⟨d, hLd, hvd, hd⟩ := hL v hv
    have hwalk : ReflTransGen (Either F P) v d :=
      ReflTransGen.mono (fun _ _ => Or.inl) _ _ hvd
    refine hwalk.trans ?_
    exact reflTransGen_of_hops (h d hLd hd)

/-- Where `F` goes down in a rank, every element comes to a dead end. -/
theorem exists_deadEnd_of_rank {L : V → Prop} (rank : V → Nat)
    (hrank : ∀ u v, L u → F u v → rank v < rank u)
    (hclosed : ∀ u v, L u → F u v → L v) {v : V} (hv : L v) :
    ∃ d, L d ∧ ReflTransGen F v d ∧ DeadEnd F d := by
  induction hn : rank v using Nat.strongRecOn generalizing v with
  | ind n ih =>
      by_cases hd : DeadEnd F v
      · exact ⟨v, hv, .refl, hd⟩
      · obtain ⟨w, hvw⟩ : ∃ w, F v w :=
          Classical.byContradiction fun hnone => hd fun w hvw => hnone ⟨w, hvw⟩
        obtain ⟨d, hLd, hwd, hd⟩ :=
          ih (rank w) (hn ▸ hrank v w hv hvw) (hclosed v w hv hvw) rfl
        exact ⟨d, hLd, .head hvw hwd, hd⟩

end CoFlo.Verified.Detours
