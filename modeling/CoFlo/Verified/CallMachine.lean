import Mathlib.Data.Set.Card
import Mathlib.Logic.Relation

/-!
# Procedures and the call stack

A program is given by its procedures: where control goes from a place of a
procedure, and which places call which procedure.  A configuration is the stack
of the places at which the procedures have been left, the current one on top.
`Step` is one step of the program: on within a procedure, into the procedure
that is called, or back behind the call.

Whoever looks at the procedures one by one, and takes it for granted that every
call returns, finds what a procedure may come to call (`MayCall`).  No run calls
anything else (`Step.mayCall`), and when the calls do return, there is a run for
each of these calls (`exists_run`).
-/

namespace CoFlo.Verified.CallMachine

open Relation

/-- Procedures with their places.  Where control goes from a call is where it
goes when the call has returned. -/
structure Code (F P : Type*) where
  flow : F → P → P → Prop
  call : F → P → Option F
  entry : P
  exit : P

variable {F P : Type*} (G : Code F P)

/-- One step of a program; the head of a list is the top of the stack. -/
inductive Step : List (F × P) → List (F × P) → Prop where
  | flow {f : F} {p q : P} {K : List (F × P)} (hcall : G.call f p = none)
      (hflow : G.flow f p q) : Step ((f, p) :: K) ((f, q) :: K)
  | enter {f g : F} {p : P} {K : List (F × P)} (hcall : G.call f p = some g) :
      Step ((f, p) :: K) ((g, G.entry) :: (f, p) :: K)
  | leave {f g : F} {p q : P} {K : List (F × P)}
      (hcall : G.call f p = some g) (hflow : G.flow f p q) :
      Step ((g, G.exit) :: (f, p) :: K) ((f, q) :: K)

/-- A run of the program. -/
abbrev Run : List (F × P) → List (F × P) → Prop :=
  ReflTransGen (Step G)

/-- On within a procedure, over the calls on the way. -/
abbrev Within (f : F) : P → P → Prop :=
  ReflTransGen (G.flow f)

/-- The procedure `f` has a call of `g` on a way from its entry. -/
def MayCall (f g : F) : Prop :=
  ∃ p, Within G f G.entry p ∧ G.call f p = some g

/-- A procedure can be run from its entry to its exit. -/
def Returns (f : F) : Prop :=
  Run G [(f, G.entry)] [(f, G.exit)]

/-- What the stack of a run from the entry of `s` looks like: every procedure
is at a place that can be reached in it, and was called by the one below. -/
inductive Accounted (s : F) : List (F × P) → Prop where
  | bottom {p : P} (hwithin : Within G s G.entry p) : Accounted s [(s, p)]
  | call {f g : F} {p q : P} {K : List (F × P)}
      (hbelow : Accounted s ((f, p) :: K)) (hcall : G.call f p = some g)
      (hwithin : Within G g G.entry q) : Accounted s ((g, q) :: (f, p) :: K)

variable {G}

namespace Accounted

variable {s f : F} {p q : P} {K : List (F × P)}

theorem within (h : Accounted G s ((f, p) :: K)) : Within G f G.entry p := by
  cases h with
  | bottom hwithin => exact hwithin
  | call _ _ hwithin => exact hwithin

/-- The procedure on top goes on. -/
theorem flow (h : Accounted G s ((f, p) :: K)) (hflow : G.flow f p q) :
    Accounted G s ((f, q) :: K) := by
  cases h with
  | bottom hwithin => exact .bottom (hwithin.tail hflow)
  | call hbelow hcall hwithin => exact .call hbelow hcall (hwithin.tail hflow)

theorem step {C D : List (F × P)} (h : Accounted G s C) (hstep : Step G C D) :
    Accounted G s D := by
  cases hstep with
  | flow _ hflow => exact h.flow hflow
  | enter hcall => exact .call h hcall .refl
  | leave _ hflow =>
      cases h with
      | call hbelow _ _ => exact hbelow.flow hflow

theorem run {C D : List (F × P)} (h : Accounted G s C) (hrun : Run G C D) :
    Accounted G s D := by
  induction hrun with
  | refl => exact h
  | tail _ hstep ih => exact ih.step hstep

/-- Down the stack there is a call to the procedure above. -/
theorem mayCall (h : Accounted G s ((f, p) :: K)) :
    ReflTransGen (MayCall G) s f := by
  generalize hC : (f, p) :: K = C at h
  induction h generalizing f p K with
  | bottom _ =>
      obtain ⟨⟨rfl, -⟩, -⟩ := by simpa using hC
      exact .refl
  | @call f' g p' q' K' hbelow hcall _ ih =>
      have hg : f = g := by simpa using congrArg (·.head?.map Prod.fst) hC
      subst hg
      exact (ih rfl).tail ⟨p', hbelow.within, hcall⟩

end Accounted

/-- Nothing is run but what may be called. -/
theorem Run.mayCall {s f : F} {p : P} {K : List (F × P)}
    (hrun : Run G [(s, G.entry)] ((f, p) :: K)) :
    ReflTransGen (MayCall G) s f ∧ Within G f G.entry p := by
  have h := Accounted.run (.bottom .refl) hrun
  exact ⟨h.mayCall, h.within⟩

/-! ## Runs from calls that return -/

/-- What lies below on the stack does not matter. -/
theorem Step.append {C D : List (F × P)} (hstep : Step G C D)
    (K : List (F × P)) : Step G (C ++ K) (D ++ K) := by
  cases hstep with
  | flow hcall hflow => exact .flow hcall hflow
  | enter hcall => exact .enter hcall
  | leave hcall hflow => exact .leave hcall hflow

theorem Run.append {C D : List (F × P)} (hrun : Run G C D)
    (K : List (F × P)) : Run G (C ++ K) (D ++ K) :=
  ReflTransGen.lift (· ++ K) (fun _ _ hstep => hstep.append K) _ _ hrun

/-- Over a call that returns. -/
theorem Returns.run {f g : F} {p q : P} (hg : Returns G g)
    (hcall : G.call f p = some g) (hflow : G.flow f p q) (K : List (F × P)) :
    Run G ((f, p) :: K) ((f, q) :: K) := by
  have hthrough : Run G ((g, G.entry) :: (f, p) :: K)
      ((g, G.exit) :: (f, p) :: K) := Run.append hg ((f, p) :: K)
  exact (hthrough.head (.enter hcall)).tail (.leave hcall hflow)

/-- A procedure whose calls return can be run to every place in it. -/
theorem run_within {f : F} {p : P}
    (hreturns : ∀ g, MayCall G f g → Returns G g)
    (hwithin : Within G f G.entry p) (K : List (F × P)) :
    Run G ((f, G.entry) :: K) ((f, p) :: K) := by
  induction hwithin with
  | refl => exact .refl
  | @tail p q hwithin hflow ih =>
      cases hcall : G.call f p with
      | none => exact ih.tail (.flow hcall hflow)
      | some g => exact ih.trans ((hreturns g ⟨p, hwithin, hcall⟩).run hcall hflow K)

/-- When all that is called returns, whatever may be called is. -/
theorem exists_run {s f : F}
    (hreturns : ∀ g, TransGen (MayCall G) s g → Returns G g)
    (hcalls : ReflTransGen (MayCall G) s f) :
    ∃ K, Run G [(s, G.entry)] ((f, G.entry) :: K) := by
  induction hcalls with
  | refl => exact ⟨[], .refl⟩
  | @tail f g hcalls hmay ih =>
      obtain ⟨K, hrun⟩ := ih
      obtain ⟨p, hwithin, hcall⟩ := hmay
      have hto : Run G ((f, G.entry) :: K) ((f, p) :: K) :=
        run_within (fun g hg => hreturns g (TransGen.tail' hcalls hg)) hwithin K
      exact ⟨(f, p) :: K, (hrun.trans hto).tail (.enter hcall)⟩

/-- And so is every place that can be come to in it. -/
theorem exists_run_within {s f : F} {p : P}
    (hreturns : ∀ g, TransGen (MayCall G) s g → Returns G g)
    (hcalls : ReflTransGen (MayCall G) s f) (hwithin : Within G f G.entry p) :
    ∃ K, Run G [(s, G.entry)] ((f, p) :: K) := by
  obtain ⟨K, hrun⟩ := exists_run hreturns hcalls
  have hto : Run G ((f, G.entry) :: K) ((f, p) :: K) :=
    run_within (fun g hg => hreturns g (TransGen.tail' hcalls hg)) hwithin K
  exact ⟨K, hrun.trans hto⟩

/-! ## Without recursion -/

/-- What a procedure may come to call. -/
def callees (G : Code F P) (f : F) : Set F :=
  {g | TransGen (MayCall G) f g}

/-- What is called may call less than its caller. -/
theorem MayCall.ncard_callees_lt {f g : F} (hcall : MayCall G f g)
    (hrec : ¬ TransGen (MayCall G) g g) (hfinite : (callees G f).Finite) :
    (callees G g).ncard < (callees G f).ncard := by
  have hsub : callees G g ⊆ callees G f := fun _ hg => TransGen.head hcall hg
  have hnot : ¬ callees G f ⊆ callees G g := fun hall =>
    hrec (hall (TransGen.single hcall))
  exact Set.ncard_lt_ncard ⟨hsub, hnot⟩ hfinite

theorem returns_of_acyclic {s : F} (hfinite : ∀ f, (callees G f).Finite)
    (hrec : ∀ g, TransGen (MayCall G) s g → ¬ TransGen (MayCall G) g g)
    (hends : ∀ g, TransGen (MayCall G) s g → Within G g G.entry G.exit) {g : F}
    (hg : TransGen (MayCall G) s g) : Returns G g := by
  induction hn : (callees G g).ncard using Nat.strong_induction_on
    generalizing g with
  | _ n ih =>
      refine run_within (fun f hf => ?_) (hends g hg) []
      have hlt := hf.ncard_callees_lt (hrec f (hg.tail hf)) (hfinite g)
      rw [hn] at hlt
      exact ih _ hlt (hg.tail hf) rfl

end CoFlo.Verified.CallMachine
