import Mathlib.Logic.Relation

/-!
# Runs and what they print

Each step of a machine prints some lines, or none.  A run tells the lines its
steps print, one step after the other.
-/

namespace CoFlo.Verified.Transcript

open Relation

variable {S L : Type*} {step : S → List L → S → Prop}

/-- A run, with all that its steps print. -/
inductive Tells (step : S → List L → S → Prop) : S → List L → S → Prop where
  | done (s : S) : Tells step s [] s
  | next {s t u : S} {said lines : List L} (hstep : step s said t)
      (hrest : Tells step t lines u) : Tells step s (said ++ lines) u

theorem Tells.single {s t : S} {said : List L} (hstep : step s said t) :
    Tells step s said t := by
  have h := Tells.next hstep (.done t)
  rwa [List.append_nil] at h

theorem Tells.trans {s t u : S} {lines lines' : List L}
    (h : Tells step s lines t) (h' : Tells step t lines' u) :
    Tells step s (lines ++ lines') u := by
  induction h with
  | done s => exact h'
  | next hstep _ ih =>
      rw [List.append_assoc]
      exact .next hstep (ih h')

/-- Steps that print nothing tell nothing. -/
theorem tells_of_silent {s t : S}
    (hsilent : ReflTransGen (fun s t => step s [] t) s t) : Tells step s [] t := by
  induction hsilent with
  | refl => exact .done s
  | tail _ hstep ih => exact ih.trans (.single hstep)

/-- When each step is a run of another machine, so is the whole. -/
theorem Tells.run {R : S → S → Prop}
    (hrun : ∀ s said t, step s said t → ReflTransGen R s t) {s t : S}
    {lines : List L} (h : Tells step s lines t) : ReflTransGen R s t := by
  induction h with
  | done s => exact .refl
  | next hstep _ ih => exact (hrun _ _ _ hstep).trans ih

end CoFlo.Verified.Transcript
