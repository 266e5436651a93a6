import Mathlib.Logic.Function.Basic

/-!
# Histories of maps

A map is used by putting values and getting them.  An implementation may change its
state when a value is got, and may keep another value than the one it was given; what
it answers is described by the values a reader would find in it.  When these change
with every `put` only, and there at the key alone, the answers are those of a total
function updated by the puts, whatever has been read in between.
-/

namespace CoFlo.Verified.MapHistory

universe u v w

variable {State : Type u} {Key : Type v} {Value : Type w}

/-- A use of a map. -/
inductive Operation (Key : Type v) (Value : Type w) where
  | put (key : Key) (val : Value)
  | get (key : Key)

/-- The operations of a map.  Reading may change the state. -/
structure MapOperations (State : Type u) (Key : Type v) (Value : Type w) where
  put : State → Key → Value → State
  get : State → Key → Value × State

/-- What the reads of a history answer, and the state it ends in. -/
def MapOperations.run (M : MapOperations State Key Value) :
    State → List (Operation Key Value) → List Value × State
  | s, [] => ([], s)
  | s, .put key val :: ops => M.run (M.put s key val) ops
  | s, .get key :: ops =>
      let (answer, s') := M.get s key
      let (answers, s'') := M.run s' ops
      (answer :: answers, s'')

section Ordinary

variable [DecidableEq Key]

/-- An ordinary total map. -/
def totalMap : MapOperations (Key → Value) Key Value where
  put m key val := Function.update m key val
  get m key := (m key, m)

/-- The values put on a key, in order. -/
def putsOn (key : Key) : List (Operation Key Value) → List Value
  | [] => []
  | .put k val :: ops => if k = key then val :: putsOn key ops else putsOn key ops
  | .get _ :: ops => putsOn key ops

end Ordinary

/-! ## Runs -/

@[simp] theorem MapOperations.run_put (M : MapOperations State Key Value) (s : State)
    (key : Key) (val : Value) (ops : List (Operation Key Value)) :
    M.run s (.put key val :: ops) = M.run (M.put s key val) ops := rfl

@[simp] theorem MapOperations.run_get (M : MapOperations State Key Value) (s : State)
    (key : Key) (ops : List (Operation Key Value)) :
    M.run s (.get key :: ops) =
      ((M.get s key).1 :: (M.run (M.get s key).2 ops).1, (M.run (M.get s key).2 ops).2) := rfl

theorem MapOperations.run_append (M : MapOperations State Key Value) (s : State)
    (before after : List (Operation Key Value)) :
    M.run s (before ++ after) =
      ((M.run s before).1 ++ (M.run (M.run s before).2 after).1,
        (M.run (M.run s before).2 after).2) := by
  induction before generalizing s with
  | nil => rfl
  | cons op before ih =>
      cases op with
      | put key val => exact ih (M.put s key val)
      | get key =>
          rw [List.cons_append, M.run_get, ih, M.run_get]
          rfl

/-! ## Refinement -/

/-- `lookup` is what a reader finds: getting answers it and keeps it, putting writes
`written key val` at the key. -/
structure MapOperations.Refines [DecidableEq Key] (M : MapOperations State Key Value)
    (lookup : State → Key → Value) (written : Key → Value → Value) : Prop where
  get_answer : ∀ s key, (M.get s key).1 = lookup s key
  lookup_get : ∀ s key, lookup (M.get s key).2 = lookup s
  lookup_put : ∀ s key val,
    lookup (M.put s key val) = Function.update (lookup s) key (written key val)

namespace MapOperations.Refines

variable [DecidableEq Key] {M : MapOperations State Key Value}
variable {lookup : State → Key → Value} {written : Key → Value → Value}

/-- What is found after a history. -/
theorem lookup_run (h : M.Refines lookup written) (s : State)
    (ops : List (Operation Key Value)) (key : Key) :
    lookup (M.run s ops).2 key =
      ((putsOn key ops).getLast?.map (written key)).getD (lookup s key) := by
  induction ops generalizing s with
  | nil => rfl
  | cons op ops ih =>
      cases op with
      | get k =>
          rw [M.run_get]
          show lookup (M.run (M.get s k).2 ops).2 key = _
          rw [ih, h.lookup_get]
          rfl
      | put k val =>
          rw [M.run_put, ih, h.lookup_put, putsOn]
          by_cases hk : k = key
          · -- a later put on the key counts, and this one if there is none
            subst hk
            rw [if_pos rfl, List.getLast?_cons, Function.update_self]
            cases (putsOn k ops).getLast? <;> rfl
          · rw [if_neg hk, Function.update_of_ne (Ne.symm hk)]

/-- The answers depend on what is found only. -/
theorem run_answers_congr (h : M.Refines lookup written) {s s' : State}
    (hs : lookup s = lookup s') (ops : List (Operation Key Value)) :
    (M.run s ops).1 = (M.run s' ops).1 := by
  induction ops generalizing s s' with
  | nil => rfl
  | cons op ops ih =>
      cases op with
      | put key val =>
          apply ih
          rw [h.lookup_put, h.lookup_put, hs]
      | get key =>
          have hrest : (M.run (M.get s key).2 ops).1 = (M.run (M.get s' key).2 ops).1 := by
            apply ih
            rw [h.lookup_get, h.lookup_get, hs]
          rw [M.run_get, M.run_get, hrest, h.get_answer, h.get_answer, hs]

/-- A read answers what is found, and can be left out without changing the others. -/
theorem run_get_between (h : M.Refines lookup written) (s : State)
    (before : List (Operation Key Value)) (key : Key) (after : List (Operation Key Value)) :
    (M.run s (before ++ .get key :: after)).1 =
      (M.run s before).1 ++ lookup (M.run s before).2 key ::
        (M.run (M.run s before).2 after).1 := by
  rw [M.run_append, M.run_get, h.get_answer,
    h.run_answers_congr (h.lookup_get (M.run s before).2 key) after]

/-- When what is put is kept, the map is an ordinary one. -/
theorem run_totalMap (h : M.Refines lookup fun _ val => val) (s : State)
    (ops : List (Operation Key Value)) :
    (M.run s ops).1 = (totalMap.run (lookup s) ops).1 := by
  induction ops generalizing s with
  | nil => rfl
  | cons op ops ih =>
      cases op with
      | put key val =>
          rw [M.run_put, ih, h.lookup_put]
          rfl
      | get key =>
          rw [M.run_get, ih, h.lookup_get, h.get_answer]
          rfl

end MapOperations.Refines

end CoFlo.Verified.MapHistory
