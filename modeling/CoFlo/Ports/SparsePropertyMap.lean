import CoFlo.Verified.MapHistory

/-!
# `SparsePropertyMap`

A map from vertices to values that stores no entry for a vertex it has not
been asked for, and none for a vertex whose value is the one that is no longer
needed.  `get` enters the default value of a key it does not find, so reading
changes the map; what a read returns afterwards does not change with it
(`lookup_get`).  Over a whole history a read returns the value put last, unless this
is the one that is no longer needed (`run_answers`).
-/

namespace CoFlo.Ports

open Verified.MapHistory

/-- `m_underlying_map`. -/
structure SparsePropertyMap (Key Value : Type) where
  underlyingMap : Key → Option Value

namespace SparsePropertyMap

variable {Key Value : Type} [DecidableEq Key] [DecidableEq Value]

/-- A map without entries. -/
def empty : SparsePropertyMap Key Value := ⟨fun _ => none⟩

/-- `put`, which erases the key when it is given `EntryNoLongerNeededValue`. -/
def put (entryNoLongerNeededValue : Value) (m : SparsePropertyMap Key Value)
    (key : Key) (val : Value) : SparsePropertyMap Key Value :=
  if val ≠ entryNoLongerNeededValue then
    ⟨Function.update m.underlyingMap key (some val)⟩
  else
    ⟨Function.update m.underlyingMap key none⟩

/-- `get`, together with the entry it makes for a key it does not find. -/
def get (defaultValueFunctor : Key → Value) (m : SparsePropertyMap Key Value)
    (key : Key) : Value × SparsePropertyMap Key Value :=
  match m.underlyingMap key with
  | none =>
      (defaultValueFunctor key,
        ⟨Function.update m.underlyingMap key (some (defaultValueFunctor key))⟩)
  | some value => (value, m)

/-- The value `get` returns. -/
def lookup (defaultValueFunctor : Key → Value) (m : SparsePropertyMap Key Value)
    (key : Key) : Value :=
  (m.underlyingMap key).getD (defaultValueFunctor key)

omit [DecidableEq Key] [DecidableEq Value] in
@[simp] theorem lookup_empty (f : Key → Value) (key : Key) :
    (empty : SparsePropertyMap Key Value).lookup f key = f key := rfl

omit [DecidableEq Value] in
@[simp] theorem get_fst (f : Key → Value) (m : SparsePropertyMap Key Value)
    (key : Key) : (m.get f key).1 = m.lookup f key := by
  unfold get lookup
  cases m.underlyingMap key <;> rfl

omit [DecidableEq Value] in
/-- Reading a key changes no value. -/
@[simp] theorem lookup_get (f : Key → Value) (m : SparsePropertyMap Key Value)
    (key k : Key) : (m.get f key).2.lookup f k = m.lookup f k := by
  unfold get lookup
  cases hkey : m.underlyingMap key with
  | some value => rfl
  | none =>
      by_cases hk : k = key
      · subst hk
        simp [hkey]
      · simp [hk]

/-- A value that is no longer needed is forgotten. -/
theorem lookup_put (f : Key → Value) (z : Value)
    (m : SparsePropertyMap Key Value) (key k : Key) (val : Value) :
    (m.put z key val).lookup f k =
      if k = key then (if val = z then f key else val) else m.lookup f k := by
  unfold put lookup
  by_cases hk : k = key
  · subst hk
    by_cases hval : val = z <;> simp [hval]
  · by_cases hval : val = z <;> simp [hval, hk]

/-- `put` after `get` of the same key. -/
theorem underlyingMap_put_get (f : Key → Value) (z : Value)
    (m : SparsePropertyMap Key Value) (key : Key) (val : Value) :
    ((m.get f key).2.put z key val).underlyingMap =
      Function.update m.underlyingMap key (if val = z then none else some val) := by
  unfold put get
  cases m.underlyingMap key <;> by_cases hval : val = z <;> simp [hval]

/-! ## Histories -/

/-- The operations of the map that is instantiated with `f` and `z`. -/
def operations (f : Key → Value) (z : Value) :
    MapOperations (SparsePropertyMap Key Value) Key Value where
  put m key val := m.put z key val
  get m key := m.get f key

theorem operations_refines (f : Key → Value) (z : Value) :
    (operations f z).Refines (lookup f) fun key val => if val = z then f key else val where
  get_answer m key := get_fst f m key
  lookup_get m key := funext fun k => lookup_get f m key k
  lookup_put m key val := by
    funext k
    show (m.put z key val).lookup f k = _
    rw [lookup_put, Function.update_apply]

/-- The value last put on the key, unless there is none or it is not needed. -/
def valueAfter (f : Key → Value) (z : Value) (history : List (Operation Key Value))
    (key : Key) : Value :=
  match (putsOn key history).getLast? with
  | some val => if val = z then f key else val
  | none => f key

theorem lookup_run (f : Key → Value) (z : Value) (history : List (Operation Key Value))
    (key : Key) :
    ((operations f z).run empty history).2.lookup f key = valueAfter f z history key := by
  rw [(operations_refines f z).lookup_run, valueAfter, lookup_empty]
  cases (putsOn key history).getLast? <;> rfl

/-- The constant default is what a forgotten value is found as. -/
theorem operations_const_refines (z : Value) :
    (operations (fun _ : Key => z) z).Refines (lookup fun _ => z) fun _ val => val where
  get_answer := (operations_refines (fun _ => z) z).get_answer
  lookup_get := (operations_refines (fun _ => z) z).lookup_get
  lookup_put m key val := by
    rw [(operations_refines (fun _ => z) z).lookup_put]
    by_cases hval : val = z
    · rw [if_pos hval, hval]
    · rw [if_neg hval]

/-- Every read of a history returns the value last put on its key, or the default of
the key when there is none or it is the one no longer needed; leaving a read out
changes no answer; and with that value as the default the map is an ordinary one. -/
theorem run_answers (f : Key → Value) (z : Value) :
    (∀ before key after, ∃ later,
      ((operations f z).run empty (before ++ after)).1 =
        ((operations f z).run empty before).1 ++ later ∧
      ((operations f z).run empty (before ++ .get key :: after)).1 =
        ((operations f z).run empty before).1 ++ valueAfter f z before key :: later) ∧
    ∀ ops, ((operations (fun _ => z) z).run empty ops).1 =
      (totalMap.run (fun _ : Key => z) ops).1 := by
  constructor
  · intro before key after
    refine ⟨((operations f z).run ((operations f z).run empty before).2 after).1, ?_, ?_⟩
    · rw [MapOperations.run_append]
    · rw [(operations_refines f z).run_get_between, lookup_run]
  · intro ops
    exact (operations_const_refines z).run_totalMap empty ops

end SparsePropertyMap

end CoFlo.Ports
