import CoFlo.Ports.Characters
import CoFlo.Ports.MatchedCalls
import CoFlo.Verified.Backtracking

/-!
# The constraints of the command line

`Analyzer::AddConstraints` reads strings of the form `f1() -x f2()` and adds a
`RuleReachability` for each.  The names are read with a regular expression of its
own, which wants two characters or more and knows no `::`; the identifiers of the
parser may be shorter, and may be qualified.  So a constraint on such a function is
reported as unparsable and not checked (`addConstraints_iff`).
-/

namespace CoFlo.Ports

open CoFlo.Verified.Backtracking CoFlo.Verified.Backtracking.Pattern

/-! ## `AddConstraints` -/

/-- `[[:alpha:]_]`. -/
def isNameStart (c : Char) : Bool := c.isAlpha || c == '_'

/-- `[[:alnum:]_]`. -/
def isNameChar (c : Char) : Bool := c.isAlphanum || c == '_'

/-- `[[:alpha:]_][[:alnum:]_]+`. -/
def constraintName : Pattern (List Char) := do
  let c ← char isNameStart
  let cs ← greedySome isNameChar
  pure (c :: cs)

/-- `f_fxf_regex`. -/
def fxfRegex : Pattern (List Char × List Char) := do
  let f1 ← constraintName
  let _ ← literal "() -x ".toList
  let f2 ← constraintName
  let _ ← literal "()".toList
  pure (f1, f2)

/-- A `RuleReachability` object. -/
structure ReachabilityConstraint where
  source : FunctionPtr
  sink : FunctionPtr
  deriving DecidableEq, Repr

/-- An `Analyzer`, with what it has printed on `std::cerr`. -/
structure Analyzer where
  constraints : List ReachabilityConstraint
  output : List String
  deriving DecidableEq, Repr

namespace Analyzer

/-- Prints a line. -/
def print (a : Analyzer) (line : String) : Analyzer :=
  { a with output := a.output ++ [line] }

/-- One round of the loop of `AddConstraints`. -/
def addConstraint (p : Program) (a : Analyzer) (s : String) : Analyzer :=
  match fullMatch fxfRegex (cStr s) with
  | some (name1, name2) =>
      match p.functionMap (.ofList name1), p.functionMap (.ofList name2) with
      | none, _ => a.print ("ERROR: Can't find function: " ++ .ofList name1)
      | some _, none => a.print ("ERROR: Can't find function: " ++ .ofList name2)
      | some f1, some f2 =>
          let a := a.print ("INFO: Adding constraint: " ++ (p.heap.function f1).functionId ++
            "() -x " ++ (p.heap.function f2).functionId ++ "()")
          { a with constraints := a.constraints ++ [⟨f1, f2⟩] }
  | none => a.print ("ERROR: Can't parse constraint: " ++ s)

/-- `AddConstraints`. -/
def addConstraints (p : Program) (a : Analyzer) (constraintStrings : List String) :
    Analyzer :=
  constraintStrings.foldl (addConstraint p) (a.print "INFO: Adding constraints...")

end Analyzer

/-! ## Identifiers -/

/-- `([a-zA-Z0-9_]|::)*`. -/
def isIdentifierRest : List Char → Bool
  | [] => true
  | ':' :: ':' :: s => isIdentifierRest s
  | c :: s => isNameChar c && isIdentifierRest s

/-- The token `identifier` of the grammar: `(::)?[a-zA-Z_]([a-zA-Z0-9_]|::)*`. -/
def isIdentifier : List Char → Bool
  | ':' :: ':' :: c :: s => isNameStart c && isIdentifierRest s
  | c :: s => isNameStart c && isIdentifierRest s
  | [] => false

/-- Two characters or more, and no colon: the names that a constraint can have in it. -/
def LongAndColonFree (name : List Char) : Prop := ':' ∉ name ∧ 2 ≤ name.length

instance (name : List Char) : Decidable (LongAndColonFree name) :=
  inferInstanceAs (Decidable (_ ∧ _))

/-- `s` is a constraint that names `name1` and `name2`. -/
def IsConstraint (s : List Char) (name1 name2 : List Char) : Prop :=
  isIdentifier name1 = true ∧ isIdentifier name2 = true ∧
    s = name1 ++ "() -x ".toList ++ name2 ++ "()".toList

theorem isNameChar_of_isNameStart {c : Char} (hc : isNameStart c = true) :
    isNameChar c = true := by
  unfold isNameStart at hc
  unfold isNameChar Char.isAlphanum
  simp only [Bool.or_eq_true] at hc ⊢
  tauto

theorem ne_of_isNameChar {c d : Char} (hc : isNameChar c = true) (hd : isNameChar d = false) :
    d ≠ c := by
  rintro rfl
  rw [hc] at hd
  exact absurd hd (by decide)

theorem isIdentifierRest_iff {s : List Char} (hs : ':' ∉ s) :
    isIdentifierRest s = true ↔ ∀ c ∈ s, isNameChar c = true := by
  induction s with
  | nil => simp [isIdentifierRest]
  | cons c s ih =>
      rw [List.mem_cons, not_or] at hs
      have hstep : isIdentifierRest (c :: s) = (isNameChar c && isIdentifierRest s) := by
        rw [isIdentifierRest]
        rintro t rfl
        exact absurd rfl hs.1
      rw [hstep, Bool.and_eq_true, ih hs.2, List.forall_mem_cons]

/-- What there is in an identifier besides the characters of a name. -/
theorem notMem_identifierRest {s : List Char} (hs : isIdentifierRest s = true) {d : Char}
    (hd : isNameChar d = false) (hcolon : d ≠ ':') : d ∉ s := by
  fun_induction isIdentifierRest s with
  | case1 => exact List.not_mem_nil
  | case2 s ih => simpa [hcolon] using ih hs
  | case3 c s hne ih =>
      rw [Bool.and_eq_true] at hs
      rw [List.mem_cons, not_or]
      exact ⟨ne_of_isNameChar hs.1 hd, ih hs.2⟩

theorem notMem_identifier {s : List Char} (hs : isIdentifier s = true) {d : Char}
    (hd : isNameChar d = false) (hcolon : d ≠ ':') : d ∉ s := by
  unfold isIdentifier at hs
  split at hs
  · rw [Bool.and_eq_true] at hs
    have hne := ne_of_isNameChar (isNameChar_of_isNameStart hs.1) hd
    simp [hcolon, hne, notMem_identifierRest hs.2 hd hcolon]
  · rw [Bool.and_eq_true] at hs
    have hne := ne_of_isNameChar (isNameChar_of_isNameStart hs.1) hd
    simp [hne, notMem_identifierRest hs.2 hd hcolon]
  · exact List.not_mem_nil

theorem isIdentifier_cons {c : Char} (hc : c ≠ ':') (s : List Char) :
    isIdentifier (c :: s) = (isNameStart c && isIdentifierRest s) := by
  unfold isIdentifier
  split
  · next heq => exact absurd (List.cons.inj heq).1 hc
  · next heq =>
      obtain ⟨rfl, rfl⟩ := List.cons.inj heq
      rfl
  · next heq => exact absurd heq (List.cons_ne_nil _ _)

/-- What the regular expression takes for a name. -/
theorem mem_constraintName {name s rest : List Char} :
    (name, rest) ∈ constraintName s ↔
      s = name ++ rest ∧ isIdentifier name = true ∧ LongAndColonFree name := by
  unfold constraintName
  simp only [mem_bind, mem_char, mem_greedySome, mem_pure]
  constructor
  · rintro ⟨c, t, ⟨rfl, hc⟩, cs, t', ⟨rfl, hne, hcs⟩, rfl, rfl⟩
    have hcolon : ':' ∉ cs := fun hmem => ne_of_isNameChar (hcs _ hmem) (by decide) rfl
    have hc' : ':' ≠ c := ne_of_isNameChar (isNameChar_of_isNameStart hc) (by decide)
    refine ⟨rfl, ?_, ?_, ?_⟩
    · rw [isIdentifier_cons hc'.symm, hc, (isIdentifierRest_iff hcolon).mpr hcs]
      rfl
    · simp [hc', hcolon]
    · have := List.length_pos_iff.mpr hne
      rw [List.length_cons]
      omega
  · rintro ⟨rfl, hname, hcolon, hlength⟩
    cases name with
    | nil => simp at hlength
    | cons c cs =>
        rw [List.mem_cons, not_or] at hcolon
        rw [isIdentifier_cons (Ne.symm hcolon.1), Bool.and_eq_true,
          isIdentifierRest_iff hcolon.2] at hname
        have hne : cs ≠ [] := by
          rintro rfl
          simp at hlength
        exact ⟨c, cs ++ rest, ⟨rfl, hname.1⟩, cs, rest, ⟨rfl, hne, hname.2⟩, rfl, rfl⟩

/-- The parenthesis ends a name. -/
theorem takeWhile_name {name rest : List Char} (hname : isIdentifier name = true) :
    (name ++ '(' :: rest).takeWhile (· ≠ '(') = name := by
  have hall : ∀ c ∈ name, (decide (c ≠ '(')) = true := fun c hc =>
    decide_eq_true fun heq => notMem_identifier hname (by decide) (by decide) (heq ▸ hc)
  rw [List.takeWhile_append_of_pos hall]
  simp

/-- The names of a constraint. -/
theorem IsConstraint.unique {s name1 name2 name1' name2' : List Char}
    (h : IsConstraint s name1 name2) (h' : IsConstraint s name1' name2') :
    name1 = name1' ∧ name2 = name2' := by
  obtain ⟨h1, h2, rfl⟩ := h
  obtain ⟨h1', h2', heq⟩ := h'
  have hnames : name1 = name1' := by
    have htake := congrArg (List.takeWhile (· ≠ '(')) heq
    simp only [List.append_assoc] at htake
    rwa [show "() -x ".toList = '(' :: ") -x ".toList from rfl, List.cons_append,
      List.cons_append, takeWhile_name h1, takeWhile_name h1'] at htake
  subst hnames
  simp only [List.append_assoc] at heq
  have htake := congrArg (List.takeWhile (· ≠ '(')) (List.append_cancel_left
    (List.append_cancel_left heq))
  rw [show "()".toList = '(' :: [')'] from rfl, takeWhile_name h2, takeWhile_name h2'] at htake
  exact ⟨rfl, htake⟩

/-- What the regular expression matches. -/
theorem fullMatch_fxfRegex {s name1 name2 : List Char} :
    fullMatch fxfRegex s = some (name1, name2) ↔
      IsConstraint s name1 name2 ∧ LongAndColonFree name1 ∧ LongAndColonFree name2 := by
  have hmem : ∀ n1 n2, ((n1, n2), []) ∈ fxfRegex s ↔
      IsConstraint s n1 n2 ∧ LongAndColonFree n1 ∧ LongAndColonFree n2 := by
    intro n1 n2
    unfold fxfRegex IsConstraint
    simp only [mem_bind, mem_constraintName, mem_literal, mem_pure, Prod.mk.injEq]
    constructor
    · rintro ⟨m1, t1, ⟨rfl, h1, hp1⟩, -, t2, rfl, m2, t3, ⟨rfl, h2, hp2⟩, -, t4, rfl,
        ⟨rfl, rfl⟩, rfl⟩
      exact ⟨⟨h1, h2, by simp⟩, hp1, hp2⟩
    · rintro ⟨⟨h1, h2, rfl⟩, hp1, hp2⟩
      exact ⟨n1, _, ⟨by rw [List.append_assoc, List.append_assoc], h1, hp1⟩, (), _, rfl, n2, _,
        ⟨rfl, h2, hp2⟩, (), [], (List.append_nil _).symm, ⟨rfl, rfl⟩, rfl⟩
  constructor
  · exact fun h => (hmem name1 name2).mp (mem_of_fullMatch h)
  · intro h
    cases hmatch : fullMatch fxfRegex s with
    | none => exact absurd ((hmem name1 name2).mpr h) (fullMatch_eq_none_iff.mp hmatch _)
    | some x =>
        have hx := (hmem x.1 x.2).mp (mem_of_fullMatch hmatch)
        obtain ⟨h1, h2⟩ := h.1.unique hx.1
        rw [h1, h2]

/-! ## The rules that are added -/

/-- The functions of the program that have these names. -/
def namedFunctions (p : Program) (names : List Char × List Char) :
    Option ReachabilityConstraint := do
  let f1 ← p.functionMap (.ofList names.1)
  let f2 ← p.functionMap (.ofList names.2)
  pure ⟨f1, f2⟩

/-- The rules which `AddConstraints` adds. -/
def addedRules (p : Program) (constraintStrings : List String) :
    List ReachabilityConstraint :=
  constraintStrings.filterMap fun s =>
    (fullMatch fxfRegex (cStr s)).bind (namedFunctions p)

theorem constraints_addConstraint (p : Program) (a : Analyzer) (s : String) :
    (a.addConstraint p s).constraints = a.constraints ++ addedRules p [s] := by
  unfold Analyzer.addConstraint addedRules
  rw [List.filterMap_cons, List.filterMap_nil]
  cases fullMatch fxfRegex (cStr s) with
  | none => simp [Analyzer.print]
  | some x =>
      simp only [Option.bind_some, namedFunctions]
      cases p.functionMap (.ofList x.1) <;> cases p.functionMap (.ofList x.2) <;>
        simp [Analyzer.print]

theorem constraints_addConstraints (p : Program) (a : Analyzer)
    (constraintStrings : List String) :
    (a.addConstraints p constraintStrings).constraints =
      a.constraints ++ addedRules p constraintStrings := by
  unfold Analyzer.addConstraints
  suffices h : ∀ b : Analyzer, (constraintStrings.foldl (Analyzer.addConstraint p) b).constraints =
      b.constraints ++ addedRules p constraintStrings from h _
  induction constraintStrings with
  | nil => simp [addedRules]
  | cons s ss ih =>
      intro b
      rw [List.foldl_cons, ih, constraints_addConstraint, List.append_assoc]
      congr 1
      rw [addedRules, addedRules, addedRules, ← List.filterMap_append, List.singleton_append]

/-! ## The rules that are wanted -/

/-- The names of a constraint. -/
def constraintNames (s : List Char) : Option (List Char × List Char) :=
  let name1 := s.takeWhile (· ≠ '(')
  let name2 := (s.drop (name1.length + 6)).takeWhile (· ≠ '(')
  if isIdentifier name1 && isIdentifier name2 &&
      s == name1 ++ "() -x ".toList ++ name2 ++ "()".toList then
    some (name1, name2)
  else none

theorem constraintNames_eq_some_iff {s name1 name2 : List Char} :
    constraintNames s = some (name1, name2) ↔ IsConstraint s name1 name2 := by
  unfold constraintNames
  constructor
  · intro h
    simp only [Bool.and_eq_true, beq_iff_eq] at h
    split_ifs at h with hcond
    obtain ⟨⟨h1, h2⟩, hs⟩ := hcond
    obtain ⟨rfl, rfl⟩ := Prod.mk.inj (Option.some.inj h)
    exact ⟨h1, h2, hs⟩
  · rintro ⟨h1, h2, rfl⟩
    have hname1 : (name1 ++ "() -x ".toList ++ name2 ++ "()".toList).takeWhile (· ≠ '(') =
        name1 := by
      rw [List.append_assoc, List.append_assoc]
      exact takeWhile_name h1
    have hname2 : ((name1 ++ "() -x ".toList ++ name2 ++ "()".toList).drop
        (name1.length + 6)).takeWhile (· ≠ '(') = name2 := by
      have hdrop : (name1 ++ "() -x ".toList ++ name2 ++ "()".toList).drop (name1.length + 6) =
          name2 ++ "()".toList := by
        rw [List.append_assoc]
        exact List.drop_left' (by simp)
      rw [hdrop]
      exact takeWhile_name h2
    simp only [hname1, hname2, h1, h2, Bool.and_self, beq_self_eq_true, if_true]

/-- The rules for the well-formed constraints that name functions of the
program. -/
def wantedRules (p : Program) (constraintStrings : List String) :
    List ReachabilityConstraint :=
  constraintStrings.filterMap fun s =>
    (constraintNames (cStr s)).bind (namedFunctions p)

theorem filterMap_eq_iff {α β : Type*} {f g : α → Option β}
    (hfg : ∀ a, f a = none ∨ f a = g a) {l : List α} :
    l.filterMap f = l.filterMap g ↔ ∀ a ∈ l, f a = g a := by
  have hlength : ∀ l : List α, (l.filterMap f).length ≤ (l.filterMap g).length := by
    intro l
    induction l with
    | nil => exact Nat.le_refl 0
    | cons a l ih =>
        rw [List.filterMap_cons, List.filterMap_cons]
        rcases hfg a with hf | hf
        · rw [hf]
          cases g a with
          | none => exact ih
          | some b => exact Nat.le_succ_of_le ih
        · rw [hf]
          cases g a with
          | none => exact ih
          | some b => exact Nat.succ_le_succ ih
  constructor
  · induction l with
    | nil => exact fun _ a ha => absurd ha List.not_mem_nil
    | cons a l ih =>
        intro heq
        rw [List.filterMap_cons, List.filterMap_cons] at heq
        have hle := hlength l
        have ha : f a = g a := by
          rcases hfg a with hf | hf
          · cases hg : g a with
            | none => exact hf
            | some b =>
                rw [hf, hg] at heq
                have hlen := congrArg List.length heq
                dsimp only at hlen
                rw [List.length_cons] at hlen
                omega
          · exact hf
        rw [ha] at heq
        intro b hb
        rcases List.mem_cons.mp hb with rfl | hb
        · exact ha
        · refine ih ?_ b hb
          cases hg : g a with
          | none => simpa [hg] using heq
          | some c => simpa [hg] using heq
  · exact fun h => List.filterMap_congr h

/-- A constraint that is well formed is added when its names are plain. -/
theorem addedRule_eq_iff (p : Program) (s : List Char) :
    (fullMatch fxfRegex s).bind (namedFunctions p) =
        (constraintNames s).bind (namedFunctions p) ↔
      ∀ name1 name2, IsConstraint s name1 name2 →
        (namedFunctions p (name1, name2)).isSome →
          LongAndColonFree name1 ∧ LongAndColonFree name2 := by
  cases hnames : constraintNames s with
  | none =>
      have hmatch : fullMatch fxfRegex s = none := by
        cases hmatch : fullMatch fxfRegex s with
        | none => rfl
        | some x =>
            have hx := constraintNames_eq_some_iff.mpr
              (fullMatch_fxfRegex.mp (show _ = some (x.1, x.2) from hmatch)).1
            rw [hnames] at hx
            exact absurd hx (by simp)
      rw [hmatch]
      refine iff_of_true rfl fun name1 name2 h _ => ?_
      rw [constraintNames_eq_some_iff.mpr h] at hnames
      exact absurd hnames (by simp)
  | some x =>
      have hx := constraintNames_eq_some_iff.mp (show _ = some (x.1, x.2) from hnames)
      rw [Option.bind_some]
      constructor
      · intro heq name1 name2 h hsome
        obtain ⟨rfl, rfl⟩ := h.unique hx
        cases hmatch : fullMatch fxfRegex s with
        | none =>
            rw [hmatch, Option.bind_none] at heq
            rw [← heq] at hsome
            exact absurd hsome (by decide)
        | some y =>
            obtain ⟨hy, hplain⟩ := fullMatch_fxfRegex.mp (show _ = some (y.1, y.2) from hmatch)
            obtain ⟨h1, h2⟩ := hx.unique hy
            rw [h1, h2]
            exact hplain
      · intro h
        cases hsome : namedFunctions p x with
        | none =>
            cases hmatch : fullMatch fxfRegex s with
            | none => rfl
            | some y =>
                have hy := (fullMatch_fxfRegex.mp (show _ = some (y.1, y.2) from hmatch)).1
                obtain ⟨h1, h2⟩ := hx.unique hy
                rw [Option.bind_some, ← hsome]
                exact congrArg _ (Prod.ext h1.symm h2.symm)
        | some r =>
            have hplain := h x.1 x.2 hx (by rw [hsome]; rfl)
            rw [fullMatch_fxfRegex.mpr ⟨hx, hplain⟩, Option.bind_some, hsome]

theorem addedRules_eq_iff (p : Program) (constraintStrings : List String) :
    addedRules p constraintStrings = wantedRules p constraintStrings ↔
      ∀ s ∈ constraintStrings, ∀ name1 name2, IsConstraint (cStr s) name1 name2 →
        (namedFunctions p (name1, name2)).isSome →
          LongAndColonFree name1 ∧ LongAndColonFree name2 := by
  unfold addedRules wantedRules
  rw [filterMap_eq_iff fun s => ?_]
  · simp only [addedRule_eq_iff]
  · cases hmatch : fullMatch fxfRegex (cStr s) with
    | none => exact .inl rfl
    | some y =>
        right
        have hy := (fullMatch_fxfRegex.mp (show _ = some (y.1, y.2) from hmatch)).1
        rw [constraintNames_eq_some_iff.mpr hy]

/-- The constraint on two functions. -/
theorem cStr_constraint {name1 name2 : String} (h1 : isIdentifier name1.toList = true)
    (h2 : isIdentifier name2.toList = true) :
    IsConstraint (cStr (name1 ++ "() -x " ++ name2 ++ "()")) name1.toList name2.toList := by
  have hnul : ∀ {name : List Char}, isIdentifier name = true → '\x00' ∉ name :=
    fun hname => notMem_identifier hname (by decide) (by decide)
  rw [cStr_eq]
  · exact ⟨h1, h2, by simp⟩
  · simp [hnul h1, hnul h2]

/-- **A constraint between two functions is added exactly when their names are
plain**: they have two characters or more and no colons.  **The rules that are
added are the wanted ones exactly when all names in the list are plain.** -/
theorem addConstraints_iff (p : Program) (a : Analyzer) :
    (∀ (name1 name2 : String) (f1 f2 : FunctionPtr), isIdentifier name1.toList = true →
      isIdentifier name2.toList = true → p.functionMap name1 = some f1 →
        p.functionMap name2 = some f2 →
          ((a.addConstraints p [name1 ++ "() -x " ++ name2 ++ "()"]).constraints =
              a.constraints ++ [⟨f1, f2⟩] ↔
            LongAndColonFree name1.toList ∧ LongAndColonFree name2.toList)) ∧
    ∀ constraintStrings : List String,
      ((a.addConstraints p constraintStrings).constraints =
          a.constraints ++ wantedRules p constraintStrings ↔
        ∀ s ∈ constraintStrings, ∀ name1 name2, IsConstraint (cStr s) name1 name2 →
          (namedFunctions p (name1, name2)).isSome →
            LongAndColonFree name1 ∧ LongAndColonFree name2) := by
  constructor
  · intro name1 name2 f1 f2 h1 h2 hf1 hf2
    have hconstraint := cStr_constraint h1 h2
    have hnamed : namedFunctions p (name1.toList, name2.toList) = some ⟨f1, f2⟩ := by
      simp [namedFunctions, hf1, hf2]
    have hwanted : wantedRules p [name1 ++ "() -x " ++ name2 ++ "()"] = [⟨f1, f2⟩] := by
      unfold wantedRules
      rw [List.filterMap_cons, constraintNames_eq_some_iff.mpr hconstraint, Option.bind_some,
        hnamed]
      rfl
    rw [constraints_addConstraints, List.append_cancel_left_eq, ← hwanted, addedRules_eq_iff]
    constructor
    · exact fun h => h _ (List.mem_singleton_self _) _ _ hconstraint (by rw [hnamed]; rfl)
    · intro hplain s hs m1 m2 hm _
      rw [List.mem_singleton.mp hs] at hm
      obtain ⟨rfl, rfl⟩ := hm.unique hconstraint
      exact hplain
  · intro constraintStrings
    rw [constraints_addConstraints, List.append_cancel_left_eq, addedRules_eq_iff]

/-- `void init() {}` and `int main() {}`. -/
def longNames : List FunctionInfo := [⟨"f.c", "init", []⟩, ⟨"f.c", "main", []⟩]

theorem addConstraints_iff_longNames :
    ∃ p, Program.parse blankMemory .ascending longNames = .ok p ∧
      LongAndColonFree "init".toList ∧ LongAndColonFree "main".toList ∧
      (Analyzer.addConstraints p ⟨[], []⟩ ["init" ++ "() -x " ++ "main" ++ "()"]).constraints =
        [] ++ [⟨1, 2⟩] := by
  have hcheck : (Program.parse blankMemory .ascending longNames).Holds
      fun p => p.functionMap "init" = some 1 ∧ p.functionMap "main" = some 2 := by
    decide +kernel
  obtain ⟨p, hrun, hinit, hmain⟩ := hcheck
  have hnames : LongAndColonFree "init".toList ∧ LongAndColonFree "main".toList := by
    decide
  exact ⟨p, hrun, hnames.1, hnames.2,
    ((addConstraints_iff p ⟨[], []⟩).1 "init" "main" 1 2 rfl rfl hinit hmain).mpr hnames⟩

/-- `void f() {}` and `int main() {}`. -/
def shortName : List FunctionInfo := [⟨"f.c", "f", []⟩, ⟨"f.c", "main", []⟩]

/-- The constraint between `f` and `main` is not added. -/
theorem shortName_not_addConstraints :
    ∃ p, LinkedProgram p ∧ p.functionMap "f" = some 1 ∧ p.functionMap "main" = some 2 ∧
      isIdentifier "f".toList = true ∧ isIdentifier "main".toList = true ∧
      (Analyzer.addConstraints p ⟨[], []⟩ ["f() -x main()"]).constraints = [] ∧
      wantedRules p ["f() -x main()"] = [⟨1, 2⟩] := by
  have hcheck : (Program.parse blankMemory .ascending shortName).Holds
      fun p => p.functionMap "f" = some 1 ∧ p.functionMap "main" = some 2 ∧
        (Analyzer.addConstraints p ⟨[], []⟩ ["f() -x main()"]).constraints = [] ∧
        wantedRules p ["f() -x main()"] = [⟨1, 2⟩] := by
    decide +kernel
  obtain ⟨p, hrun, hf, hmain, hadded, hwanted⟩ := hcheck
  exact ⟨p, linkedProgram_of_parse (by decide) hrun, hf, hmain, rfl, rfl, hadded, hwanted⟩

end CoFlo.Ports
