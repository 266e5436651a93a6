import CoFlo.Ports.LocationString
import CoFlo.Ports.WriteGraphvizDotFileVisitor
import Mathlib.Algebra.Ring.Parity

/-!
# The labels of a dot file

In a dot file a double quote ends a string unless an odd number of backslashes
stands before it.  The text of an unresolved call puts one backslash before
every quote of the parameters, those which have one already included, so the
label is well formed exactly when no quote of the parameters is escaped; the
text of an `If` puts none (`nodeLine_quotesEscaped_iff`).
-/

namespace CoFlo.Ports

/-! ## Escaped quotes -/

/-- The number of backslashes at the end of a text. -/
def trailingBackslashes (l : List Char) : Nat :=
  (l.reverse.takeWhile (· = '\\')).length

/-- Every double quote stands behind an odd number of backslashes. -/
def QuotesEscaped (s : List Char) : Prop :=
  ∀ l r, s = l ++ '\"' :: r → Odd (trailingBackslashes l)

/-- No double quote stands behind an odd number of backslashes. -/
def QuotesPlain (s : List Char) : Prop :=
  ∀ l r, s = l ++ '\"' :: r → Even (trailingBackslashes l)

/-- Every double quote stands behind an odd number of backslashes, or an even
one; `odd` says which it is where the text starts. -/
def quotesAre (wanted : Bool) : Bool → List Char → Bool
  | _, [] => true
  | odd, c :: s =>
      if c = '\\' then quotesAre wanted (!odd) s
      else if c = '\"' then odd == wanted && quotesAre wanted false s
      else quotesAre wanted false s

/-- The parity of the backslashes at the end of a text. -/
def parityAfter (odd : Bool) (s : List Char) : Bool :=
  s.foldl (fun odd c => c == '\\' && !odd) odd

theorem quotesAre_append (wanted odd : Bool) (s t : List Char) :
    quotesAre wanted odd (s ++ t) =
      (quotesAre wanted odd s && quotesAre wanted (parityAfter odd s) t) := by
  induction s generalizing odd with
  | nil => rfl
  | cons c s ih =>
      rw [List.cons_append, quotesAre, quotesAre, parityAfter, List.foldl_cons]
      by_cases hslash : c = '\\'
      · subst hslash
        exact ih (!odd)
      · have hparity : (c == '\\' && !odd) = false := by simp [hslash]
        rw [if_neg hslash, if_neg hslash, hparity, ih false]
        split_ifs
        · rw [Bool.and_assoc]
          rfl
        · rfl

theorem parityAfter_concat (odd : Bool) (s : List Char) (c : Char) :
    parityAfter odd (s ++ [c]) = (c == '\\' && !parityAfter odd s) := by
  unfold parityAfter
  rw [List.foldl_append]
  rfl

theorem parityAfter_eq (s : List Char) :
    parityAfter false s = decide (Odd (trailingBackslashes s)) := by
  induction s using List.reverseRecOn with
  | nil => rfl
  | append_singleton s c ih =>
      rw [parityAfter_concat, ih]
      unfold trailingBackslashes
      rw [List.reverse_append, List.reverse_singleton, List.singleton_append]
      by_cases hslash : c = '\\'
      · have hodd : ∀ n, Odd (n + 1) ↔ ¬ Odd n := fun n => Nat.odd_add_one
        simp [hslash, hodd, -Nat.not_odd_iff_even]
      · simp [hslash]

/-- The search for a quote with the wrong number of backslashes. -/
theorem quotesAre_iff {wanted : Bool} {s : List Char} :
    quotesAre wanted false s = true ↔
      ∀ l r, s = l ++ '\"' :: r → decide (Odd (trailingBackslashes l)) = wanted := by
  constructor
  · rintro h l r rfl
    rw [quotesAre_append, parityAfter_eq, Bool.and_eq_true] at h
    have hquote := h.2
    rw [quotesAre, if_neg (by decide), if_pos rfl, Bool.and_eq_true, beq_iff_eq] at hquote
    exact hquote.1
  · intro h
    induction s using List.reverseRecOn with
    | nil => rfl
    | append_singleton s c ih =>
        rw [quotesAre_append, Bool.and_eq_true]
        refine ⟨ih fun l r hs => h l (r ++ [c]) (by simp [hs]), ?_⟩
        rw [quotesAre, quotesAre, quotesAre]
        split_ifs with hslash hquote
        · rfl
        · rw [parityAfter_eq, h s [] (by rw [hquote]), beq_self_eq_true]
          rfl
        · rfl

theorem quotesEscaped_iff {s : List Char} :
    QuotesEscaped s ↔ quotesAre true false s = true := by
  simp only [quotesAre_iff, decide_eq_true_eq]
  rfl

theorem quotesPlain_iff {s : List Char} :
    QuotesPlain s ↔ quotesAre false false s = true := by
  simp only [quotesAre_iff, decide_eq_false_iff_not, Nat.not_odd_iff_even]
  rfl

/-- After an escape the parity is that of the text before it, and every quote
has one more backslash. -/
theorem quotesAre_escapeify (odd : Bool) (s : List Char) :
    quotesAre true odd (escapeifyForUseInDotLabel s) = quotesAre false odd s := by
  fun_induction escapeifyForUseInDotLabel s generalizing odd with
  | case1 => rfl
  | case2 cs ih => simp [quotesAre, ih]
  | case3 cs hn ih => simp [quotesAre, ih]
  | case4 c cs hn hquote ih => simp [quotesAre, hquote, ih]

/-! ## The label of a node -/

/-- What is printed between `label="` and the closing quote. -/
def DotLine.label (memory : Int × Int) : DotLine → String
  | .header name => name
  | .node index text location _ _ =>
      toString index ++ " " ++ text ++ "\\n" ++ (location.members memory).asLineColumn
  | .edge _ _ label _ _ => label

/-- No quotes and no backslashes. -/
def Unremarkable (s : List Char) : Prop := ∀ c ∈ s, c ≠ '\"' ∧ c ≠ '\\'

theorem Unremarkable.append {s t : List Char} (hs : Unremarkable s) (ht : Unremarkable t) :
    Unremarkable (s ++ t) := fun c hc =>
  (List.mem_append.mp hc).elim (hs c) (ht c)

theorem unremarkable_singleton {c : Char} (hquote : c ≠ '\"') (hslash : c ≠ '\\') :
    Unremarkable [c] := fun _ hd => by
  rw [List.mem_singleton.mp hd]
  exact ⟨hquote, hslash⟩

theorem unremarkable_toString (n : Nat) : Unremarkable (toString n).toList := by
  intro c hc
  rw [Nat.toString_eq_ofList_toDigits, String.toList_ofList] at hc
  have hdigit := (digits_toDigits n).2 c hc
  constructor
  · rintro rfl
    exact absurd hdigit (by decide)
  · rintro rfl
    exact absurd hdigit (by decide)

theorem unremarkable_asLineColumn (m : LocationMembers) :
    Unremarkable m.asLineColumn.toList := by
  have hint : ∀ i : Int, Unremarkable (toString i).toList := by
    intro i
    cases i with
    | ofNat n => exact unremarkable_toString n
    | negSucc n =>
        show Unremarkable ("-" ++ toString (n + 1)).toList
        rw [String.toList_append]
        refine Unremarkable.append ?_ (unremarkable_toString _)
        exact unremarkable_singleton (by decide) (by decide)
  unfold LocationMembers.asLineColumn
  rw [String.toList_append]
  refine (hint _).append ?_
  split_ifs
  · rw [String.toList_append]
    refine Unremarkable.append ?_ (hint _)
    exact unremarkable_singleton (by decide) (by decide)
  · exact fun c hc => absurd hc (by simp)

theorem quotesAre_of_unremarkable {s : List Char} (hs : Unremarkable s) (wanted odd : Bool) :
    quotesAre wanted odd s = true := by
  induction s generalizing odd with
  | nil => rfl
  | cons c s ih =>
      obtain ⟨hquote, hslash⟩ := hs c List.mem_cons_self
      rw [quotesAre, if_neg hslash, if_neg hquote]
      exact ih (fun d hd => hs d (List.mem_cons_of_mem _ hd)) false

theorem parityAfter_of_unremarkable {s : List Char} (hs : Unremarkable s) :
    parityAfter false s = false := by
  induction s with
  | nil => rfl
  | cons c s ih =>
      have hslash := (hs c List.mem_cons_self).2
      have hparity : (c == '\\' && !false) = false := by simp [hslash]
      rw [parityAfter, List.foldl_cons, hparity]
      exact ih fun d hd => hs d (List.mem_cons_of_mem _ hd)

/-- What stands around the text of a node does not matter. -/
theorem quotesEscaped_label_node (memory : Int × Int) (index : Nat) (text : String)
    (location : Location) (color shape : String) :
    QuotesEscaped (DotLine.label memory (.node index text location color shape)).toList ↔
      quotesAre true false text.toList = true := by
  have hindex : Unremarkable (toString index ++ " ").toList := by
    rw [String.toList_append]
    refine (unremarkable_toString index).append ?_
    exact unremarkable_singleton (by decide) (by decide)
  have hrest : ∀ odd, quotesAre true odd
      ('\\' :: 'n' :: (location.members memory).asLineColumn.toList) = true := fun odd => by
    simpa [quotesAre] using
      quotesAre_of_unremarkable (unremarkable_asLineColumn _) true false
  have htext : (DotLine.label memory (.node index text location color shape)).toList =
      (toString index ++ " ").toList ++
        (text.toList ++ '\\' :: 'n' :: (location.members memory).asLineColumn.toList) := by
    simp [DotLine.label]
  rw [quotesEscaped_iff, htext, quotesAre_append, quotesAre_of_unremarkable hindex,
    parityAfter_of_unremarkable hindex, quotesAre_append, hrest, Bool.and_true, Bool.true_and]

theorem quotesAre_functionCallUnresolved (h : Heap) (identifier params : String) :
    quotesAre true false
        ((Statement.functionCallUnresolved identifier params).textDOT h).toList = true ↔
      QuotesEscaped identifier.toList ∧ QuotesPlain params.toList := by
  have htext : ((Statement.functionCallUnresolved identifier params).textDOT h).toList =
      identifier.toList ++ '(' :: (escapeifyForUseInDotLabel params.toList ++ [')']) := by
    simp [Statement.textDOT]
  have hclosing : ∀ odd, quotesAre true odd [')'] = true := fun odd => by
    cases odd <;> rfl
  rw [htext, quotesAre_append, Bool.and_eq_true, quotesEscaped_iff, quotesPlain_iff,
    quotesAre, if_neg (by decide), if_neg (by decide), quotesAre_append, hclosing,
    Bool.and_true, quotesAre_escapeify]

theorem quotesAre_ifStatement (h : Heap) (condition : String) :
    quotesAre true false ((Statement.ifStatement condition).textDOT h).toList = true ↔
      QuotesEscaped condition.toList := by
  have htext : ((Statement.ifStatement condition).textDOT h).toList =
      "if(".toList ++ (condition.toList ++ [')']) := by
    simp [Statement.textDOT, Statement.identifierCFG]
  have hopening : ∀ s, quotesAre true false ("if(".toList ++ s) = quotesAre true false s :=
    fun s => by rfl
  have hclosing : ∀ odd, quotesAre true odd [')'] = true := fun odd => by
    cases odd <;> rfl
  rw [htext, hopening, quotesAre_append, hclosing, Bool.and_true, quotesEscaped_iff]

/-- **The label of an unresolved call is well formed exactly when the quotes of
its parameters are not escaped** (and those of its identifier, if it has any,
are); **the label of an `If` is well formed exactly when those of its condition
are.** -/
theorem nodeLine_quotesEscaped_iff (h : Heap) (memory : Int × Int) (u : VertexPtr) :
    (∀ identifier params,
      (h.vertex u).statement = .functionCallUnresolved identifier params →
        (QuotesEscaped ((WriteGraphvizDotFileVisitor.nodeLine h u).label memory).toList ↔
          QuotesEscaped identifier.toList ∧ QuotesPlain params.toList)) ∧
    ∀ condition, (h.vertex u).statement = .ifStatement condition →
      (QuotesEscaped ((WriteGraphvizDotFileVisitor.nodeLine h u).label memory).toList ↔
        QuotesEscaped condition.toList) := by
  constructor
  · intro identifier params hst
    unfold WriteGraphvizDotFileVisitor.nodeLine
    rw [hst, quotesEscaped_label_node, quotesAre_functionCallUnresolved]
  · intro condition hst
    unfold WriteGraphvizDotFileVisitor.nodeLine
    rw [hst, quotesEscaped_label_node, quotesAre_ifStatement]

/-- The call `g ("x")`, and an `If` without a quote. -/
def plainArguments : Heap :=
  (Heap.singleFunction [.functionCallUnresolved "g" "\"x\"", .ifStatement "s == t"]).2

theorem nodeLine_quotesEscaped_iff_plainArguments :
    QuotesPlain "\"x\"".toList ∧
      QuotesEscaped ((WriteGraphvizDotFileVisitor.nodeLine plainArguments 1).label
        (0, 0)).toList ∧
      QuotesEscaped ((WriteGraphvizDotFileVisitor.nodeLine plainArguments 2).label
        (0, 0)).toList := by
  have hidentifier : QuotesEscaped "g".toList := quotesEscaped_iff.mpr (by decide)
  have hparams : QuotesPlain "\"x\"".toList := quotesPlain_iff.mpr (by decide)
  have hcondition : QuotesEscaped "s == t".toList := quotesEscaped_iff.mpr (by decide)
  exact ⟨hparams,
    ((nodeLine_quotesEscaped_iff plainArguments (0, 0) 1).1 "g" "\"x\"" rfl).mpr
      ⟨hidentifier, hparams⟩,
    ((nodeLine_quotesEscaped_iff plainArguments (0, 0) 2).2 "s == t" rfl).mpr hcondition⟩

/-- The body of a `string_literal`. -/
def literalBody : List Char → Bool
  | [] => true
  | '\\' :: [] => false
  | '\\' :: _ :: s => literalBody s
  | c :: s => c ≠ '\"' && literalBody s

/-- A `string_literal` of the grammar. -/
def IsStringLiteral (s : List Char) : Prop :=
  ∃ body, s = '\"' :: body ++ ['\"'] ∧ literalBody body = true

/-- The call `g ("a\"b")`, and an `If` that compares with `"x"`. -/
def quotedArguments : Heap :=
  (Heap.singleFunction
    [.functionCallUnresolved "g" "\"a\\\"b\"", .ifStatement "s == \"x\""]).2

/-- The backslash before the quote is taken for an escaped one, and nothing is
escaped in the condition. -/
theorem quotedArguments_not_quotesEscaped :
    IsStringLiteral "\"a\\\"b\"".toList ∧ IsStringLiteral "\"x\"".toList ∧
      (quotedArguments.vertex 1).statement = .functionCallUnresolved "g" "\"a\\\"b\"" ∧
      ¬ QuotesEscaped ((WriteGraphvizDotFileVisitor.nodeLine quotedArguments 1).label
        (0, 0)).toList ∧
      (quotedArguments.vertex 2).statement = .ifStatement "s == \"x\"" ∧
      ¬ QuotesEscaped ((WriteGraphvizDotFileVisitor.nodeLine quotedArguments 2).label
        (0, 0)).toList := by
  refine ⟨⟨['a', '\\', '\"', 'b'], by decide, by decide⟩, ⟨['x'], by decide, by decide⟩,
    rfl, ?_, rfl, ?_⟩
  · rw [quotesEscaped_iff]
    decide +kernel
  · rw [quotesEscaped_iff]
    decide +kernel

end CoFlo.Ports
