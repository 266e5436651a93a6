import CoFlo.Ports.Characters
import CoFlo.Ports.FunctionStages
import CoFlo.Verified.Backtracking

/-!
# Locations as strings

A `Location` can be made from a string `[path : line]` or `[path : line:column]`,
which `f_location_expression` takes apart.  The path of that expression is lazy
and has no `]` in it.  So a path with a `]` is not found at all, and the line and
the column are left as they were in memory; and a path which ends like a line
number loses that end to the line, and its own line becomes the column
(`locationString_roundTrips_iff`).
-/

namespace CoFlo.Ports

open CoFlo.Verified.Backtracking CoFlo.Verified.Backtracking.Pattern

/-! ## The members -/

/-- The members of a `Location`. -/
structure LocationMembers where
  passedFilePath : String
  absoluteFilePath : String
  lineNumber : Int
  column : Int
  deriving DecidableEq, Repr

/-- `atoi` of a sequence of digits.  Past the range of `int` its result is
undefined; this is what the GNU C library makes of it. -/
def atoi (digits : List Char) : Int :=
  Int.bmod (min (Nat.ofDigitChars 10 digits 0) (2 ^ 63 - 1)) (2 ^ 32)

/-- The optional last part of `f_location_expression`. -/
def columnExpression : Pattern (List Char) := do
  let _ ← optional (char isSpace)
  let _ ← char (· = ':')
  let _ ← optional (char isSpace)
  greedySome Char.isDigit

/-- `f_location_expression` behind the path. -/
def lineExpression : Pattern (List Char × Option (List Char)) := do
  let _ ← char isSpace
  let _ ← char (· = ':')
  let _ ← char isSpace
  let line ← greedySome Char.isDigit
  let column ← optional columnExpression
  let _ ← char (· = ']')
  pure (line, column)

/-- `f_location_expression`, with its captures. -/
def locationExpression :
    Pattern (List Char × List Char × Option (List Char)) := do
  let _ ← char (· = '[')
  let path ← lazyMany (· ≠ ']')
  let lineAndColumn ← lineExpression
  pure (path, lineAndColumn)

namespace LocationMembers

/-- `Location(const std::string &)`.  When the string cannot be parsed the line
and the column keep what is in the memory of the object. -/
def ofString (memory : Int × Int) (locationString : String) : LocationMembers :=
  match fullMatch locationExpression (cStr locationString) with
  | some (path, line, column) =>
      ⟨.ofList path, .ofList path, atoi line, (column.map atoi).getD (-1)⟩
  | none => ⟨"", "", memory.1, memory.2⟩

/-- `asLineColumn`. -/
def asLineColumn (m : LocationMembers) : String :=
  toString m.lineNumber ++ if m.column ≠ -1 then ":" ++ toString m.column else ""

end LocationMembers

/-- The members of a location, by its constructor. -/
def Location.members (memory : Int × Int) : Location → LocationMembers
  | unknown => ⟨"UNKNOWN", "UNKNOWN", 0, -1⟩
  | fileLine fileName line column => ⟨fileName, fileName, line, column⟩
  | ofString locationString => .ofString memory locationString

/-! ## What matches -/

/-- `p` ends as if there were a line number behind it. -/
def EndsLikeLine (p : List Char) : Prop :=
  ∃ q s s' digits, p = q ++ s :: ':' :: s' :: digits ∧ isSpace s = true ∧
    isSpace s' = true ∧ digits ≠ [] ∧ ∀ c ∈ digits, c.isDigit = true

theorem atoi_toDigits {n : Nat} (hn : n < 2 ^ 31) : atoi (Nat.toDigits 10 n) = n := by
  have hmin : min ((n : Nat) : Int) (2 ^ 63 - 1) = n := by omega
  rw [atoi, Nat.ofDigitChars_ten_toDigits, hmin]
  exact Int.bmod_eq_of_le (by omega) (by omega)

theorem ne_colon_of_isSpace {c : Char} (hc : isSpace c = true) : c ≠ ':' := by
  rintro rfl
  exact absurd hc (by decide)

theorem ne_colon_of_isDigit {c : Char} (hc : c.isDigit = true) : c ≠ ':' := by
  rintro rfl
  exact absurd hc (by decide)

/-- What the column is taken from. -/
def ColumnText (g : List Char) : Prop :=
  ∃ o o' digits, g = o ++ ':' :: (o' ++ digits) ∧ o.length ≤ 1 ∧
    (∀ c ∈ o ++ o', isSpace c = true) ∧ Digits digits

theorem mem_optional_char {q : Char → Bool} {a : Option Char} {s rest : List Char}
    (h : (a, rest) ∈ optional (char q) s) :
    ∃ o : List Char, s = o ++ rest ∧ o.length ≤ 1 ∧ ∀ c ∈ o, q c = true := by
  rcases mem_optional.mp h with ⟨c, rfl, hc⟩ | ⟨rfl, rfl⟩
  · obtain ⟨rfl, hq⟩ := mem_char.mp hc
    exact ⟨[c], rfl, Nat.le_refl 1, fun d hd => List.mem_singleton.mp hd ▸ hq⟩
  · exact ⟨[], rfl, Nat.zero_le 1, fun d hd => absurd hd List.not_mem_nil⟩

theorem columnText_of_mem {column s rest : List Char}
    (h : (column, rest) ∈ columnExpression s) : ∃ g, s = g ++ rest ∧ ColumnText g := by
  unfold columnExpression at h
  simp only [mem_bind, mem_char, mem_greedySome, decide_eq_true_eq] at h
  obtain ⟨a, s₁, ho, c, s₂, ⟨rfl, rfl⟩, a', s₃, ho', rfl, hdigits⟩ := h
  obtain ⟨o, rfl, hlength, hspace⟩ := mem_optional_char ho
  obtain ⟨o', rfl, -, hspace'⟩ := mem_optional_char ho'
  refine ⟨o ++ ':' :: (o' ++ column), by simp, o, o', column, rfl, hlength, ?_, hdigits⟩
  intro c hc
  exact (List.mem_append.mp hc).elim (hspace c) (hspace' c)

/-- The text of a line and a column, up to the closing bracket. -/
theorem lineText_of_mem {line : List Char} {column : Option (List Char)} {s : List Char}
    (h : ((line, column), []) ∈ lineExpression s) :
    ∃ b b' g, s = b :: ':' :: b' :: (line ++ g) ++ [']'] ∧ isSpace b = true ∧
      isSpace b' = true ∧ Digits line ∧ (g = [] ∨ ColumnText g) := by
  unfold lineExpression at h
  simp only [mem_bind, mem_char, mem_greedySome, mem_pure, decide_eq_true_eq,
    Prod.mk.injEq] at h
  obtain ⟨b, s₁, ⟨rfl, hb⟩, c, s₂, ⟨rfl, rfl⟩, b', s₃, ⟨rfl, hb'⟩, line', s₄,
    ⟨rfl, hline⟩, column', s₅, hcolumn, c, s₆, ⟨rfl, rfl⟩, ⟨rfl, rfl⟩, rfl⟩ := h
  rcases mem_optional.mp hcolumn with ⟨digits, rfl, hmem⟩ | ⟨rfl, rfl⟩
  · obtain ⟨g, rfl, hg⟩ := columnText_of_mem hmem
    exact ⟨b, b', g, by simp, hb, hb', hline, .inr hg⟩
  · exact ⟨b, b', [], by simp, hb, hb', hline, .inl rfl⟩

/-- The text behind a path. -/
def lineAndColumnText (line tail : List Char) : List Char :=
  ' ' :: ':' :: ' ' :: (line ++ tail)

/-- A path can only be cut short where it ends like a line number, and only when
there is no column. -/
theorem cut_of_mem {l line tail : List Char} {x : List Char × Option (List Char)}
    (hl : l ≠ []) (h : (x, []) ∈ lineExpression (l ++ lineAndColumnText line tail ++ [']'])) :
    ':' ∉ tail ∧ ∃ b b' digits, l = b :: ':' :: b' :: digits ∧ isSpace b = true ∧
      isSpace b' = true ∧ Digits digits := by
  obtain ⟨b, b', g, heq, hb, hb', hdigits, hg⟩ := lineText_of_mem h
  obtain ⟨hne, hall⟩ := hdigits
  have htext := (List.append_inj_left' heq rfl).symm
  -- the first three characters of the text are the last ones of the path
  obtain ⟨b₀, l, rfl⟩ := List.exists_cons_of_ne_nil hl
  rw [List.cons_append, List.cons.injEq] at htext
  obtain ⟨rfl, htext⟩ := htext
  cases l with
  | nil =>
      rw [lineAndColumnText, List.nil_append, List.cons.injEq] at htext
      exact absurd htext.1 (by decide)
  | cons c l =>
      rw [List.cons_append, List.cons.injEq] at htext
      obtain ⟨rfl, htext⟩ := htext
      cases l with
      | nil =>
          obtain ⟨d, digits, hd⟩ := List.exists_cons_of_ne_nil hne
          rw [hd, lineAndColumnText, List.nil_append, List.cons.injEq, List.cons_append,
            List.cons.injEq] at htext
          have hd' := hall d (hd ▸ List.mem_cons_self)
          exact absurd htext.2.1 (ne_colon_of_isDigit hd')
      | cons c l =>
          rw [List.cons_append, List.cons.injEq] at htext
          obtain ⟨rfl, htext⟩ := htext
          obtain ⟨m, rfl, hm⟩ : ∃ m, l = x.1 ++ m ∧ g = m ++ lineAndColumnText line tail := by
            rcases List.append_eq_append_iff.mp htext with ⟨m, hm, hg'⟩ | ⟨m, hm, hg'⟩
            · exact ⟨m, hm, hg'⟩
            · cases m with
              | nil => exact ⟨[], by simpa using hm.symm, hg'.symm⟩
              | cons d m =>
                  rw [lineAndColumnText, List.cons_append, List.cons.injEq] at hg'
                  have hd := hall d (hm ▸ List.mem_append_right _ List.mem_cons_self)
                  rw [← hg'.1] at hd
                  exact absurd hd (by decide)
          rcases hg with rfl | ⟨o, o', ds, rfl, ho, hspace, -, hds⟩
          · exact absurd hm.symm (by simp [lineAndColumnText])
          -- the colon of the column is the only one in it
          have hcolon : ':' ∉ o' ++ ds := by
            intro hmem
            rcases List.mem_append.mp hmem with hmem | hmem
            · exact ne_colon_of_isSpace (hspace _ (List.mem_append_right _ hmem)) rfl
            · exact ne_colon_of_isDigit (hds _ hmem) rfl
          have hcolon' : ':' ∉ o := fun hmem =>
            ne_colon_of_isSpace (hspace _ (List.mem_append_left _ hmem)) rfl
          have hcut : o ++ ':' :: (o' ++ ds) = (m ++ [' ']) ++ ':' :: (' ' :: (line ++ tail)) := by
            rw [hm]
            simp [lineAndColumnText]
          obtain ⟨rfl, -, hrest⟩ := (List.append_cons_inj_of_notMem hcolon' hcolon).mp hcut
          rw [List.length_append, List.length_singleton] at ho
          obtain rfl : m = [] := List.length_eq_zero_iff.mp (by omega)
          rw [hrest] at hcolon
          refine ⟨fun hmem => hcolon ?_, b, b', x.1, by simp, hb, hb', hne, hall⟩
          exact List.mem_cons_of_mem _ (List.mem_append_right _ hmem)

/-! ## What is found first -/

theorem fullMatch_lineExpression {line : List Char} (hline : Digits line) :
    fullMatch lineExpression (lineAndColumnText line [] ++ [']']) = some (line, none) := by
  unfold lineExpression lineAndColumnText
  rw [List.cons_append, fullMatch_char (by decide), List.cons_append,
    fullMatch_char (by decide), List.cons_append, fullMatch_char (by decide),
    List.append_nil]
  apply fullMatch_greedySome hline.1 hline.2
  · simp
  · rw [fullMatch_optional_of_eq_nil (by rfl), fullMatch_char (by decide)]
    rfl

theorem fullMatch_lineExpression_column {line column : List Char} (hline : Digits line)
    (hcolumn : Digits column) :
    fullMatch lineExpression (lineAndColumnText line (':' :: column) ++ [']']) =
      some (line, some column) := by
  unfold lineExpression lineAndColumnText
  rw [List.cons_append, fullMatch_char (by decide), List.cons_append,
    fullMatch_char (by decide), List.cons_append, fullMatch_char (by decide),
    List.append_assoc]
  apply fullMatch_greedySome hline.1 hline.2
  · simp
  · apply fullMatch_optional
    unfold columnExpression
    obtain ⟨d, digits, rfl⟩ := List.exists_cons_of_ne_nil hcolumn.1
    have hd : isSpace d = false :=
      isSpace_eq_false_of_isDigit (hcolumn.2 d List.mem_cons_self)
    simp only [bind_assoc]
    rw [List.cons_append, fullMatch_optional_of_eq_nil (by rfl), fullMatch_char (by decide),
      fullMatch_optional_of_eq_nil (by rw [List.cons_append, char, hd]; rfl)]
    apply fullMatch_greedySome hcolumn.1 hcolumn.2
    · simp
    · rw [fullMatch_char (by decide)]
      rfl

/-- The path that is found is not longer than one with a line behind it. -/
theorem fullMatch_locationExpression {p text : List Char}
    {x : List Char × Option (List Char)} (hp : ']' ∉ p)
    (hx : fullMatch lineExpression text = some x) :
    ∃ l r x', p = l ++ r ∧
      fullMatch locationExpression ('[' :: (p ++ text)) = some (l, x') ∧
      fullMatch lineExpression (r ++ text) = some x' := by
  have hpath : ∀ c ∈ p, (decide (c ≠ ']')) = true := fun c hc =>
    decide_eq_true fun heq => hp (heq ▸ hc)
  have hfound : fullMatch (lineExpression >>= fun x => pure (p, x)) text = some (p, x) := by
    rw [fullMatch_map, hx, Option.map_some]
  obtain ⟨l, r, y, rfl, hfull, hl⟩ := fullMatch_lazyMany
    (f := fun path => lineExpression >>= fun x => pure (path, x)) hpath hfound
  rw [fullMatch_map] at hl
  obtain ⟨x', hx', rfl⟩ := Option.map_eq_some_iff.mp hl
  refine ⟨l, r, x', rfl, ?_, hx'⟩
  unfold locationExpression
  rw [fullMatch_char (by decide)]
  exact hfull

/-- There is neither a closing bracket nor the end of a C string in a path that
is found. -/
theorem notMem_of_fullMatch {s : String} {path : List Char}
    {x : List Char × Option (List Char)}
    (h : fullMatch locationExpression (cStr s) = some (path, x)) :
    ']' ∉ path ∧ '\x00' ∉ path := by
  have hmem := mem_of_fullMatch h
  unfold locationExpression at hmem
  simp only [mem_bind, mem_char, mem_lazyMany, mem_pure, decide_eq_true_eq,
    Prod.mk.injEq] at hmem
  obtain ⟨c, s₁, ⟨hs, -⟩, path', s₂, ⟨rfl, hpath⟩, -, -, -, ⟨rfl, -⟩, -⟩ := hmem
  refine ⟨fun hc => hpath _ hc rfl, fun hc => ?_⟩
  have hcstr : '\x00' ∈ cStr s := by
    rw [hs]
    exact List.mem_cons_of_mem _ (List.mem_append_left _ hc)
  exact absurd (List.mem_takeWhile_imp hcstr) (by decide)

/-! ## Round trips -/

/-- `[p : n]` and `[p : n:c]` give back what they are made of, and the location
of ENTRY and EXIT of a function in the file `p` does not depend on what was in
memory. -/
structure RoundTrips (p : String) (n c : Nat) : Prop where
  line : ∀ memory, LocationMembers.ofString memory
    ("[" ++ p ++ " : " ++ toString n ++ "]") = ⟨p, p, n, -1⟩
  column : ∀ memory, LocationMembers.ofString memory
    ("[" ++ p ++ " : " ++ toString n ++ ":" ++ toString c ++ "]") = ⟨p, p, n, c⟩
  pseudo : ∀ (h : Heap) (this : FunctionPtr), (h.function this).definitionFilePath = p →
    ∀ memory memory', (h.pseudoLocation this).members memory =
      (h.pseudoLocation this).members memory'

/-- A path that can be told from the line behind it. -/
structure PlainPath (p : List Char) : Prop where
  notBracket : ']' ∉ p
  notNul : '\x00' ∉ p
  notLine : ¬ EndsLikeLine p

theorem toList_line (p : String) (n : Nat) :
    ("[" ++ p ++ " : " ++ toString n ++ "]").toList =
      '[' :: (p.toList ++ (lineAndColumnText (Nat.toDigits 10 n) [] ++ [']'])) := by
  simp [lineAndColumnText]

theorem toList_column (p : String) (n c : Nat) :
    ("[" ++ p ++ " : " ++ toString n ++ ":" ++ toString c ++ "]").toList =
      '[' :: (p.toList ++
        (lineAndColumnText (Nat.toDigits 10 n) (':' :: Nat.toDigits 10 c) ++ [']'])) := by
  simp [lineAndColumnText]

section

variable {p : String} {n : Nat}

/-- A plain path with a line, and perhaps a column, behind it. -/
theorem PlainPath.ofString_eq (hp : PlainPath p.toList) {s : String} {line tail : List Char}
    {column : Option (List Char)} (hs : s.toList =
      '[' :: (p.toList ++ (lineAndColumnText line tail ++ [']'])))
    (hline : Digits line) (htail : '\x00' ∉ tail)
    (hx : fullMatch lineExpression (lineAndColumnText line tail ++ [']']) =
      some (line, column)) (memory : Int × Int) :
    LocationMembers.ofString memory s =
      ⟨p, p, atoi line, (column.map atoi).getD (-1)⟩ := by
  have hnul : '\x00' ∉ s.toList := by
    rw [hs]
    simp [lineAndColumnText, hp.notNul, nul_notMem_digits hline, htail]
  obtain ⟨l, r, x', heq, hfull, hx'⟩ := fullMatch_locationExpression hp.notBracket hx
  have hr : r = [] := by
    by_contra hne
    rw [← List.append_assoc] at hx'
    obtain ⟨-, b, b', digits, hcut, hb, hb', hdigits⟩ := cut_of_mem hne (mem_of_fullMatch hx')
    exact hp.notLine ⟨l, b, b', digits, by rw [heq, hcut], hb, hb', hdigits⟩
  rw [hr, List.append_nil] at heq
  rw [hr, List.nil_append, hx] at hx'
  unfold LocationMembers.ofString
  rw [cStr_eq hnul, hs, hfull, ← heq, ← Option.some.inj hx']
  simp only [String.ofList_toList]

/-- What ends like a line is cut short. -/
theorem fullMatch_endsLikeLine {l line digits : List Char} {b b' : Char}
    (hl : ']' ∉ l) (hb : isSpace b = true) (hb' : isSpace b' = true) (hdigits : Digits digits)
    (hline : Digits line) :
    ∃ path x, fullMatch locationExpression
        ('[' :: (l ++ b :: ':' :: b' :: digits ++ (lineAndColumnText line [] ++ [']']))) =
      some (path, x) ∧ path.length ≤ l.length := by
  obtain ⟨x, hx⟩ : ∃ x, fullMatch lineExpression
      (b :: ':' :: b' :: digits ++ (lineAndColumnText line [] ++ [']'])) = some x := by
    rw [← Option.ne_none_iff_exists', ne_eq, fullMatch_eq_none_iff, not_forall]
    refine ⟨(digits, some line), not_not.mpr ?_⟩
    unfold lineExpression columnExpression
    simp only [mem_bind, mem_char, mem_greedySome, mem_optional, mem_pure]
    exact ⟨b, _, ⟨rfl, hb⟩, ':', _, ⟨rfl, by decide⟩, b', _, ⟨rfl, hb'⟩, digits, _,
      ⟨rfl, hdigits⟩, some line, [']'], .inl ⟨line, rfl, some ' ', _,
        .inl ⟨' ', rfl, rfl, by decide⟩, ':', _, ⟨rfl, by decide⟩, some ' ', _,
        .inl ⟨' ', rfl, rfl, by decide⟩, by simp, hline⟩, ']', [], ⟨rfl, by decide⟩, rfl, rfl⟩
  obtain ⟨path, r, x', rfl, hfull, -⟩ := fullMatch_locationExpression hl hx
  refine ⟨path, x', ?_, by simp⟩
  rw [List.append_assoc]
  exact hfull

/-- The round trip of a line shows that the path is plain. -/
theorem plainPath_of_line (h : ∀ memory, LocationMembers.ofString memory
    ("[" ++ p ++ " : " ++ toString n ++ "]") = ⟨p, p, n, -1⟩) : PlainPath p.toList := by
  obtain ⟨s, hs⟩ : ∃ s, s = "[" ++ p ++ " : " ++ toString n ++ "]" := ⟨_, rfl⟩
  rw [← hs] at h
  have htext := toList_line p n
  rw [← hs] at htext
  obtain ⟨x, hx⟩ : ∃ x, fullMatch locationExpression (cStr s) = some (p.toList, x) := by
    have hresult := h (n + 1, 0)
    unfold LocationMembers.ofString at hresult
    cases hmatch : fullMatch locationExpression (cStr s) with
    | none =>
        rw [hmatch] at hresult
        have hline := congrArg LocationMembers.lineNumber hresult
        dsimp only at hline
        omega
    | some y =>
        rw [hmatch] at hresult
        have hpath := congrArg LocationMembers.passedFilePath hresult
        dsimp only at hpath
        exact ⟨y.2, by rw [← hpath, String.toList_ofList]⟩
  obtain ⟨hbracket, hnul⟩ := notMem_of_fullMatch hx
  refine ⟨hbracket, hnul, ?_⟩
  rintro ⟨l, b, b', digits, heq, hb, hb', hdigits⟩
  have hl : ']' ∉ l := fun hmem => hbracket (heq ▸ List.mem_append_left _ hmem)
  have hcstr : cStr s = s.toList := by
    apply cStr_eq
    rw [htext]
    simp [lineAndColumnText, hnul, nul_notMem_digits (digits_toDigits n)]
  obtain ⟨path, x', hfull, hlength⟩ := fullMatch_endsLikeLine hl hb hb' hdigits (digits_toDigits n)
  rw [hcstr, htext, heq, hfull] at hx
  have hpath := congrArg List.length (Prod.mk.inj (Option.some.inj hx)).1
  simp only [List.length_append, List.length_cons] at hpath
  omega

/-- **A path, a line and a column come back unchanged, and nothing is left unset,
exactly when the path is plain**: it has no closing bracket in it and does not end
like a line number. -/
theorem locationString_roundTrips_iff (p : String) {n c : Nat} (hn : n ≤ 2147483647)
    (hc : c ≤ 2147483647) : RoundTrips p n c ↔ PlainPath p.toList := by
  constructor
  · exact fun h => plainPath_of_line h.line
  · intro hp
    have hnul := nul_notMem_digits (digits_toDigits c)
    exact
      { line := fun memory => by
          rw [hp.ofString_eq (toList_line p n) (digits_toDigits n) List.not_mem_nil
            (fullMatch_lineExpression (digits_toDigits n)), atoi_toDigits (by omega)]
          rfl
        column := fun memory => by
          rw [hp.ofString_eq (toList_column p n c) (digits_toDigits n) (by simp [hnul])
            (fullMatch_lineExpression_column (digits_toDigits n) (digits_toDigits c)),
            atoi_toDigits (by omega), Option.map_some, atoi_toDigits (by omega)]
          rfl
        pseudo := fun h this hpath memory memory' => by
          have htext : (("[" ++ p ++ " : 0]" : String)).toList =
              '[' :: (p.toList ++ (lineAndColumnText ['0'] [] ++ [']'])) := by
            simp [lineAndColumnText]
          have hzero : Digits ['0'] := digits_toDigits 0
          unfold Heap.pseudoLocation Location.members
          rw [hpath]
          dsimp only
          rw [hp.ofString_eq htext hzero List.not_mem_nil (fullMatch_lineExpression hzero),
            hp.ofString_eq htext hzero List.not_mem_nil (fullMatch_lineExpression hzero)] }

theorem locationString_roundTrips_iff_source :
    PlainPath "src/f.c".toList ∧ RoundTrips "src/f.c" 12 7 := by
  have hplain : PlainPath "src/f.c".toList := by
    refine ⟨by decide, by decide, ?_⟩
    rintro ⟨q, s, s', digits, htext, -⟩
    have hcolon : ':' ∈ "src/f.c".toList := by
      rw [htext]
      simp
    exact absurd hcolon (by decide)
  exact ⟨hplain, (locationString_roundTrips_iff "src/f.c" (by decide) (by decide)).mpr hplain⟩

/-- The end of `a : 1` is taken for the line, and the line for a column. -/
example : LocationMembers.ofString (0, 0) "[a : 1 : 5]" = ⟨"a", "a", 1, 5⟩ := by
  decide +kernel

/-- The ENTRY and the EXIT of a function in `a]b.c` have the line that was in
memory. -/
theorem bracket_not_roundTrips :
    LocationMembers.ofString (1, 2) "[a]b.c : 0]" = ⟨"", "", 1, 2⟩ ∧
      ¬ RoundTrips "a]b.c" 0 1 := by
  refine ⟨by decide +kernel, fun h => ?_⟩
  exact absurd (plainPath_of_line h.line).notBracket (by decide)

end

end CoFlo.Ports
