import CoFlo.Verified.TextEdit

/-!
# Templates

A `FileTemplate` is a text and the edits queued for it.  `regex_replace` and
`regex_insert_before` only append to the queue; `str()` and the insertion
operator run the edits on the text, in the order they were queued, each of
them rewriting every match in the text as the edits before it have left it.

A regular expression is given by what it matches and by whether the whole of
it is the first marked group.
-/

namespace CoFlo.Ports

open CoFlo.Verified.TextEdit

/-- The texts which are edited.  A `std::string` is a sequence of bytes; a byte
is written as the character of its number. -/
abbrev Text := List Char

/-- The bytes of a string. -/
def bytes (s : String) : Text := s.toUTF8.data.toList.map Char.ofUInt8

/-- What is needed of a `boost::regex`. -/
structure Regex where
  pattern : Pattern Char
  group : Bool

/-- The replacement format, as far as the edits use it: `$1` is the text of
the first group, and every other character stands for itself. -/
def formatReplacement (group : Text) : Text → Text
  | '$' :: '1' :: rest => group ++ formatReplacement group rest
  | c :: rest => c :: formatReplacement group rest
  | [] => []

/-- `boost::regex_replace(text, regex_to_match, replacement)`. -/
def regexReplace (text : Text) (regexToMatch : Regex) (replacement : Text) :
    Text :=
  replaceAll regexToMatch.pattern
    (fun found =>
      formatReplacement (if regexToMatch.group then found else []) replacement)
    text

/-- `modifier_base_t`: both kinds apply their expression and their replacement
in the same way and differ in what they are constructed with. -/
structure Modifier where
  regexToMatch : Regex
  replacement : Text

/-- `simple_replace_t(regex_to_match, replacement)`. -/
def simpleReplace (regexToMatch : Pattern Char) (replacement : Text) : Modifier :=
  ⟨⟨regexToMatch, false⟩, replacement⟩

/-- `insert_before(regex_to_match, replacement)`: the expression is put in
parentheses, and `"\n$1"` behind the replacement. -/
def insertBefore (regexToMatch : Pattern Char) (replacement : Text) : Modifier :=
  ⟨⟨regexToMatch, true⟩, replacement ++ bytes "\n$1"⟩

/-- `Apply(text)`. -/
def Modifier.apply (this : Modifier) (text : Text) : Text :=
  regexReplace text this.regexToMatch this.replacement

/-- `FileTemplate`. -/
structure FileTemplate where
  currentFileContents : Text
  filterList : List Modifier

namespace FileTemplate

/-- `FileTemplate(s)`. -/
def ofText (s : Text) : FileTemplate := ⟨s, []⟩

/-- `regex_replace`. -/
def regexReplace (this : FileTemplate) (regexToMatch : Pattern Char)
    (replacement : Text) : FileTemplate :=
  { this with filterList := this.filterList ++ [simpleReplace regexToMatch replacement] }

/-- `regex_insert_before`. -/
def regexInsertBefore (this : FileTemplate) (regexToMatch : Pattern Char)
    (replacement : Text) : FileTemplate :=
  { this with filterList := this.filterList ++ [insertBefore regexToMatch replacement] }

/-- `Apply()`. -/
def apply (this : FileTemplate) : FileTemplate where
  currentFileContents :=
    this.filterList.foldl (fun text m => m.apply text) this.currentFileContents
  filterList := []

/-- `str()`, and what the insertion operator writes. -/
def str (this : FileTemplate) : Text := this.apply.currentFileContents

/-! ## Queued edits are run in order -/

@[simp] theorem str_ofText (s : Text) : (ofText s).str = s := rfl

@[simp] theorem str_regexReplace (this : FileTemplate) (regexToMatch : Pattern Char)
    (replacement : Text) :
    (this.regexReplace regexToMatch replacement).str =
      (simpleReplace regexToMatch replacement).apply this.str := by
  simp only [str, apply, regexReplace, List.foldl_append, List.foldl_cons,
    List.foldl_nil]

@[simp] theorem str_regexInsertBefore (this : FileTemplate)
    (regexToMatch : Pattern Char) (replacement : Text) :
    (this.regexInsertBefore regexToMatch replacement).str =
      (insertBefore regexToMatch replacement).apply this.str := by
  simp only [str, apply, regexInsertBefore, List.foldl_append, List.foldl_cons,
    List.foldl_nil]

end FileTemplate

/-! ## Replacements without a dollar sign -/

theorem formatReplacement_append {group u : Text} (hu : '$' ∉ u) (v : Text) :
    formatReplacement group (u ++ v) = u ++ formatReplacement group v := by
  induction u with
  | nil => rfl
  | cons c u ih =>
      have hc : c ≠ '$' := fun h => hu (h ▸ List.mem_cons_self)
      have hrest := ih fun h => hu (List.mem_cons_of_mem c h)
      rw [List.cons_append, List.cons_append, ← hrest]
      exact formatReplacement.eq_2 group c (u ++ v) fun _ h _ => hc h

theorem formatReplacement_of_notMem {group u : Text} (hu : '$' ∉ u) :
    formatReplacement group u = u := by
  have happend : formatReplacement group (u ++ []) = u ++ formatReplacement group [] :=
    formatReplacement_append hu []
  rw [List.append_nil] at happend
  rw [happend]
  exact List.append_nil u

theorem apply_simpleReplace {replacement : Text} (hplain : '$' ∉ replacement)
    (regexToMatch : Pattern Char) (text : Text) :
    (simpleReplace regexToMatch replacement).apply text =
      replaceAll regexToMatch (fun _ => replacement) text := by
  show replaceAll regexToMatch _ text = _
  congr 1
  funext found
  exact formatReplacement_of_notMem hplain

/-- A plain text is inserted in a line of its own before every match. -/
theorem apply_insertBefore {replacement : Text} (hplain : '$' ∉ replacement)
    (regexToMatch : Pattern Char) (text : Text) :
    (insertBefore regexToMatch replacement).apply text =
      replaceAll regexToMatch (fun found => replacement ++ ('\n' :: found)) text := by
  show replaceAll regexToMatch _ text = _
  congr 1
  funext found
  show formatReplacement found (replacement ++ bytes "\n$1") = _
  rw [formatReplacement_append hplain]
  congr 1
  show '\n' :: (found ++ []) = _
  rw [List.append_nil]

end CoFlo.Ports
