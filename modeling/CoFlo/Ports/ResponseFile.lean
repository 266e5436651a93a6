import Mathlib.Data.List.TakeWhile

/-!
# Response files

`ResponseFileParser::Parse` reads the lines of a file, drops those which are blank
or a comment, cuts the others into tokens, and drops the blank tokens.  Arguments
can be put between double quotes; but single quotes are quotes as well, and both
turn the same switch.  So arguments are delivered unchanged exactly when there is
no apostrophe in them (`parse_fileText_iff`).
-/

namespace CoFlo.Ports

namespace ResponseFileParser

/-- One of `"\t \r\n"`. -/
def isBlank (c : Char) : Bool := c ∈ ['\t', ' ', '\r', '\n']

/-- One of the quotes `"\"\'"`. -/
def isQuote (c : Char) : Bool := c ∈ ['\"', '\'']

/-- The lines `std::getline` finds in a stream. -/
def getLines (s : List Char) : List (List Char) :=
  let lines := s.splitOn '\n'
  if lines.getLast? = some [] then lines.dropLast else lines

/-- Whether a line is neither blank nor a comment. -/
def isOptionLine (line : List Char) : Bool :=
  match line.find? (!isBlank ·) with
  | none => false
  | some c => c ≠ '#'

/-- `LoadFileIntoVectorOfStrings`. -/
def loadFileIntoVectorOfStrings (ifs : List Char) : List (List Char) :=
  (getLines ifs).filter isOptionLine

/-- `boost::escaped_list_separator` with no escape characters, inside or outside
of quotes, with the token so far. -/
def tokens : Bool → List Char → List Char → List (List Char)
  | _, tok, [] => [tok]
  | inQuote, tok, c :: s =>
      if isBlank c then
        if inQuote then tokens inQuote (tok ++ [c]) s
        else tok :: tokens false [] s
      else if isQuote c then tokens (!inQuote) tok s
      else tokens inQuote (tok ++ [c]) s

/-- The tokens of a line that are not blank. -/
def lineTokens (line : List Char) : List (List Char) :=
  if line = [] then []
  else (tokens false [] line).filter fun token => token.any (!isBlank ·)

/-- `Parse`: the arguments and what is printed on `std::cerr`.  There is no
content of a file that cannot be opened. -/
def parse (filename : String) (file : Option (List Char)) (args : List (List Char)) :
    List (List Char) × List String :=
  match file with
  | none => (args, ["ERROR: Could not open response file \"" ++ filename ++ "\"."])
  | some ifs => (args ++ (loadFileIntoVectorOfStrings ifs).flatMap lineTokens, [])

end ResponseFileParser

open ResponseFileParser

/-! ## Files of quoted arguments -/

/-- An argument that can stand between double quotes. -/
structure QuotableArgument where
  text : List Char
  notBlank : ∃ c ∈ text, isBlank c = false
  notQuote : '\"' ∉ text
  notReturn : '\r' ∉ text
  notNewline : '\n' ∉ text

/-- A line of a response file: arguments, a blank line, or a comment. -/
inductive ResponseLine where
  | arguments (args : List QuotableArgument)
  | blank (s : List Char) (hs : ∀ c ∈ s, isBlank c = true) (hnewline : '\n' ∉ s)
  | comment (indent rest : List Char) (hindent : ∀ c ∈ indent, isBlank c = true)
      (hnewline : '\n' ∉ indent ++ rest)

namespace ResponseLine

/-- The arguments in a line. -/
def args : ResponseLine → List (List Char)
  | arguments args => args.map (·.text)
  | blank _ _ _ => []
  | comment _ _ _ _ => []

/-- The line as it is in the file. -/
def text : ResponseLine → List Char
  | arguments args => List.intercalate [' '] (args.map fun a => '\"' :: a.text ++ ['\"'])
  | blank s _ _ => s
  | comment indent rest _ _ => indent ++ '#' :: rest

end ResponseLine

/-- The lines, each with a newline at its end, with or without the last one. -/
def fileText (lastNewline : Bool) (lines : List ResponseLine) : List Char :=
  List.intercalate ['\n'] (lines.map (·.text) ++ if lastNewline then [[]] else [])

/-! ## The lines that are found -/

theorem filter_getLines (s : List Char) :
    (getLines s).filter isOptionLine = (s.splitOn '\n').filter isOptionLine := by
  unfold getLines
  dsimp only
  split_ifs with hlast
  · obtain ⟨l, hl⟩ := List.getLast?_eq_some_iff.mp hlast
    rw [hl, List.dropLast_concat, List.filter_append]
    have hnil : [([] : List Char)].filter isOptionLine = [] := by decide
    rw [hnil, List.append_nil]
  · rfl

theorem newline_notMem_arguments (args : List QuotableArgument) :
    '\n' ∉ (ResponseLine.arguments args).text := by
  induction args with
  | nil => exact List.not_mem_nil
  | cons a args ih =>
      cases args with
      | nil => simp [ResponseLine.text, a.notNewline]
      | cons b args =>
          have htext : (ResponseLine.arguments (a :: b :: args)).text =
              '\"' :: a.text ++ ['\"'] ++ ' ' :: (ResponseLine.arguments (b :: args)).text := by
            simp [ResponseLine.text, List.intercalate_cons_cons]
          rw [htext]
          simp [a.notNewline, ih]

theorem newline_notMem_text (line : ResponseLine) : '\n' ∉ line.text := by
  cases line with
  | arguments args => exact newline_notMem_arguments args
  | blank s hs hnewline => exact hnewline
  | comment indent rest hindent hnewline =>
      rw [List.mem_append, not_or] at hnewline
      simp [ResponseLine.text, hnewline.1, hnewline.2]

/-- The lines of a file of quoted arguments. -/
theorem loadFile_fileText (lastNewline : Bool) (lines : List ResponseLine) :
    loadFileIntoVectorOfStrings (fileText lastNewline lines) =
      (lines.map (·.text)).filter isOptionLine := by
  have hnil : [([] : List Char)].filter isOptionLine = [] := by decide
  unfold loadFileIntoVectorOfStrings fileText
  rw [filter_getLines]
  by_cases hempty : lines.map (·.text) ++ (if lastNewline then [[]] else []) = []
  · rw [hempty, (List.append_eq_nil_iff.mp hempty).1]
    exact hnil
  · rw [List.splitOn_intercalate _ _ hempty, List.filter_append]
    · cases lastNewline with
      | false => simp
      | true => rw [if_pos rfl, hnil, List.append_nil]
    · intro l hl
      rcases List.mem_append.mp hl with hl | hl
      · obtain ⟨line, -, rfl⟩ := List.mem_map.mp hl
        exact newline_notMem_text line
      · cases lastNewline with
        | false => exact absurd hl List.not_mem_nil
        | true =>
            rw [if_pos rfl, List.mem_singleton] at hl
            rw [hl]
            exact List.not_mem_nil

/-! ## The tokens of a line -/

theorem isQuote_eq_false_of_isBlank {c : Char} (hc : isBlank c = true) : isQuote c = false := by
  simp only [isBlank, List.mem_cons, List.not_mem_nil, or_false, decide_eq_true_eq] at hc
  rcases hc with rfl | rfl | rfl | rfl <;> decide

/-- There are no quotes in a token. -/
theorem notQuote_of_mem_tokens (s : List Char) :
    ∀ {inQuote : Bool} {tok t : List Char}, (∀ c ∈ tok, isQuote c = false) →
      t ∈ tokens inQuote tok s → ∀ c ∈ t, isQuote c = false := by
  have hmore : ∀ {tok : List Char} {c : Char}, (∀ c ∈ tok, isQuote c = false) →
      isQuote c = false → ∀ d ∈ tok ++ [c], isQuote d = false := by
    intro tok c htok hc d hd
    rcases List.mem_append.mp hd with hd | hd
    · exact htok d hd
    · rwa [List.mem_singleton.mp hd]
  induction s with
  | nil =>
      intro inQuote tok t htok ht
      rw [tokens, List.mem_singleton] at ht
      rwa [ht]
  | cons c s ih =>
      intro inQuote tok t htok ht
      rw [tokens] at ht
      split_ifs at ht with hblank hin hquote
      · exact ih (hmore htok (isQuote_eq_false_of_isBlank hblank)) ht
      · rcases List.mem_cons.mp ht with rfl | ht
        · exact htok
        · exact ih (List.forall_mem_nil _) ht
      · exact ih htok ht
      · exact ih (hmore htok (eq_false_of_ne_true hquote)) ht

theorem notQuote_of_mem_lineTokens {line t : List Char} (ht : t ∈ lineTokens line) :
    ∀ c ∈ t, isQuote c = false := by
  unfold lineTokens at ht
  split_ifs at ht
  · exact absurd ht List.not_mem_nil
  · exact notQuote_of_mem_tokens line (List.forall_mem_nil _) (List.mem_filter.mp ht).1

/-- Between quotes everything is kept, up to the next quote. -/
theorem tokens_inQuote {s : List Char} (hs : ∀ c ∈ s, isQuote c = false) (tok rest : List Char) :
    tokens true tok (s ++ rest) = tokens true (tok ++ s) rest := by
  induction s generalizing tok with
  | nil => simp
  | cons c s ih =>
      have hc : isQuote c = false := hs c List.mem_cons_self
      have hstep : tokens true tok (c :: (s ++ rest)) = tokens true (tok ++ [c]) (s ++ rest) := by
        rw [tokens, hc]
        simp
      rw [List.cons_append, hstep, ih (fun d hd => hs d (List.mem_cons_of_mem c hd)),
        List.append_assoc, List.singleton_append]

/-- A quoted argument without quotes in it is read as it is. -/
theorem tokens_quoted {s : List Char} (hs : ∀ c ∈ s, isQuote c = false) (rest : List Char) :
    tokens false [] ('\"' :: s ++ '\"' :: rest) = tokens false s rest := by
  have hopen : tokens false [] ('\"' :: (s ++ '\"' :: rest)) =
      tokens true [] (s ++ '\"' :: rest) := by
    rw [tokens]
    rfl
  have hclose : tokens true s ('\"' :: rest) = tokens false s rest := by
    rw [tokens]
    rfl
  rw [List.cons_append, hopen, tokens_inQuote hs, List.nil_append, hclose]

theorem tokens_arguments (args : List QuotableArgument) (hne : args ≠ [])
    (hargs : ∀ a ∈ args, ∀ c ∈ a.text, isQuote c = false) :
    tokens false [] (ResponseLine.arguments args).text = (ResponseLine.arguments args).args := by
  induction args with
  | nil => exact absurd rfl hne
  | cons a args ih =>
      have ha : ∀ c ∈ a.text, isQuote c = false := hargs a List.mem_cons_self
      cases args with
      | nil =>
          have htext : (ResponseLine.arguments [a]).text = '\"' :: a.text ++ ['\"'] := by
            simp [ResponseLine.text]
          rw [htext, tokens_quoted ha, tokens]
          rfl
      | cons b args =>
          have htext : (ResponseLine.arguments (a :: b :: args)).text =
              '\"' :: a.text ++ '\"' :: ' ' :: (ResponseLine.arguments (b :: args)).text := by
            simp [ResponseLine.text, List.intercalate_cons_cons]
          have hcut : ∀ rest, tokens false a.text (' ' :: rest) =
              a.text :: tokens false [] rest := by
            intro rest
            rw [tokens]
            rfl
          rw [htext, tokens_quoted ha, hcut, ih (List.cons_ne_nil _ _)
            fun d hd => hargs d (List.mem_cons_of_mem a hd)]
          rfl

/-- The arguments in a line are its tokens, as none of them is blank. -/
theorem lineTokens_arguments (args : List QuotableArgument)
    (hargs : ∀ a ∈ args, ∀ c ∈ a.text, isQuote c = false) :
    lineTokens (ResponseLine.arguments args).text = (ResponseLine.arguments args).args := by
  cases args with
  | nil => rfl
  | cons a args =>
      have hne : (ResponseLine.arguments (a :: args)).text ≠ [] := by
        cases args <;> simp [ResponseLine.text, List.intercalate_cons_cons]
      unfold lineTokens
      rw [if_neg hne, tokens_arguments _ (List.cons_ne_nil _ _) hargs, List.filter_eq_self]
      intro text htext
      obtain ⟨b, -, rfl⟩ := List.mem_map.mp htext
      obtain ⟨c, hc, hcb⟩ := b.notBlank
      exact List.any_eq_true.mpr ⟨c, hc, by rw [hcb]; rfl⟩

/-! ## The lines that are kept -/

theorem isOptionLine_arguments (a : QuotableArgument) (args : List QuotableArgument) :
    isOptionLine (ResponseLine.arguments (a :: args)).text = true := by
  obtain ⟨rest, hrest⟩ : ∃ rest, (ResponseLine.arguments (a :: args)).text = '\"' :: rest := by
    cases args <;> simp [ResponseLine.text, List.intercalate_cons_cons]
  rw [hrest]
  rfl

theorem isOptionLine_blank {s : List Char} (hs : ∀ c ∈ s, isBlank c = true) :
    isOptionLine s = false := by
  have hfind : s.find? (!isBlank ·) = none := by
    rw [List.find?_eq_none]
    intro c hc
    simp [hs c hc]
  unfold isOptionLine
  rw [hfind]

theorem isOptionLine_comment {indent : List Char} (hindent : ∀ c ∈ indent, isBlank c = true)
    (rest : List Char) : isOptionLine (indent ++ '#' :: rest) = false := by
  have hfind : (indent ++ '#' :: rest).find? (!isBlank ·) = some '#' := by
    rw [List.find?_append, List.find?_eq_none.mpr (fun c hc => by simp [hindent c hc])]
    rfl
  unfold isOptionLine
  rw [hfind]
  rfl

/-- What a line adds to the arguments when there are no quotes in its own. -/
theorem lineTokens_of_notQuote (line : ResponseLine)
    (hline : ∀ arg ∈ line.args, ∀ c ∈ arg, isQuote c = false) :
    ([line.text].filter isOptionLine).flatMap lineTokens = line.args := by
  cases line with
  | arguments args =>
      cases args with
      | nil => rfl
      | cons a args =>
          have hargs : ∀ b ∈ a :: args, ∀ c ∈ b.text, isQuote c = false :=
            fun b hb => hline b.text (List.mem_map_of_mem hb)
          rw [List.filter_cons_of_pos (isOptionLine_arguments a args), List.filter_nil,
            List.flatMap_singleton, lineTokens_arguments _ hargs]
  | blank s hs hnewline =>
      have hdrop : isOptionLine (ResponseLine.blank s hs hnewline).text ≠ true := by
        rw [show isOptionLine (ResponseLine.blank s hs hnewline).text = false from
          isOptionLine_blank hs]
        exact Bool.false_ne_true
      rw [List.filter_cons_of_neg hdrop]
      rfl
  | comment indent rest hindent hnewline =>
      have hdrop : isOptionLine (ResponseLine.comment indent rest hindent hnewline).text ≠ true := by
        rw [show isOptionLine (ResponseLine.comment indent rest hindent hnewline).text = false from
          isOptionLine_comment hindent rest]
        exact Bool.false_ne_true
      rw [List.filter_cons_of_neg hdrop]
      rfl

theorem flatMap_lineTokens (lines : List ResponseLine)
    (hlines : ∀ arg ∈ lines.flatMap (·.args), ∀ c ∈ arg, isQuote c = false) :
    ((lines.map (·.text)).filter isOptionLine).flatMap lineTokens = lines.flatMap (·.args) := by
  induction lines with
  | nil => rfl
  | cons line lines ih =>
      have hline := lineTokens_of_notQuote line
        fun arg harg => hlines arg (List.mem_flatMap.mpr ⟨line, List.mem_cons_self, harg⟩)
      have hrest := ih fun arg harg =>
        hlines arg (by rw [List.flatMap_cons]; exact List.mem_append_right _ harg)
      rw [List.map_cons, ← List.singleton_append, List.filter_append, List.flatMap_append,
        hline, hrest, List.flatMap_cons]

/-! ## What is delivered -/

theorem isQuote_of_mem_arguments {lines : List ResponseLine} {arg : List Char}
    (harg : arg ∈ lines.flatMap (·.args)) {c : Char} (hc : c ∈ arg) :
    isQuote c = true ↔ c = '\'' := by
  obtain ⟨line, -, harg⟩ := List.mem_flatMap.mp harg
  cases line with
  | arguments args =>
      obtain ⟨a, -, rfl⟩ := List.mem_map.mp harg
      have hne : c ≠ '\"' := fun h => a.notQuote (h ▸ hc)
      simp [isQuote, hne]
  | blank s hs hnewline => exact absurd harg List.not_mem_nil
  | comment indent rest hindent hnewline => exact absurd harg List.not_mem_nil

/-- A file of quoted arguments is parsed into these arguments exactly when there
is no apostrophe in any of them. -/
theorem parse_fileText_iff (filename : String) (lastNewline : Bool) (lines : List ResponseLine)
    (args : List (List Char)) :
    parse filename (some (fileText lastNewline lines)) args =
        (args ++ lines.flatMap (·.args), []) ↔
      ∀ arg ∈ lines.flatMap (·.args), '\'' ∉ arg := by
  unfold parse
  dsimp only
  rw [loadFile_fileText]
  constructor
  · intro h arg harg hquote
    have hsame : ((lines.map (·.text)).filter isOptionLine).flatMap lineTokens =
        lines.flatMap (·.args) := List.append_cancel_left (congrArg Prod.fst h)
    rw [← hsame] at harg
    obtain ⟨line, -, htoken⟩ := List.mem_flatMap.mp harg
    have := notQuote_of_mem_lineTokens htoken '\'' hquote
    exact absurd this (by decide)
  · intro h
    have hquote : ∀ arg ∈ lines.flatMap (·.args), ∀ c ∈ arg, isQuote c = false := by
      intro arg harg c hc
      by_contra hq
      have : c = '\'' := (isQuote_of_mem_arguments harg hc).mp (eq_true_of_ne_false hq)
      exact h arg harg (this ▸ hc)
    rw [flatMap_lineTokens lines hquote]

/-- The apostrophe of `it's` ends the quotes that are open, and is not kept. -/
theorem apostrophe_not_delivered :
    ¬∀ (filename : String) (lastNewline : Bool) (lines : List ResponseLine)
      (args : List (List Char)),
      parse filename (some (fileText lastNewline lines)) args =
        (args ++ lines.flatMap (·.args), []) := by
  intro h
  have hlost := h "coflo.rsp" true
    [.arguments [⟨['i', 't', '\'', 's'], ⟨'i', by decide, by decide⟩, by decide, by decide, by decide⟩]] []
  exact absurd hlost (by decide)

end CoFlo.Ports
