import CoFlo.Ports.FileTemplate
import CoFlo.Ports.TranslationUnit

/-!
# The navigation tree of the report

`Program::Print` makes `index.html` from a template.  Every translation unit
queues edits on it: its own entry goes before `<!-- NAV_END -->`, and the
entry of each function it defines before `<!-- NAV_FUNCTION_ENTRY_END -->`.
The entry of a file leaves its `<!-- NAV_FUNCTION_ENTRY_END -->` in the page,
so the edit for a function does not only reach the entry of the file which
defines it: it reaches the entries of all files before as well
(`printIndexHtml_eq_page`).  The navigation tree lists for each file the functions of
that file exactly when no file but the first defines a function
(`navTree_listsOwn_iff`).

The template is put into the program by the build, as the array
`index_template_html`.  Here it is any text which, once the header edits are
done, has a `<!-- NAV_START -->` and a `<!-- NAV_END -->` behind it
(`NavTemplate`).
-/

namespace CoFlo.Ports

open CoFlo.Verified.TextEdit

/-- The file of a translation unit, as `m_source_filename.generic_string()`
writes it, and `m_function_defs`. -/
structure TranslationUnit where
  sourceFilename : Text
  functionDefs : List FunctionPtr

/-! ## The templates -/

/-- String literals which stand side by side are one literal. -/
def literals (lines : List String) : Text := lines.flatMap bytes

def navStart : Text := bytes "<!-- NAV_START -->"

def navEnd : Text := bytes "<!-- NAV_END -->"

def navFunctionEntryEnd : Text := bytes "<!-- NAV_FUNCTION_ENTRY_END -->"

def tabPanelListEnd : Text := bytes "<!-- TAB_PANEL_LIST_END -->"

def atUniqueFileId : Text := bytes "@UNIQUE_FILE_ID@"

def atFilename : Text := bytes "@FILENAME@"

def atIdentifierFunction : Text := bytes "@IDENTIFIER_FUNCTION@"

def atUniqueFunctionId : Text := bytes "@UNIQUE_FUNCTION_ID@"

def atTabnumber : Text := bytes "@TABNUMBER@"

/-- `str_template_function_cfg`. -/
def strTemplateFunctionCfg : Text :=
  literals [
    "<div id=\"@IDENTIFIER_FUNCTION@\">\n",
    "\t\t<!-- Surround the function name with an anchor in an attempt at having ",
    "reasonable <noscript> nav fallback. -->\n",
    "\t\t<p><a id=\"file1-@IDENTIFIER_FUNCTION@\">@IDENTIFIER_FUNCTION@()</a></p>\n",
    "\t\t<object class=\"svg-cfg\" type=\"image/svg+xml\" ",
    "data=\"@IDENTIFIER_FUNCTION@.svg\"></object>\n",
    "\t</div>"]

/-- `f_str_template_nav_tree_function_entry`. -/
def strTemplateNavTreeFunctionEntry : Text :=
  literals [
    "\t\t\t<li data-nav-tree-node-type=\"function\">\n",
    "\t\t\t\t<a href=\"#@IDENTIFIER_FUNCTION@\">@IDENTIFIER_FUNCTION@()</a>\n",
    "\t\t\t</li>\n"]

/-- `f_str_template_nav_tree_file_entry`. -/
def strTemplateNavTreeFileEntry : Text :=
  literals [
    "\t<li id=\"@UNIQUE_FILE_ID@\" class=\"coflo-nav-tree-file\" ",
    "data-nav-tree-node-type=\"source_file\">\n",
    "\t\t<a href=\"#\">@FILENAME@</a>\n",
    "\t\t<ul>\n",
    "\t\t\t<!-- NAV_FUNCTION_ENTRY_START -->\n",
    "\t\t\t<!-- NAV_FUNCTION_ENTRY_END -->\n",
    "\t\t</ul>\n",
    "\t</li>"]

/-! ## Printing -/

namespace TranslationUnit

/-- `unique_file_id`. -/
def uniqueFileId (this : TranslationUnit) : Text :=
  Ports.regexReplace (bytes "file_" ++ this.sourceFilename)
    ⟨oneOf fun c => c == '.' || c == '/' || c == '-', false⟩ (bytes "_")

/-- `m_source_filename.filename()`: the last component of the path, which is a
dot when the path ends in a slash. -/
def filename (this : TranslationUnit) : Text :=
  if this.sourceFilename.getLast? = some '/' then bytes "."
  else (this.sourceFilename.reverse.takeWhile (· != '/')).reverse

/-- `nav_tree_table_entry`. -/
def navTreeTableEntry (this : TranslationUnit) : FileTemplate :=
  ((FileTemplate.ofText strTemplateNavTreeFileEntry).regexReplace
    (literal atUniqueFileId) this.uniqueFileId).regexReplace
    (literal atFilename) this.filename

/-- `nav_tree_table_entry_function`, where `ss` is the number of the function
in its file. -/
def navTreeTableEntryFunction (this : TranslationUnit) (identifier ss : Text) :
    FileTemplate :=
  ((((FileTemplate.ofText strTemplateNavTreeFunctionEntry).regexReplace
    (literal atUniqueFileId) this.uniqueFileId).regexReplace
    (literal atIdentifierFunction) identifier).regexReplace
    (literal atUniqueFunctionId) identifier).regexReplace
    (literal atTabnumber) ss

/-- `function_cfg`. -/
def functionCfg (identifier ss : Text) : FileTemplate :=
  ((FileTemplate.ofText strTemplateFunctionCfg).regexReplace
    (literal atIdentifierFunction) identifier).regexReplace
    (literal (bytes "TABNUMBER")) ss

/-- The edits one round of the loop over the functions queues. -/
def printFunction (h : Heap) (this : TranslationUnit) (indexHtmlOut : FileTemplate)
    (fp : FunctionPtr × Nat) : FileTemplate :=
  let identifier := bytes (h.function fp.1).functionId
  let ss := bytes (toString fp.2)
  (indexHtmlOut.regexInsertBefore (literal navFunctionEntryEnd)
    (this.navTreeTableEntryFunction identifier ss).str).regexInsertBefore
    (literal tabPanelListEnd) (functionCfg identifier ss).str

/-- `TranslationUnit::Print`. -/
def print (h : Heap) (this : TranslationUnit) (indexHtmlOut : FileTemplate) :
    FileTemplate :=
  (this.functionDefs.zipIdx 1).foldl (this.printFunction h)
    (indexHtmlOut.regexInsertBefore (literal navEnd) this.navTreeTableEntry.str)

end TranslationUnit

/-- The edits `Program::Print` starts with. -/
def headerEdits (indexTemplateHtml : Text) : FileTemplate :=
  ((((FileTemplate.ofText indexTemplateHtml).regexReplace
    (between (bytes "<!-- REMOVE_START") (bytes "REMOVE_END -->"))
      (bytes "<!-- REMOVED DEV TEXT -->")).regexReplace
    (literal (bytes "@INDEX_TITLE@")) (bytes "CoFlo Analysis Results")).regexReplace
    (literal (bytes "@REPORT_HEADER@")) (bytes "CoFlo Analysis Results")).regexReplace
    -- the dots of the expression are not escaped
    (classes ((bytes "index.template.css").map fun c x => c == '.' || x == c))
      (bytes "index.css")

/-- The `index.html` which `Program::Print` writes. -/
def printIndexHtml (h : Heap) (indexTemplateHtml : Text)
    (translationUnits : List TranslationUnit) : Text :=
  (translationUnits.foldl (fun out tu => tu.print h out)
    (headerEdits indexTemplateHtml)).str

/-! ## What the page should say -/

/-- What stands between the first `<!-- NAV_START -->` of a page and the
`<!-- NAV_END -->` behind it. -/
def navTree (page : Text) : Option Text := do
  let start ← splitFirst navStart page
  let tree ← splitFirst navEnd start.2
  return tree.1

/-- What the entry of a function has before, between and behind the two places
of the identifier. -/
def functionEntryOpen : Text :=
  literals [
    "\t\t\t<li data-nav-tree-node-type=\"function\">\n",
    "\t\t\t\t<a href=\"#"]

def functionEntryLink : Text := bytes "\">"

def functionEntryClose : Text := bytes "()</a>\n\t\t\t</li>\n"

/-- The entry of a function. -/
def functionEntry (identifier : Text) : Text :=
  functionEntryOpen ++ (identifier ++ (functionEntryLink ++
    (identifier ++ functionEntryClose)))

/-- What the entry of a file has around its identifier, its name and the
functions it lists. -/
def fileEntryOpen : Text := bytes "\t<li id=\""

def fileEntryLink : Text :=
  literals [
    "\" class=\"coflo-nav-tree-file\" ",
    "data-nav-tree-node-type=\"source_file\">\n",
    "\t\t<a href=\"#\">"]

def fileEntryList : Text :=
  literals [
    "</a>\n",
    "\t\t<ul>\n",
    "\t\t\t<!-- NAV_FUNCTION_ENTRY_START -->\n",
    "\t\t\t"]

def fileEntryClose : Text := bytes "\n\t\t</ul>\n\t</li>"

/-- The entry of a file which lists the functions of these identifiers. -/
def fileEntry (unit : TranslationUnit) (identifiers : List Text) : Text :=
  fileEntryOpen ++ (unit.uniqueFileId ++ (fileEntryLink ++ (unit.filename ++
    (fileEntryList ++
      (identifiers.flatMap (fun identifier => functionEntry identifier ++ ['\n']) ++
        (navFunctionEntryEnd ++ fileEntryClose))))))

/-- The identifiers of the functions a translation unit defines. -/
def TranslationUnit.identifiers (h : Heap) (this : TranslationUnit) : List Text :=
  this.functionDefs.map fun fp => bytes (h.function fp).functionId

/-- The entries of some files, each with the functions it lists. -/
def navEntries (entries : List (TranslationUnit × List Text)) : Text :=
  entries.flatMap fun entry => fileEntry entry.1 entry.2 ++ ['\n']

/-- Each file with the functions it defines. -/
def ownFunctions (h : Heap) (units : List TranslationUnit) :
    List (TranslationUnit × List Text) :=
  units.map fun unit => (unit, unit.identifiers h)

/-- The markers the edits of the page look for. -/
def pageMarkers : List Text :=
  [navStart, navEnd, navFunctionEntryEnd, tabPanelListEnd]

/-- All markers of the templates. -/
def templateMarkers : List Text :=
  pageMarkers ++ [atUniqueFileId, atFilename, atIdentifierFunction,
    atUniqueFunctionId, atTabnumber]

/-- What `index_template_html` has to be for a navigation tree to be put in
it: the header edits leave the two markers of the tree, and no other marker
of an edit before the end of the tree. -/
structure NavTemplate (indexTemplateHtml : Text) where
  before : Text
  gap : Text
  after : Text
  header : (headerEdits indexTemplateHtml).str =
    before ++ (navStart ++ (gap ++ (navEnd ++ after)))
  before_plain : ∀ m ∈ pageMarkers, ¬ m <:+: before
  gap_plain : ∀ m ∈ pageMarkers, ¬ m <:+: gap

/-- What is asked of file paths and function names: nothing in them is special
in a replacement format, and they contain no marker of the templates. -/
structure PlainName (name : Text) : Prop where
  no_dollar : '$' ∉ name
  no_backslash : '\\' ∉ name
  no_marker : ∀ m ∈ templateMarkers, ¬ m <:+: name

instance (name : Text) : Decidable (PlainName name) :=
  decidable_of_iff ('$' ∉ name ∧ '\\' ∉ name ∧ ∀ m ∈ templateMarkers, ¬ m <:+: name)
    ⟨fun ⟨hdollar, hbackslash, hmarker⟩ => ⟨hdollar, hbackslash, hmarker⟩,
      fun hname => ⟨hname.no_dollar, hname.no_backslash, hname.no_marker⟩⟩

/-! ## The texts around the names -/

/-- The templates, cut at their markers. -/
theorem templates_eq :
    strTemplateNavTreeFileEntry =
        fileEntryOpen ++ (atUniqueFileId ++ (fileEntryLink ++ (atFilename ++
          (fileEntryList ++ (navFunctionEntryEnd ++ fileEntryClose))))) ∧
      strTemplateNavTreeFunctionEntry =
        functionEntryOpen ++ (atIdentifierFunction ++ (functionEntryLink ++
          (atIdentifierFunction ++ functionEntryClose))) := by
  decide +kernel

/-- The fixed texts of the entries and a marker have nothing in common, and what
stands behind a name cannot continue the marker. -/
structure FreeAround (m : Text) : Prop where
  ne_nil : m ≠ []
  dot : ¬ m <:+: ['.']
  newline : Free m ['\n']
  functionOpen : Free m functionEntryOpen
  functionLink : Free m functionEntryLink
  functionClose : Free m functionEntryClose
  fileOpen : Free m fileEntryOpen
  fileLink : Free m fileEntryLink
  fileList : Free m fileEntryList
  fileClose : Free m fileEntryClose
  quote : '"' ∉ m.tail
  paren : '(' ∉ m.tail
  angle : '<' ∉ m.tail
  tab : '\t' ∉ m.tail

theorem freeAround {m : Text} (hm : m ∈ templateMarkers) : FreeAround m := by
  have hall : ∀ m ∈ templateMarkers, m ≠ [] ∧ ¬ m <:+: ['.'] ∧ Free m ['\n'] ∧
      Free m functionEntryOpen ∧ Free m functionEntryLink ∧
      Free m functionEntryClose ∧ Free m fileEntryOpen ∧ Free m fileEntryLink ∧
      Free m fileEntryList ∧ Free m fileEntryClose ∧
      '"' ∉ m.tail ∧ '(' ∉ m.tail ∧ '<' ∉ m.tail ∧ '\t' ∉ m.tail := by
    decide +kernel
  obtain ⟨hne, hdot, hnewline, hfo, hfl, hfc, ho, hl, hlist, hc, hq, hp, ha, ht⟩ :=
    hall m hm
  exact ⟨hne, hdot, hnewline, hfo, hfl, hfc, ho, hl, hlist, hc, hq, hp, ha, ht⟩

theorem mem_templateMarkers {m : Text} (hm : m ∈ pageMarkers) : m ∈ templateMarkers :=
  List.mem_append_left _ hm

theorem navStart_mem : navStart ∈ pageMarkers := List.mem_cons_self

theorem navEnd_mem : navEnd ∈ pageMarkers :=
  List.mem_cons_of_mem _ List.mem_cons_self

theorem navFunctionEntryEnd_mem : navFunctionEntryEnd ∈ pageMarkers :=
  List.mem_cons_of_mem _ (List.mem_cons_of_mem _ List.mem_cons_self)

theorem tabPanelListEnd_mem : tabPanelListEnd ∈ pageMarkers :=
  List.mem_cons_of_mem _ (List.mem_cons_of_mem _ (List.mem_cons_of_mem _
    List.mem_cons_self))

/-- No page marker begins in another one. -/
theorem pageMarkers_apart :
    (Free navEnd navStart ∧ Free navEnd navFunctionEntryEnd) ∧
      (Free navFunctionEntryEnd navStart ∧ Free navFunctionEntryEnd navEnd) ∧
      Free tabPanelListEnd navStart ∧ Free tabPanelListEnd navFunctionEntryEnd ∧
      Free tabPanelListEnd navEnd := by
  decide +kernel

/-- Page markers have a dash and identifiers of files begin without one; no
fixed text has a dollar sign. -/
theorem dash_and_dollar :
    (∀ m ∈ pageMarkers, '-' ∈ m) ∧ '-' ∉ bytes "file_" ∧
      ∀ piece ∈ [bytes "file_", functionEntryOpen, functionEntryLink,
        functionEntryClose, fileEntryOpen, fileEntryLink, fileEntryList,
        navFunctionEntryEnd, fileEntryClose], '$' ∉ piece := by
  decide +kernel

/-! ## Names are copied -/

/-- In the unique identifier of a file the separators of its path have become
underscores. -/
theorem uniqueFileId_eq (unit : TranslationUnit) :
    unit.uniqueFileId =
      bytes "file_" ++ unit.sourceFilename.map fun c =>
        if c == '.' || c == '/' || c == '-' then '_' else c := by
  have hmap := replaceAll_oneOf (fun c => c == '.' || c == '/' || c == '-') '_'
    (bytes "file_" ++ unit.sourceFilename)
  rw [List.map_append] at hmap
  exact hmap

theorem filename_occurs (unit : TranslationUnit) :
    unit.filename = ['.'] ∨ unit.filename <:+: unit.sourceFilename := by
  unfold TranslationUnit.filename
  split
  · exact Or.inl rfl
  · right
    have hfront : unit.sourceFilename.reverse.takeWhile (· != '/') <+:
        unit.sourceFilename.reverse := List.takeWhile_prefix _
    have hreverse := hfront.isInfix.reverse
    rwa [List.reverse_reverse] at hreverse

/-- A marker is in the name of a file only if it is in its path. -/
theorem not_infix_filename {unit : TranslationUnit}
    (hname : PlainName unit.sourceFilename) {m : Text}
    (hm : m ∈ templateMarkers) : ¬ m <:+: unit.filename := by
  rcases filename_occurs unit with hdot | hoccurs
  · rw [hdot]
    exact (freeAround hm).dot
  · exact fun h => hname.no_marker m hm (h.trans hoccurs)

/-- A unique file identifier has no dash, and every page marker has one. -/
theorem not_infix_uniqueFileId (unit : TranslationUnit) {m : Text}
    (hm : m ∈ pageMarkers) : ¬ m <:+: unit.uniqueFileId := by
  intro hoccurs
  have hdash : '-' ∈ m := dash_and_dollar.1 m hm
  have hmem := hoccurs.subset hdash
  rw [uniqueFileId_eq, List.mem_append, List.mem_map] at hmem
  rcases hmem with hmem | ⟨c, -, hc⟩
  · exact dash_and_dollar.2.1 hmem
  · by_cases hspecial : (c == '.' || c == '/' || c == '-') = true
    · rw [if_pos hspecial] at hc
      revert hc
      decide
    · rw [if_neg hspecial] at hc
      rw [hc] at hspecial
      exact hspecial rfl

/-- A text without underscores is in a unique file identifier only if it is in
the path. -/
theorem infix_of_infix_map {m path : Text} (hm : '_' ∉ m)
    (hoccurs : m <:+: path.map fun c =>
      if c == '.' || c == '/' || c == '-' then '_' else c) : m <:+: path := by
  obtain ⟨s, t, hst⟩ := hoccurs
  obtain ⟨sm, t', rfl, hsm, -⟩ := List.map_eq_append_iff.mp hst.symm
  obtain ⟨s', m', rfl, -, rfl⟩ := List.map_eq_append_iff.mp hsm
  have hcopy : m'.map (fun c =>
      if c == '.' || c == '/' || c == '-' then '_' else c) = m' := by
    apply (List.map_congr_left _).trans (List.map_id m')
    intro c hc
    by_cases hspecial : (c == '.' || c == '/' || c == '-') = true
    · apply absurd _ hm
      rw [List.mem_map]
      exact ⟨c, hc, if_pos hspecial⟩
    · exact if_neg hspecial
  rw [hcopy]
  exact List.infix_append s' m' t'

/-! ## The entries before they are put in the page -/

theorem uniqueFileId_no_dollar {unit : TranslationUnit}
    (hname : PlainName unit.sourceFilename) : '$' ∉ unit.uniqueFileId := by
  rw [uniqueFileId_eq, List.mem_append, not_or, List.mem_map]
  refine ⟨dash_and_dollar.2.2 _ List.mem_cons_self, ?_⟩
  rintro ⟨c, hc, hdollar⟩
  by_cases hspecial : (c == '.' || c == '/' || c == '-') = true
  · rw [if_pos hspecial] at hdollar
    revert hdollar
    decide
  · rw [if_neg hspecial] at hdollar
    exact hname.no_dollar (hdollar ▸ hc)

theorem filename_no_dollar {unit : TranslationUnit}
    (hname : PlainName unit.sourceFilename) : '$' ∉ unit.filename := by
  rcases filename_occurs unit with hdot | hoccurs
  · rw [hdot]
    decide
  · exact fun h => hname.no_dollar (hoccurs.subset h)

/-- The entry of a file goes into the page without any function. -/
theorem navTreeTableEntry_str {unit : TranslationUnit}
    (hname : PlainName unit.sourceFilename) :
    unit.navTreeTableEntry.str = fileEntry unit [] := by
  have hfixed : atUniqueFileId ∈ templateMarkers ∧ atFilename ∈ templateMarkers ∧
      '_' ∉ atFilename ∧ Free atFilename (bytes "file_") ∧
      ¬ atUniqueFileId <:+: fileEntryLink ++ (atFilename ++
        (fileEntryList ++ (navFunctionEntryEnd ++ fileEntryClose))) ∧
      ¬ atFilename <:+: fileEntryList ++ (navFunctionEntryEnd ++ fileEntryClose) := by
    decide +kernel
  obtain ⟨hidMem, hnameMem, hunderscore, hfile, hidAbsent, hnameAbsent⟩ := hfixed
  have hid : Untouched (literal atFilename) unit.uniqueFileId
      (fileEntryLink ++ (atFilename ++
        (fileEntryList ++ (navFunctionEntryEnd ++ fileEntryClose)))) := by
    rw [uniqueFileId_eq]
    apply untouched_append (hfile.untouched _)
    apply untouched_before _ rfl (freeAround hnameMem).quote
    exact fun h => hname.no_marker atFilename hnameMem (infix_of_infix_map hunderscore h)
  have hfirst : replaceAll (literal atUniqueFileId) (fun _ => unit.uniqueFileId)
      strTemplateNavTreeFileEntry =
      fileEntryOpen ++ (unit.uniqueFileId ++ (fileEntryLink ++ (atFilename ++
        (fileEntryList ++ (navFunctionEntryEnd ++ fileEntryClose))))) := by
    rw [templates_eq.1, replaceAll_append ((freeAround hidMem).fileOpen.untouched _),
      replaceAll_literal (freeAround hidMem).ne_nil, replaceAll_absent hidAbsent]
  rw [TranslationUnit.navTreeTableEntry, FileTemplate.str_regexReplace,
    FileTemplate.str_regexReplace, FileTemplate.str_ofText,
    apply_simpleReplace (uniqueFileId_no_dollar hname),
    apply_simpleReplace (filename_no_dollar hname), hfirst,
    replaceAll_append ((freeAround hnameMem).fileOpen.untouched _),
    replaceAll_append hid,
    replaceAll_append ((freeAround hnameMem).fileLink.untouched _),
    replaceAll_literal (freeAround hnameMem).ne_nil, replaceAll_absent hnameAbsent]
  rfl

theorem functionEntry_untouched {identifier : Text} (hname : PlainName identifier)
    {m : Text} (hm : m ∈ templateMarkers) (v : Text) :
    Untouched (literal m) (functionEntry identifier) v := by
  have haround := freeAround hm
  have hidentifier := hname.no_marker m hm
  apply untouched_append (haround.functionOpen.untouched _)
  apply untouched_append
  · exact untouched_before hidentifier rfl haround.quote
  apply untouched_append (haround.functionLink.untouched _)
  apply untouched_append
  · exact untouched_before hidentifier rfl haround.paren
  exact haround.functionClose.untouched v

/-- The entry of a function does not tell its file or its number. -/
theorem navTreeTableEntryFunction_str (unit : TranslationUnit) {identifier : Text}
    (hname : PlainName identifier) (ss : Text) :
    (unit.navTreeTableEntryFunction identifier ss).str = functionEntry identifier := by
  have hfixed : atIdentifierFunction ∈ templateMarkers ∧
      atUniqueFunctionId ∈ templateMarkers ∧ atTabnumber ∈ templateMarkers ∧
      ¬ atUniqueFileId <:+: strTemplateNavTreeFunctionEntry ∧
      ¬ atIdentifierFunction <:+: functionEntryClose := by
    decide +kernel
  obtain ⟨hidentifierMem, hidMem, hnumberMem, hfileAbsent, hcloseAbsent⟩ := hfixed
  have hfile : (simpleReplace (literal atUniqueFileId) unit.uniqueFileId).apply
      strTemplateNavTreeFunctionEntry = strTemplateNavTreeFunctionEntry :=
    replaceAll_absent hfileAbsent
  have hidentifier : (simpleReplace (literal atIdentifierFunction) identifier).apply
      strTemplateNavTreeFunctionEntry = functionEntry identifier := by
    have haround := freeAround hidentifierMem
    rw [apply_simpleReplace hname.no_dollar, templates_eq.2,
      replaceAll_append (haround.functionOpen.untouched _),
      replaceAll_literal haround.ne_nil,
      replaceAll_append (haround.functionLink.untouched _),
      replaceAll_literal haround.ne_nil, replaceAll_absent hcloseAbsent]
    rfl
  have hother : ∀ m ∈ templateMarkers, ∀ replacement,
      (simpleReplace (literal m) replacement).apply (functionEntry identifier) =
        functionEntry identifier :=
    fun m hm _ => replaceAll_untouched (functionEntry_untouched hname hm [])
  rw [TranslationUnit.navTreeTableEntryFunction, FileTemplate.str_regexReplace,
    FileTemplate.str_regexReplace, FileTemplate.str_regexReplace,
    FileTemplate.str_regexReplace, FileTemplate.str_ofText, hfile, hidentifier,
    hother _ hidMem, hother _ hnumberMem]

/-! ## The page while the edits are run -/

/-- A page with these entries in its navigation tree. -/
def NavTemplate.page {indexTemplateHtml : Text} (template : NavTemplate indexTemplateHtml)
    (entries : List (TranslationUnit × List Text)) (after : Text) : Text :=
  template.before ++ (navStart ++ (template.gap ++
    (navEntries entries ++ (navEnd ++ after))))

/-- The names a page is made of are plain. -/
def PlainEntries (entries : List (TranslationUnit × List Text)) : Prop :=
  ∀ entry ∈ entries, PlainName entry.1.sourceFilename ∧
    ∀ identifier ∈ entry.2, PlainName identifier

theorem functionLines_untouched {identifiers : List Text}
    (hnames : ∀ identifier ∈ identifiers, PlainName identifier) {m : Text}
    (hm : m ∈ pageMarkers) (v : Text) :
    Untouched (literal m)
      (identifiers.flatMap fun identifier => functionEntry identifier ++ ['\n']) v := by
  induction identifiers with
  | nil => exact untouched_nil v
  | cons identifier identifiers ih =>
      have hentry := hnames identifier List.mem_cons_self
      have haround := freeAround (mem_templateMarkers hm)
      rw [List.flatMap_cons]
      apply untouched_append
      · apply untouched_append
        · exact functionEntry_untouched hentry (mem_templateMarkers hm) _
        · exact haround.newline.untouched _
      · exact ih fun i hi => hnames i (List.mem_cons_of_mem identifier hi)

/-- The entry of a file is untouched up to the marker in it. -/
theorem fileEntry_untouched {unit : TranslationUnit} {identifiers : List Text}
    (hunit : PlainName unit.sourceFilename)
    (hnames : ∀ identifier ∈ identifiers, PlainName identifier) {m : Text}
    (hm : m ∈ pageMarkers) (v : Text) :
    Untouched (literal m)
      (fileEntryOpen ++ (unit.uniqueFileId ++ (fileEntryLink ++ (unit.filename ++
        (fileEntryList ++ identifiers.flatMap fun identifier =>
          functionEntry identifier ++ ['\n']))))) v := by
  have haround := freeAround (mem_templateMarkers hm)
  apply untouched_append (haround.fileOpen.untouched _)
  apply untouched_append
  · exact untouched_before (not_infix_uniqueFileId unit hm) rfl haround.quote
  apply untouched_append (haround.fileLink.untouched _)
  apply untouched_append
  · have hfilename := not_infix_filename hunit (mem_templateMarkers hm)
    exact untouched_before hfilename rfl haround.angle
  apply untouched_append (haround.fileList.untouched _)
  exact functionLines_untouched hnames hm v

/-- The edits which look for another marker leave the entries as they are. -/
theorem navEntries_untouched {entries : List (TranslationUnit × List Text)}
    (hplain : PlainEntries entries) {m : Text} (hm : m ∈ pageMarkers)
    (hother : Free m navFunctionEntryEnd) (v : Text) :
    Untouched (literal m) (navEntries entries) v := by
  induction entries with
  | nil => exact untouched_nil v
  | cons entry entries ih =>
      obtain ⟨hunit, hnames⟩ := hplain entry List.mem_cons_self
      have haround := freeAround (mem_templateMarkers hm)
      have hrest := ih fun e he => hplain e (List.mem_cons_of_mem entry he)
      have hsplit : navEntries (entry :: entries) =
          (fileEntryOpen ++ (entry.1.uniqueFileId ++ (fileEntryLink ++
            (entry.1.filename ++ (fileEntryList ++ entry.2.flatMap fun identifier =>
              functionEntry identifier ++ ['\n']))))) ++
          (navFunctionEntryEnd ++ (fileEntryClose ++ (['\n'] ++ navEntries entries))) := by
        simp only [navEntries, fileEntry, List.flatMap_cons, List.append_assoc]
      rw [hsplit]
      apply untouched_append (fileEntry_untouched hunit hnames hm _)
      apply untouched_append (hother.untouched _)
      apply untouched_append (haround.fileClose.untouched _)
      apply untouched_append (haround.newline.untouched _)
      exact hrest

/-- The edit of a function puts its entry in the entry of every file. -/
theorem replaceAll_navEntries {entries : List (TranslationUnit × List Text)}
    (hplain : PlainEntries entries) (identifier v : Text) :
    replaceAll (literal navFunctionEntryEnd)
        (fun found => functionEntry identifier ++ ('\n' :: found))
        (navEntries entries ++ v) =
      navEntries (entries.map fun entry => (entry.1, entry.2 ++ [identifier])) ++
        replaceAll (literal navFunctionEntryEnd)
          (fun found => functionEntry identifier ++ ('\n' :: found)) v := by
  induction entries with
  | nil => rfl
  | cons entry entries ih =>
      have haround := freeAround (mem_templateMarkers navFunctionEntryEnd_mem)
      obtain ⟨hunit, hnames⟩ := hplain entry List.mem_cons_self
      have hrest := ih fun e he => hplain e (List.mem_cons_of_mem entry he)
      have hsplit : navEntries (entry :: entries) ++ v =
          (fileEntryOpen ++ (entry.1.uniqueFileId ++ (fileEntryLink ++
            (entry.1.filename ++ (fileEntryList ++ entry.2.flatMap fun identifier =>
              functionEntry identifier ++ ['\n']))))) ++
          (navFunctionEntryEnd ++ (fileEntryClose ++
            (['\n'] ++ (navEntries entries ++ v)))) := by
        simp only [navEntries, fileEntry, List.flatMap_cons, List.append_assoc]
      rw [hsplit,
        replaceAll_append (fileEntry_untouched hunit hnames navFunctionEntryEnd_mem _),
        replaceAll_literal haround.ne_nil,
        replaceAll_append (haround.fileClose.untouched _),
        replaceAll_append (haround.newline.untouched _), hrest]
      simp only [navEntries, fileEntry, List.map_cons, List.flatMap_cons,
        List.flatMap_append, List.flatMap_nil, List.append_assoc, List.append_nil,
        List.cons_append, List.nil_append]

namespace NavTemplate

variable {indexTemplateHtml : Text} (template : NavTemplate indexTemplateHtml)
  {entries : List (TranslationUnit × List Text)}

/-- What follows the gap begins with a tab or with a marker. -/
theorem gap_untouched {m : Text} (hm : m ∈ pageMarkers) (after : Text) :
    Untouched (literal m) template.gap (navEntries entries ++ (navEnd ++ after)) := by
  have haround := freeAround (mem_templateMarkers hm)
  cases entries with
  | nil => exact untouched_before (template.gap_plain m hm) rfl haround.angle
  | cons entry entries =>
      exact untouched_before (template.gap_plain m hm) rfl haround.tab

theorem before_untouched {m : Text} (hm : m ∈ pageMarkers) (v : Text) :
    Untouched (literal m) template.before (navStart ++ v) :=
  untouched_before (template.before_plain m hm) rfl
    (freeAround (mem_templateMarkers hm)).angle

/-- Nothing before the entries is touched by an edit which looks for `m`. -/
theorem replaceAll_page {m : Text} (hm : m ∈ pageMarkers)
    (hstart : Free m navStart) (replacement : Text → Text) (after : Text) :
    replaceAll (literal m) replacement (template.page entries after) =
      template.before ++ (navStart ++ (template.gap ++
        replaceAll (literal m) replacement
          (navEntries entries ++ (navEnd ++ after)))) := by
  rw [page, replaceAll_append (template.before_untouched hm _),
    replaceAll_append (hstart.untouched _),
    replaceAll_append (template.gap_untouched hm after)]

theorem functionEntry_no_dollar {identifier : Text} (hname : PlainName identifier) :
    '$' ∉ functionEntry identifier := by
  have hfixed := dash_and_dollar.2.2
  simp only [List.forall_mem_cons] at hfixed
  obtain ⟨-, hopen, hlink, hclose, -⟩ := hfixed
  simp only [functionEntry, List.mem_append, not_or]
  exact ⟨hopen, hname.no_dollar, hlink, hname.no_dollar, hclose⟩

theorem fileEntry_no_dollar {unit : TranslationUnit}
    (hname : PlainName unit.sourceFilename) : '$' ∉ fileEntry unit [] := by
  have hfixed := dash_and_dollar.2.2
  simp only [List.forall_mem_cons] at hfixed
  obtain ⟨-, -, -, -, hopen, hlink, hlist, hend, hclose, -⟩ := hfixed
  simp only [fileEntry, List.flatMap_nil, List.nil_append, List.mem_append, not_or]
  exact ⟨hopen, uniqueFileId_no_dollar hname, hlink, filename_no_dollar hname, hlist,
    hend, hclose⟩

/-- The first edit of a translation unit appends its entry. -/
theorem apply_insertFile {unit : TranslationUnit} (hplain : PlainEntries entries)
    (hunit : PlainName unit.sourceFilename) (after : Text) :
    ∃ after', (insertBefore (literal navEnd) unit.navTreeTableEntry.str).apply
      (template.page entries after) =
        template.page (entries ++ [(unit, [])]) after' := by
  obtain ⟨⟨hstart, hfunction⟩, -⟩ := pageMarkers_apart
  rw [navTreeTableEntry_str hunit, apply_insertBefore (fileEntry_no_dollar hunit),
    template.replaceAll_page navEnd_mem hstart,
    replaceAll_append (navEntries_untouched hplain navEnd_mem hfunction _),
    replaceAll_literal (freeAround (mem_templateMarkers navEnd_mem)).ne_nil]
  exists replaceAll (literal navEnd) (fun found => fileEntry unit [] ++ '\n' :: found) after
  simp only [page, navEntries, List.flatMap_append, List.flatMap_cons, List.flatMap_nil,
    List.append_assoc, List.append_nil, List.cons_append, List.nil_append]

/-- The first edit of a function puts it in the entry of every file. -/
theorem apply_insertFunction {identifier : Text} (hplain : PlainEntries entries)
    (hname : PlainName identifier) (after : Text) :
    ∃ after', (insertBefore (literal navFunctionEntryEnd)
      (functionEntry identifier)).apply (template.page entries after) =
        template.page (entries.map fun entry => (entry.1, entry.2 ++ [identifier]))
          after' := by
  obtain ⟨-, ⟨hstart, hnavEnd⟩, -⟩ := pageMarkers_apart
  rw [apply_insertBefore (functionEntry_no_dollar hname),
    template.replaceAll_page navFunctionEntryEnd_mem hstart,
    replaceAll_navEntries hplain, replaceAll_append (hnavEnd.untouched _)]
  exact ⟨_, rfl⟩

/-- The second edit of a function does not reach the navigation tree. -/
theorem apply_insertPanel (panel : Text) (hplain : PlainEntries entries)
    (after : Text) :
    ∃ after', (insertBefore (literal tabPanelListEnd) panel).apply
      (template.page entries after) = template.page entries after' := by
  obtain ⟨-, -, hstart, hfunction, hnavEnd⟩ := pageMarkers_apart
  show ∃ after', replaceAll (literal tabPanelListEnd) _ (template.page entries after) = _
  rw [template.replaceAll_page tabPanelListEnd_mem hstart,
    replaceAll_append (navEntries_untouched hplain tabPanelListEnd_mem hfunction _),
    replaceAll_append (hnavEnd.untouched _)]
  exact ⟨_, rfl⟩

/-! ## The run of the edits -/

theorem plainEntries_append (hplain : PlainEntries entries) {identifiers : List Text}
    (hnames : ∀ identifier ∈ identifiers, PlainName identifier) :
    PlainEntries (entries.map fun entry => (entry.1, entry.2 ++ identifiers)) := by
  intro entry hentry
  obtain ⟨old, hold, rfl⟩ := List.mem_map.mp hentry
  obtain ⟨hunit, hidentifiers⟩ := hplain old hold
  refine ⟨hunit, fun identifier hidentifier => ?_⟩
  rcases List.mem_append.mp hidentifier with h | h
  · exact hidentifiers identifier h
  · exact hnames identifier h

/-- The loop over the functions of a translation unit. -/
theorem str_foldl_printFunction (h : Heap) (unit : TranslationUnit)
    {functions : List (FunctionPtr × Nat)}
    (hnames : ∀ fp ∈ functions, PlainName (bytes (h.function fp.1).functionId))
    (hplain : PlainEntries entries) {out : FileTemplate} {after : Text}
    (hout : out.str = template.page entries after) :
    ∃ after', (functions.foldl (unit.printFunction h) out).str =
      template.page (entries.map fun entry => (entry.1,
        entry.2 ++ functions.map fun fp => bytes (h.function fp.1).functionId))
        after' := by
  induction functions generalizing entries out after with
  | nil =>
      refine ⟨after, hout.trans ?_⟩
      simp only [List.map_nil, List.append_nil, List.map_id']
  | cons fp functions ih =>
      have hname := hnames fp List.mem_cons_self
      have hplain' : PlainEntries (entries.map fun entry =>
          (entry.1, entry.2 ++ [bytes (h.function fp.1).functionId])) := by
        apply plainEntries_append hplain
        intro identifier hmem
        rw [List.mem_singleton.mp hmem]
        exact hname
      obtain ⟨after₁, hfunction⟩ := template.apply_insertFunction hplain hname after
      obtain ⟨after₂, hpanel⟩ := template.apply_insertPanel
        (TranslationUnit.functionCfg (bytes (h.function fp.1).functionId)
          (bytes (toString fp.2))).str hplain' after₁
      have hstep : (unit.printFunction h out fp).str = template.page
          (entries.map fun entry =>
            (entry.1, entry.2 ++ [bytes (h.function fp.1).functionId])) after₂ := by
        rw [TranslationUnit.printFunction, FileTemplate.str_regexInsertBefore,
          FileTemplate.str_regexInsertBefore, hout,
          navTreeTableEntryFunction_str unit hname, hfunction, hpanel]
      obtain ⟨after', hrest⟩ :=
        ih (fun fp' hfp' => hnames fp' (List.mem_cons_of_mem fp hfp')) hplain' hstep
      refine ⟨after', hrest.trans ?_⟩
      simp only [List.map_map, List.map_cons, Function.comp_def, List.append_assoc,
        List.cons_append, List.nil_append]

end NavTemplate

/-- What the entries of the page come to list: each file the functions of its
own and of all files behind it. -/
def listedFunctions (h : Heap) : List TranslationUnit → List (TranslationUnit × List Text)
  | [] => []
  | unit :: units =>
      (unit, (unit :: units).flatMap (·.identifiers h)) :: listedFunctions h units

/-- The names of a program are plain. -/
def PlainNames (h : Heap) (units : List TranslationUnit) : Prop :=
  ∀ unit ∈ units, PlainName unit.sourceFilename ∧
    ∀ identifier ∈ unit.identifiers h, PlainName identifier

instance (h : Heap) (units : List TranslationUnit) : Decidable (PlainNames h units) :=
  inferInstanceAs (Decidable (∀ unit ∈ units, PlainName unit.sourceFilename ∧
    ∀ identifier ∈ unit.identifiers h, PlainName identifier))

namespace NavTemplate

variable {indexTemplateHtml : Text} (template : NavTemplate indexTemplateHtml)
  {entries : List (TranslationUnit × List Text)}

/-- What a translation unit does to a page. -/
theorem str_print (h : Heap) {unit : TranslationUnit}
    (hunit : PlainName unit.sourceFilename)
    (hnames : ∀ identifier ∈ unit.identifiers h, PlainName identifier)
    (hplain : PlainEntries entries) {out : FileTemplate} {after : Text}
    (hout : out.str = template.page entries after) :
    ∃ after', (unit.print h out).str = template.page
      ((entries.map fun entry => (entry.1, entry.2 ++ unit.identifiers h)) ++
        [(unit, unit.identifiers h)]) after' := by
  obtain ⟨after₁, hfile⟩ := template.apply_insertFile hplain hunit after
  have hout₁ : (out.regexInsertBefore (literal navEnd) unit.navTreeTableEntry.str).str =
      template.page (entries ++ [(unit, [])]) after₁ := by
    rw [FileTemplate.str_regexInsertBefore, hout, hfile]
  have hplain₁ : PlainEntries (entries ++ [(unit, [])]) := by
    intro entry hentry
    rcases List.mem_append.mp hentry with hentry | hentry
    · exact hplain entry hentry
    · rw [List.mem_singleton.mp hentry]
      exact ⟨hunit, fun _ hmem => absurd hmem List.not_mem_nil⟩
  have hfunctions : (unit.functionDefs.zipIdx 1).map
      (fun fp => bytes (h.function fp.1).functionId) = unit.identifiers h := by
    rw [TranslationUnit.identifiers, ← List.zipIdx_map_fst 1 unit.functionDefs,
      List.map_map]
    simp only [List.zipIdx_map_fst]
    rfl
  have hnames₁ : ∀ fp ∈ unit.functionDefs.zipIdx 1,
      PlainName (bytes (h.function fp.1).functionId) := by
    intro fp hfp
    apply hnames
    rw [← hfunctions]
    exact List.mem_map_of_mem hfp
  obtain ⟨after', hrun⟩ := template.str_foldl_printFunction h unit hnames₁ hplain₁ hout₁
  refine ⟨after', hrun.trans ?_⟩
  rw [hfunctions, List.map_append]
  rfl

/-- What a list of translation units does to a page: the entries which are
there get the functions of all of them. -/
theorem str_foldl_print (h : Heap) {units : List TranslationUnit}
    (hnames : PlainNames h units) (hplain : PlainEntries entries)
    {out : FileTemplate} {after : Text} (hout : out.str = template.page entries after) :
    ∃ after', (units.foldl (fun out tu => tu.print h out) out).str = template.page
      ((entries.map fun entry =>
        (entry.1, entry.2 ++ units.flatMap (·.identifiers h))) ++
        listedFunctions h units) after' := by
  induction units generalizing entries out after with
  | nil =>
      refine ⟨after, hout.trans ?_⟩
      simp only [List.flatMap_nil, List.append_nil, listedFunctions, List.map_id']
  | cons unit units ih =>
      obtain ⟨hunit, hidentifiers⟩ := hnames unit List.mem_cons_self
      obtain ⟨after₁, hstep⟩ := template.str_print h hunit hidentifiers hplain hout
      have hplain₁ : PlainEntries
          ((entries.map fun entry => (entry.1, entry.2 ++ unit.identifiers h)) ++
            [(unit, unit.identifiers h)]) := by
        intro entry hentry
        rcases List.mem_append.mp hentry with hentry | hentry
        · exact plainEntries_append hplain hidentifiers entry hentry
        · rw [List.mem_singleton.mp hentry]
          exact ⟨hunit, hidentifiers⟩
      obtain ⟨after', hrest⟩ :=
        ih (fun u hu => hnames u (List.mem_cons_of_mem unit hu)) hplain₁ hstep
      refine ⟨after', hrest.trans ?_⟩
      simp only [List.map_append, List.map_map, List.map_cons, List.map_nil,
        Function.comp_def, listedFunctions, List.flatMap_cons, List.append_assoc,
        List.cons_append, List.nil_append]

/-- The navigation tree of a page consists of its entries. -/
theorem navTree_page (hplain : PlainEntries entries) (after : Text) :
    navTree (template.page entries after) =
      some (template.gap ++ navEntries entries) := by
  have htree : Untouched (literal navEnd) (template.gap ++ navEntries entries)
      (navEnd ++ after) := by
    apply untouched_append (template.gap_untouched navEnd_mem after)
    exact navEntries_untouched hplain navEnd_mem pageMarkers_apart.1.2 _
  rw [navTree, page, splitFirst_append (freeAround (mem_templateMarkers navStart_mem)).ne_nil
    (template.before_untouched navStart_mem _)]
  show (splitFirst navEnd
    (template.gap ++ (navEntries entries ++ (navEnd ++ after)))).bind _ = _
  rw [← List.append_assoc,
    splitFirst_append (freeAround (mem_templateMarkers navEnd_mem)).ne_nil htree]
  rfl

/-- The edits which are queued for a program leave a page with the entries of
its files, each listing its own functions and those of all files behind it. -/
theorem printIndexHtml_eq_page (h : Heap) {units : List TranslationUnit}
    (hnames : PlainNames h units) :
    ∃ after', printIndexHtml h indexTemplateHtml units =
      template.page (listedFunctions h units) after' := by
  have hplain : PlainEntries [] := fun _ hentry => absurd hentry List.not_mem_nil
  exact template.str_foldl_print h hnames hplain template.header

theorem plainEntries_listedFunctions {h : Heap} {units : List TranslationUnit}
    (hnames : PlainNames h units) : PlainEntries (listedFunctions h units) := by
  induction units with
  | nil => exact fun _ hentry => absurd hentry List.not_mem_nil
  | cons unit units ih =>
      intro entry hentry
      rcases List.mem_cons.mp hentry with rfl | hentry
      · refine ⟨(hnames unit List.mem_cons_self).1, fun identifier hmem => ?_⟩
        obtain ⟨u, hu, hidentifier⟩ := List.mem_flatMap.mp hmem
        exact (hnames u hu).2 identifier hidentifier
      · exact ih (fun u hu => hnames u (List.mem_cons_of_mem unit hu)) entry hentry

theorem navTree_printIndexHtml (h : Heap) {units : List TranslationUnit}
    (hnames : PlainNames h units) :
    navTree (printIndexHtml h indexTemplateHtml units) =
      some (template.gap ++ navEntries (listedFunctions h units)) := by
  obtain ⟨after', hpage⟩ := template.printIndexHtml_eq_page h hnames
  rw [hpage]
  exact template.navTree_page (plainEntries_listedFunctions hnames) after'

end NavTemplate

/-! ## When the tree says what it should -/

theorem listedFunctions_of_tail {h : Heap} {units : List TranslationUnit}
    (htail : ∀ unit ∈ units.tail, unit.functionDefs = []) :
    listedFunctions h units = ownFunctions h units := by
  induction units with
  | nil => rfl
  | cons unit units ih =>
      have hnone : units.flatMap (·.identifiers h) = [] := by
        rw [List.flatMap_eq_nil_iff]
        intro u hu
        rw [TranslationUnit.identifiers, htail u hu, List.map_nil]
      have hrest := ih fun u hu => htail u (List.mem_of_mem_tail hu)
      rw [listedFunctions, List.flatMap_cons, hnone, List.append_nil, hrest]
      rfl

theorem length_fileEntry_append (unit : TranslationUnit) (own more : List Text) :
    (fileEntry unit (own ++ more)).length =
      (fileEntry unit own).length +
        (more.flatMap fun identifier => functionEntry identifier ++ ['\n']).length := by
  simp only [fileEntry, List.flatMap_append, List.length_append]
  omega

theorem navEntries_cons (entry : TranslationUnit × List Text)
    (entries : List (TranslationUnit × List Text)) :
    navEntries (entry :: entries) =
      (fileEntry entry.1 entry.2 ++ ['\n']) ++ navEntries entries := rfl

/-- The tree is never shorter than it should be, and of the right length only
when the files behind the first have no functions. -/
theorem length_navEntries_listed (h : Heap) (units : List TranslationUnit) :
    (navEntries (ownFunctions h units)).length ≤
        (navEntries (listedFunctions h units)).length ∧
      ((navEntries (ownFunctions h units)).length =
          (navEntries (listedFunctions h units)).length →
        ∀ unit ∈ units.tail, unit.functionDefs = []) := by
  induction units with
  | nil => exact ⟨Nat.le_refl _, fun _ _ hunit => absurd hunit List.not_mem_nil⟩
  | cons unit units ih =>
      have hlisted : (navEntries (listedFunctions h (unit :: units))).length =
          (fileEntry unit (unit.identifiers h)).length +
            ((units.flatMap (·.identifiers h)).flatMap fun identifier =>
              functionEntry identifier ++ ['\n']).length + 1 +
            (navEntries (listedFunctions h units)).length := by
        rw [listedFunctions, navEntries_cons, List.length_append, List.length_append,
          List.flatMap_cons, length_fileEntry_append]
        rfl
      have hown : (navEntries (ownFunctions h (unit :: units))).length =
          (fileEntry unit (unit.identifiers h)).length + 1 +
            (navEntries (ownFunctions h units)).length := by
        rw [ownFunctions, List.map_cons, navEntries_cons, List.length_append,
          List.length_append]
        rfl
      constructor
      · omega
      · intro heq u hu
        have hnone : ((units.flatMap (·.identifiers h)).flatMap fun identifier =>
            functionEntry identifier ++ ['\n']) = [] := by
          apply List.eq_nil_of_length_eq_zero
          omega
        have hidentifiers : u.identifiers h = [] := by
          apply List.eq_nil_iff_forall_not_mem.mpr
          intro identifier hmem
          have hline := List.flatMap_eq_nil_iff.mp hnone identifier
            (List.mem_flatMap.mpr ⟨u, hu, hmem⟩)
          exact absurd hline (List.append_ne_nil_of_right_ne_nil _ (List.cons_ne_nil _ _))
        exact List.map_eq_nil_iff.mp hidentifiers

/-- **The navigation tree lists for each file the functions which that file
defines, each once and in the order of the definitions, exactly when no file
but the first one defines a function.** -/
theorem navTree_listsOwn_iff (h : Heap) {indexTemplateHtml : Text}
    (template : NavTemplate indexTemplateHtml) {units : List TranslationUnit}
    (hnames : PlainNames h units) :
    navTree (printIndexHtml h indexTemplateHtml units) =
        some (template.gap ++ navEntries (ownFunctions h units)) ↔
      ∀ unit ∈ units.tail, unit.functionDefs = [] := by
  rw [template.navTree_printIndexHtml h hnames]
  constructor
  · intro heq
    have hentries : navEntries (listedFunctions h units) =
        navEntries (ownFunctions h units) :=
      List.append_cancel_left (Option.some.inj heq)
    exact (length_navEntries_listed h units).2 (congrArg List.length hentries.symm)
  · intro htail
    rw [listedFunctions_of_tail htail]

/-! ## Two files with a function each -/

/-- The lines of `index.template.html` which are edited. -/
def editedTemplate : Text :=
  literals [
    "<title>@INDEX_TITLE@</title>\n",
    "<link rel=\"stylesheet\" href=\"css/index.template.css\">\n",
    "<div>@REPORT_HEADER@</div>\n<ul>\n",
    "\t<!-- REMOVE_START -->\n",
    "\t<li><a href=\"#\">File 1</a></li>\n",
    "\t<!-- REMOVE_END -->\n\n",
    "\t<!-- NAV_START -->\n",
    "\t<!-- NAV_END -->\n</ul>\n",
    "\t\t<!-- TAB_PANEL_LIST_START -->\n",
    "\t\t<!-- TAB_PANEL_LIST_END -->\n"]

def editedNavTemplate : NavTemplate editedTemplate where
  before :=
    literals [
      "<title>CoFlo Analysis Results</title>\n",
      "<link rel=\"stylesheet\" href=\"css/index.css\">\n",
      "<div>CoFlo Analysis Results</div>\n<ul>\n",
      "\t<!-- REMOVED DEV TEXT -->\n\n\t"]
  gap := bytes "\n\t"
  after :=
    literals [
      "\n</ul>\n\t\t<!-- TAB_PANEL_LIST_START -->\n",
      "\t\t<!-- TAB_PANEL_LIST_END -->\n"]
  header := by decide +kernel
  before_plain := by decide +kernel
  gap_plain := by decide +kernel

/-- The functions `f` of `a.c` and `g` of `b.c`. -/
def twoFunctions : Heap :=
  ((Heap.blank fun _ => ⟨.noOp, .unknown, null, ∅, ∅, 0⟩).newFunction 1 "f"
    "a.c").newFunction 2 "g" "b.c"

def twoFiles : List TranslationUnit :=
  [⟨bytes "a.c", [1]⟩, ⟨bytes "b.c", [2]⟩]

/-- The function of the second file is listed under the first file too. -/
theorem navTree_twoFiles_not_listsOwn :
    PlainNames twoFunctions twoFiles ∧ (twoFiles.map (·.sourceFilename)).Nodup ∧
      navTree (printIndexHtml twoFunctions editedTemplate twoFiles) ≠
        some (editedNavTemplate.gap ++ navEntries (ownFunctions twoFunctions twoFiles)) := by
  decide +kernel

/-- One file with both functions is printed as it should be. -/
theorem navTree_oneFile_listsOwn :
    navTree (printIndexHtml twoFunctions editedTemplate [⟨bytes "a.c", [1, 2]⟩]) =
      some (editedNavTemplate.gap ++
        navEntries (ownFunctions twoFunctions [⟨bytes "a.c", [1, 2]⟩])) :=
  (navTree_listsOwn_iff twoFunctions editedNavTemplate (by decide +kernel)).mpr
    fun _ hunit => absurd hunit List.not_mem_nil

end CoFlo.Ports
