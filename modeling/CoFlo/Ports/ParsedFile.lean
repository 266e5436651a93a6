import CoFlo.Ports.GimpleProductions
import CoFlo.Ports.ParseFaults

/-!
# From the parse trees of the files to the linked program

`ParseFile` first has `CompileSourceFile` run gcc, which ends the process when
gcc reports an error, and then opens the dump.  A file that gcc has dumped is a
list of function definitions.  The actions of the file collect the
`FunctionInfo`s, and `ParseFile` follows their pointers when it builds the
functions, one file after the other.  What the actions of one function have
made, those of the others leave as it is, so the program is built from the
statements of each parse tree (`parseUnits_cases`).
-/

namespace CoFlo.Ports

open CoFlo.Verified CoFlo.Verified.SyntaxActions CoFlo.Verified.SyntaxActions.Grammar
open CoFlo.Verified.FoldInvariant

/-! ## The file -/

/-- `function_definition_list`, without the ends of the lines. -/
inductive FunctionDefinitionList where
  | one (definition : GimpleTree)
  | more (definitions : FunctionDefinitionList) (definition : GimpleTree)

namespace FunctionDefinitionList

/-- The definitions in source order. -/
def definitions : FunctionDefinitionList → List GimpleTree
  | one t => [t]
  | more ts t => ts.definitions ++ [t]

/-- Runs the actions; the result is `m_function_info_list`. -/
def run : FunctionDefinitionList → Memory ParserObject →
    Except Fault (List Nat × Memory ParserObject)
  | one t, m => do
      let (n, m) ← gimpleGrammar.run t m
      return ([n.user.ptr .functionInfo], m)
  | more ts t, m => do
      let (infos, m) ← ts.run m
      let (n, m) ← gimpleGrammar.run t m
      return (infos ++ [n.user.ptr .functionInfo], m)

end FunctionDefinitionList

/-- How `ParseFile` ends: it returns, or the process does. -/
inductive ParseEnd where
  | returned (opened : Bool)
  | exited (status : Nat)
  deriving DecidableEq, Repr

/-- A source file: `GenerateCFG` returns nonzero for it, or its dump cannot be
opened, or dparse reports syntax errors in it, or it delivers a tree. -/
inductive GimpleFile where
  | notCompiled
  | notOpened
  | syntaxErrors
  | parsed (definitions : FunctionDefinitionList)

namespace GimpleFile

/-- How `ParseFile` ends for a file that is not read. -/
def failure : GimpleFile → Option ParseEnd
  | notCompiled => some (.exited 1)
  | notOpened => some (.returned false)
  | _ => none

def definitions : GimpleFile → List GimpleTree
  | parsed ts => ts.definitions
  | _ => []

end GimpleFile

/-! ## Following the pointers -/

/-- `**it` of a statement list. -/
def readStatement (m : Memory ParserObject) (p : Nat) : Option (Statement × Location) :=
  match m.object p with
  | some (.statement st location) => some (st, location)
  | _ => none

/-- `*(fi->m_identifier)` and `*(fi->m_statement_list)`. -/
def readFunctionInfo (m : Memory ParserObject) (path : String) (fi : Nat) :
    Option FunctionInfo :=
  match m.object fi with
  | some (.functionInfo _ identifier statementList) =>
      match m.object identifier, m.object statementList with
      | some (.str name), some (.statementList l) =>
          (l.mapM (readStatement m)).map fun sts => ⟨path, name, sts⟩
      | _, _ => none
  | _ => none

namespace TranslationUnit

/-- `BuildFunctionsFromThreeAddressFormStatementLists`. -/
def buildFunctions (orders : PassOrders) (path : String) (m : Memory ParserObject)
    (functionInfoList : List Nat) (p : Program) : Result Program :=
  functionInfoList.foldlM (fun p fi =>
    match readFunctionInfo m path fi with
    | none => .error ⟨.nullDereference, p.heap⟩
    | some fi => Program.buildFunction orders p fi) p

/-- `ParseFile`.  `CompileSourceFile`, which it calls first, ends the process when
gcc fails; with syntax errors it builds nothing and returns true. -/
def parseFile (orders : PassOrders) (path : String) (file : GimpleFile)
    (m : Memory ParserObject) (p : Program) :
    Result (ParseEnd × Memory ParserObject × Program) :=
  match file with
  | .notCompiled => .ok (.exited 1, m, p)
  | .notOpened => .ok (.returned false, m, p)
  | .syntaxErrors => .ok (.returned true, m, p)
  | .parsed definitions =>
      match definitions.run m with
      | .error fault => .error ⟨fault, p.heap⟩
      | .ok (functionInfoList, m) => do
          let p ← buildFunctions orders path m functionInfoList p
          return (.returned true, m, p)

end TranslationUnit

/-- `Program::Parse` with the files: it ends with the first that cannot be
compiled or opened, and links the functions when there is none. -/
def Program.parseUnits (orders : PassOrders) :
    List (String × GimpleFile) → Memory ParserObject → Program →
      Result (ParseEnd × Program)
  | [], _, p => do
      let p ← p.functions.foldlM (linkFunction orders) p
      return (.returned true, p)
  | (path, file) :: units, m, p => do
      let (outcome, m, p) ← TranslationUnit.parseFile orders path file m p
      if outcome = .returned true then parseUnits orders units m p
      else return (outcome, p)

/-! ## What a function definition delivers -/

namespace GimpleTree

/-- The identifier of a function definition. -/
def functionName : GimpleTree → String
  | .node .functionDefinitionC _ ts => (ts[0]?.map name).getD ""
  | .node .functionDefinitionCpp _ ts => (ts[1]?.map name).getD ""
  | _ => ""

/-- The function definition is one that dparse delivers. -/
structure IsFunctionDefinition (t : GimpleTree) : Prop where
  derives : gimpleGrammar.derives usesAngleBrackets t = true
  symbol : gimpleGrammar.symbol t = .functionDefinition

end GimpleTree

/-- `fi` is the `FunctionInfo` of a definition. -/
def DeliversFunction (lo hi : Nat) (m : Memory ParserObject) (fi : Nat)
    (t : GimpleTree) : Prop :=
  ∃ location identifier list,
    m.Has lo hi fi (.functionInfo location identifier list) ∧
      m.Has lo hi identifier (.str t.functionName) ∧
        DeliversStatements lo hi list m t.statementNodes

theorem DeliversFunction.transport {lo hi lo' hi' : Nat} {m m' : Memory ParserObject}
    {fi : Nat} {t : GimpleTree} (h : DeliversFunction lo hi m fi t)
    (hhas : ∀ q o, m.Has lo hi q o → m'.Has lo' hi' q o) :
    DeliversFunction lo' hi' m' fi t := by
  obtain ⟨location, identifier, list, hinfo, hname, hlist⟩ := h
  exact ⟨location, identifier, list, hhas _ _ hinfo, hhas _ _ hname,
    hlist.transport hhas⟩

section action

variable {p : GimpleProduction} {ts : List GimpleTree} {ns : List ParseNode}
  {lo : Nat} {m : Memory ParserObject}

/-- What `new FunctionInfo` makes of the children. -/
theorem deliversFunction_new (text : String) (h : BeforeAction p ts ns lo m)
    (hself : p.lhs = .functionDefinition) {j k : Nat} {t₀ t : GimpleTree}
    {user₀ user : ParseNodeUser} {a₀ b₀ a b : Nat}
    (hname : DeliveredChild ts ns m j .identifier t₀ user₀ a₀ b₀)
    (hlist : DeliveredChild ts ns m k .statementList t user a b)
    (ha₀ : lo ≤ a₀) (hb₀ : b₀ ≤ m.allocated) (ha : lo ≤ a) (hb : b ≤ m.allocated)
    (hbefore : (p.rhs.take k).all GimpleTree.isQuiet = true)
    (hafter : (p.rhs.drop (k + 1)).all GimpleTree.isQuiet = true)
    (hfunction : GimpleTree.functionName (.node p text ts) = t₀.name)
    (location : Nat) :
    DeliversFunction lo (m.allocated + 1)
      (m.new (.functionInfo location (user₀.ptr .str) (user.ptr .statementList)))
      (m.allocated + 1) (.node p text ts) := by
  obtain ⟨-, hdeliver⟩ := deliversAs_functionInfo text h hself hlist ha hb hbefore
    hafter location (user₀.ptr .str)
  rw [hself] at hdeliver
  obtain ⟨location', identifier, list, hinfo, hstatements⟩ := hdeliver
  rw [ParseNodeUser.set_ptr_self] at hinfo
  have hobject := hinfo.object
  rw [Memory.new_object_self, Option.some.injEq, ParserObject.functionInfo.injEq]
    at hobject
  obtain ⟨rfl, rfl, rfl⟩ := hobject
  refine ⟨location, user₀.ptr .str, user.ptr .statementList, hinfo, ?_, hstatements⟩
  have hstr : m.Has a₀ b₀ (user₀.ptr .str) (.str t₀.name) := hname.deliver
  rw [hfunction]
  exact (hstr.frame (.new m _ hb₀)).mono ha₀ (Nat.le_succ_of_le hb₀)

/-- The action of a function definition. -/
theorem action_functionDefinition (text : String) (h : BeforeAction p ts ns lo m)
    (hself : p.lhs = .functionDefinition) :
    ∃ n m', gimpleGrammar.action p text ns m = .ok (n, m') ∧ Memory.Frame lo m m' ∧
      DeliversFunction lo m'.allocated m' (n.user.ptr .functionInfo)
        (.node p text ts) := by
  have hdone : ∀ {o : ParserObject},
      p.action ⟨ns, .zero, m⟩ = .ok ((), ⟨ns, ParseNodeUser.zero.set .functionInfo
        (m.allocated + 1), m.new o⟩) →
      DeliversFunction lo (m.allocated + 1) (m.new o) (m.allocated + 1)
        (.node p text ts) →
      ∃ n m', gimpleGrammar.action p text ns m = .ok (n, m') ∧ Memory.Frame lo m m' ∧
        DeliversFunction lo m'.allocated m' (n.user.ptr .functionInfo)
          (.node p text ts) := by
    intro o hrun hdeliver
    refine ⟨⟨text, ParseNodeUser.zero.set .functionInfo (m.allocated + 1)⟩, m.new o,
      ?_, .new m o h.le, ?_⟩
    · simp only [gimpleGrammar, StateT.run, hrun]
    · rw [ParseNodeUser.set_ptr_self]
      exact hdeliver
  cases p with
  | functionDefinitionC =>
      obtain ⟨t₀, user₀, a₀, b₀, hname, ha₀, hb₀⟩ :=
        h.child (k := 0) (s := .identifier) rfl
      obtain ⟨t₅, user₅, _, _, hlocation, -, -⟩ := h.child (k := 5) (s := .location) rfl
      obtain ⟨t, user, a, b, hlist, ha, hb⟩ := h.child (k := 9) (s := .statementList) rfl
      obtain ⟨l, hl⟩ := hlocation.deliver
      obtain ⟨qs, hqs, -⟩ := hlist.deliver
      have hstr : m.Has _ _ (user₀.ptr .str) (.str t₀.name) := hname.deliver
      refine hdone ?_ (deliversFunction_new text h rfl hname hlist ha₀ hb₀ ha hb rfl rfl
        ?_ (user₅.ptr .location))
      · rw [GimpleProduction.action, bind_run (a := ActionM.childPtr 0 .str) rfl,
          hname.node, bind_run (str_run (s := ⟨ns, .zero, m⟩) hstr.object),
          bind_run (a := ActionM.childPtr 5 .location) rfl, hlocation.node,
          bind_run (location_run (s := ⟨ns, .zero, m⟩) hl.object),
          bind_run (a := ActionM.childPtr 9 .statementList) rfl, hlist.node,
          bind_run (statements_run (s := ⟨ns, .zero, m⟩) hqs.object),
          ActionM.newFunctionInfo, bind_run (a := ActionM.childPtr 5 .location) rfl,
          hlocation.node, bind_run (a := ActionM.childPtr 0 .str) rfl, hname.node,
          bind_run (a := ActionM.childPtr 9 .statementList) rfl, hlist.node]
        rfl
      · rw [GimpleTree.functionName, hname.tree]
        rfl
  | functionDefinitionCpp =>
      obtain ⟨t₁, user₁, a₁, b₁, hname, ha₁, hb₁⟩ :=
        h.child (k := 1) (s := .identifier) rfl
      obtain ⟨t₉, user₉, _, _, hlocation, -, -⟩ := h.child (k := 9) (s := .location) rfl
      obtain ⟨t, user, a, b, hlist, ha, hb⟩ := h.child (k := 13) (s := .statementList) rfl
      obtain ⟨qs, hqs, -⟩ := hlist.deliver
      have hstr : m.Has _ _ (user₁.ptr .str) (.str t₁.name) := hname.deliver
      refine hdone ?_ (deliversFunction_new text h rfl hname hlist ha₁ hb₁ ha hb rfl rfl
        ?_ (user₉.ptr .location))
      · rw [GimpleProduction.action, bind_run (a := ActionM.childPtr 1 .str) rfl,
          hname.node, bind_run (str_run (s := ⟨ns, .zero, m⟩) hstr.object),
          bind_run (a := ActionM.childPtr 13 .statementList) rfl, hlist.node,
          bind_run (statements_run (s := ⟨ns, .zero, m⟩) hqs.object),
          ActionM.newFunctionInfo, bind_run (a := ActionM.childPtr 9 .location) rfl,
          hlocation.node, bind_run (a := ActionM.childPtr 1 .str) rfl, hname.node,
          bind_run (a := ActionM.childPtr 13 .statementList) rfl, hlist.node]
        rfl
      · rw [GimpleTree.functionName, hname.tree]
        rfl
  | _ => exact absurd hself (by decide)

end action

/-- The actions of a function definition go through, and deliver. -/
theorem GimpleTree.IsFunctionDefinition.run_eq_ok {t : GimpleTree}
    (ht : t.IsFunctionDefinition) (m : Memory ParserObject) :
    ∃ n m', gimpleGrammar.run t m = .ok (n, m') ∧ Memory.Frame m.allocated m m' ∧
      DeliversFunction m.allocated m'.allocated m' (n.user.ptr .functionInfo) t := by
  obtain ⟨hder, hsymbol⟩ := ht
  cases t with
  | token s text =>
      have hs : s = .functionDefinition := hsymbol
      subst hs
      exact absurd (show GimpleSymbol.isToken .functionDefinition = true from hder)
        (by decide)
  | node p text ts =>
      obtain ⟨-, hsymbols, hts⟩ := derives_node hder
      obtain ⟨ns, m₁, hrun, hframe, hall⟩ := sound_gimpleGrammar.runAll_eq_ok ts m hts
      obtain ⟨n, m₂, haction, hframe', hdeliver⟩ :=
        action_functionDefinition text ⟨hsymbols, derives_of_mem hts, hall⟩ hsymbol
      refine ⟨n, m₂, ?_, hframe.trans hframe', hdeliver⟩
      rw [Grammar.run, hrun]
      exact haction

/-! ## What a file delivers -/

/-- `fi` is what the parser has delivered for a definition in the file `path`. -/
structure DescribedBy (fi : FunctionInfo) (d : String × GimpleTree) : Prop where
  path : fi.definitionFilePath = d.1
  identifier : fi.identifier = d.2.functionName
  statements : List.Forall₂ (fun st node => GimpleTree.Means node st) fi.statements
    d.2.statementNodes

/-- The statements that are pointed to are read. -/
theorem exists_readStatements {lo hi : Nat} {m : Memory ParserObject} {l : List Nat}
    {nodes : List GimpleTree}
    (h : List.Forall₂ (fun q node => DeliversStatement lo hi q m node) l nodes) :
    ∃ sts, l.mapM (readStatement m) = some sts ∧
      List.Forall₂ (fun st node => GimpleTree.Means node st) (sts.map Prod.fst)
        nodes := by
  induction h with
  | nil => exact ⟨[], rfl, .nil⟩
  | cons hhead _ ih =>
      obtain ⟨st, location, hst, hmeans⟩ := hhead
      obtain ⟨sts, hrun, hall⟩ := ih
      refine ⟨(st, location) :: sts, ?_, .cons hmeans hall⟩
      rw [List.mapM_cons, readStatement, hst.object, hrun]
      rfl

theorem DeliversFunction.exists_read {lo hi : Nat} {m : Memory ParserObject} {q : Nat}
    {t : GimpleTree} (h : DeliversFunction lo hi m q t) (path : String) :
    ∃ fi, readFunctionInfo m path q = some fi ∧ DescribedBy fi (path, t) := by
  obtain ⟨location, identifier, list, hinfo, hname, l, hl, -, hall⟩ := h
  obtain ⟨sts, hread, hmeans⟩ := exists_readStatements hall
  refine ⟨⟨path, t.functionName, sts⟩, ?_, rfl, rfl, hmeans⟩
  simp only [readFunctionInfo, hinfo.object, hname.object, hl.object, hread,
    Option.map_some]

/-- The actions of a file go through, and deliver a `FunctionInfo` for every
definition. -/
theorem FunctionDefinitionList.run_eq_ok (ts : FunctionDefinitionList)
    (hts : ∀ t ∈ ts.definitions, t.IsFunctionDefinition) (m : Memory ParserObject) :
    ∃ l m', ts.run m = .ok (l, m') ∧ Memory.Frame m.allocated m m' ∧
      List.Forall₂ (fun q t => DeliversFunction m.allocated m'.allocated m' q t) l
        ts.definitions := by
  induction ts with
  | one t =>
      obtain ⟨n, m', hrun, hframe, hdeliver⟩ :=
        (hts t (List.mem_singleton_self t)).run_eq_ok m
      refine ⟨_, m', ?_, hframe, .cons hdeliver .nil⟩
      rw [run, hrun]
      rfl
  | more ts t ih =>
      obtain ⟨l, m₁, hrun, hframe, hall⟩ :=
        ih fun t' ht' => hts t' (List.mem_append_left _ ht')
      obtain ⟨n, m₂, hrun', hframe', hdeliver⟩ :=
        (hts t (List.mem_append_right _ (List.mem_singleton_self t))).run_eq_ok m₁
      have hold : List.Forall₂
          (fun q t => DeliversFunction m.allocated m₂.allocated m₂ q t) l
            ts.definitions :=
        hall.imp fun _ _ h => h.transport fun _ _ hq =>
          (hq.frame hframe').mono (Nat.le_refl _) hframe'.allocated_le
      refine ⟨l ++ [n.user.ptr .functionInfo], m₂, ?_,
        hframe.trans (hframe'.mono hframe.allocated_le), ?_⟩
      · rw [run, hrun]
        show (gimpleGrammar.run t m₁ >>= _) = _
        rw [hrun']
        rfl
      · exact List.rel_append hold (.cons (hdeliver.transport fun _ _ hq =>
          hq.mono hframe.allocated_le (Nat.le_refl _)) .nil)

/-- The functions of a file are built from its `FunctionInfo`s. -/
theorem exists_buildFunctions {lo hi : Nat} {m : Memory ParserObject} {l : List Nat}
    {ts : List GimpleTree}
    (h : List.Forall₂ (fun q t => DeliversFunction lo hi m q t) l ts) (path : String) :
    ∃ fis, List.Forall₂ DescribedBy fis (ts.map fun t => (path, t)) ∧
      ∀ orders p, TranslationUnit.buildFunctions orders path m l p =
        fis.foldlM (Program.buildFunction orders) p := by
  induction h with
  | nil => exact ⟨[], .nil, fun _ _ => rfl⟩
  | cons hhead _ ih =>
      obtain ⟨fi, hread, hdescribed⟩ := hhead.exists_read path
      obtain ⟨fis, hall, hrun⟩ := ih
      refine ⟨fi :: fis, .cons hdescribed hall, fun orders p => ?_⟩
      rw [TranslationUnit.buildFunctions, List.foldlM_cons, List.foldlM_cons, hread]
      exact congrArg _ (funext fun p' => hrun orders p')

/-! ## All files -/

/-- The function definitions of all files, in the order in which they are
parsed. -/
def definitionsOf (units : List (String × GimpleFile)) : List (String × GimpleTree) :=
  units.flatMap fun u => u.2.definitions.map fun t => (u.1, t)

/-- Up to the first file that is not read. -/
theorem exists_firstFailure (units : List (String × GimpleFile)) :
    (∀ u ∈ units, u.2.failure = none) ∨
      ∃ pre u post outcome, units = pre ++ u :: post ∧
        (∀ v ∈ pre, v.2.failure = none) ∧ u.2.failure = some outcome := by
  induction units with
  | nil => exact .inl fun u hu => absurd hu List.not_mem_nil
  | cons u units ih =>
      cases hu : u.2.failure with
      | some outcome =>
          exact .inr ⟨[], u, units, outcome, rfl,
            fun v hv => absurd hv List.not_mem_nil, hu⟩
      | none =>
          rcases ih with hall | ⟨pre, v, post, outcome, rfl, hpre, hv⟩
          · exact .inl (List.forall_mem_cons.mpr ⟨hu, hall⟩)
          · exact .inr ⟨u :: pre, v, post, outcome, rfl,
              List.forall_mem_cons.mpr ⟨hu, hpre⟩, hv⟩

/-- `Program::Parse` builds the functions of the files that are read, and goes on
with the others. -/
theorem exists_parseUnits (units : List (String × GimpleFile))
    (hread : ∀ u ∈ units, u.2.failure = none)
    (h : ∀ d ∈ definitionsOf units, d.2.IsFunctionDefinition)
    (m : Memory ParserObject) :
    ∃ fis m', List.Forall₂ DescribedBy fis (definitionsOf units) ∧
      ∀ orders post p, Program.parseUnits orders (units ++ post) m p =
        (fis.foldlM (Program.buildFunction orders) p >>= fun p =>
          Program.parseUnits orders post m' p) := by
  induction units generalizing m with
  | nil => exact ⟨[], m, .nil, fun _ _ _ => rfl⟩
  | cons u units ih =>
      obtain ⟨path, file⟩ := u
      have hrest : ∀ d ∈ definitionsOf units, d.2.IsFunctionDefinition := fun d hd =>
        h d (List.mem_append_right _ hd)
      have hreadRest : ∀ u ∈ units, u.2.failure = none := fun u hu =>
        hread u (List.mem_cons_of_mem _ hu)
      cases file with
      | notCompiled =>
          exact absurd (hread _ List.mem_cons_self) (by simp [GimpleFile.failure])
      | notOpened =>
          exact absurd (hread _ List.mem_cons_self) (by simp [GimpleFile.failure])
      | syntaxErrors => exact ih hreadRest hrest m
      | parsed ts =>
          have hts : ∀ t ∈ ts.definitions, t.IsFunctionDefinition := fun t ht =>
            h (path, t) (List.mem_append_left _ (List.mem_map_of_mem ht))
          obtain ⟨l, m₁, hrun, -, hdeliver⟩ := ts.run_eq_ok hts m
          obtain ⟨fis, hfis, hbuild⟩ := exists_buildFunctions hdeliver path
          obtain ⟨fis', m', hfis', hunits⟩ := ih hreadRest hrest m₁
          refine ⟨fis ++ fis', m', List.rel_append hfis hfis', fun orders post p => ?_⟩
          rw [List.cons_append, Program.parseUnits, TranslationUnit.parseFile]
          simp only [hrun, hbuild]
          rw [List.foldlM_append]
          cases hfirst : fis.foldlM (Program.buildFunction orders) p with
          | error err => rfl
          | ok p' => exact hunits orders post p'

/-- At a file that is not read `Program::Parse` ends. -/
theorem parseUnits_of_failure (orders : PassOrders) {u : String × GimpleFile}
    {outcome : ParseEnd} (hu : u.2.failure = some outcome)
    (post : List (String × GimpleFile)) (m : Memory ParserObject) (p : Program) :
    Program.parseUnits orders (u :: post) m p = .ok (outcome, p) := by
  obtain ⟨path, file⟩ := u
  cases file with
  | notCompiled =>
      obtain rfl := Option.some.inj hu
      rfl
  | notOpened =>
      obtain rfl := Option.some.inj hu
      rfl
  | syntaxErrors => exact absurd hu (by simp [GimpleFile.failure])
  | parsed ts => exact absurd hu (by simp [GimpleFile.failure])

/-! ## What a tree must have -/

namespace GimpleTree

variable {node : GimpleTree} {st : Statement}

/-- Every label that the statements of the function go to is defined in it. -/
def LabelsItsJumps (t : GimpleTree) : Prop :=
  ∀ node ∈ t.statementNodes, ∀ target ∈ node.linkTargets,
    ∃ node' ∈ t.statementNodes, node'.kinds = [.label] ∧ node'.labels = [target]

/-- A switch with a single case. -/
def IsNarrowSwitch (node : GimpleTree) : Prop :=
  node.kinds = [.switch] ∧ ∃ target, node.linkTargets = [target]

theorem Means.isParsed (h : node.Means st) : st.isParsed = true := by
  cases st <;> first | rfl | exact h.elim

theorem Means.linkTargets_subset (h : node.Means st) :
    st.linkTargets ⊆ node.linkTargets := by
  cases st with
  | gotoUnlinked _ | ifUnlinked _ _ _ | switchUnlinked _ =>
      rw [h.2]
      exact List.Subset.refl _
  | _ => exact List.nil_subset _

theorem Means.eq_label (h : node.Means st) {name : String}
    (hkind : node.kinds = [.label]) (hlabel : node.labels = [name]) :
    st = .label name := by
  cases st with
  | label identifier =>
      have hname := hlabel.symm.trans h.2
      rw [List.cons.inj hname |>.1]
  | gotoUnlinked _ | ifUnlinked _ _ _ | switchUnlinked _ | returnUnlinked _
  | functionCallUnresolved _ _ => exact absurd (h.1.symm.trans hkind) (by simp)
  | placeholder | noOp => exact absurd (h.symm.trans hkind) (by simp)
  | _ => exact h.elim

theorem Means.isNarrowSwitch (h : node.Means st) (hway : st.hasOneWayOut = true) :
    node.IsNarrowSwitch := by
  cases st with
  | switchUnlinked caseList =>
      cases caseList with
      | nil => exact absurd hway Bool.false_ne_true
      | cons name rest =>
          cases rest with
          | nil => exact ⟨h.1, name, h.2⟩
          | cons _ _ => exact absurd hway Bool.false_ne_true
  | ifStatement _ | switchStatement => exact h.elim
  | _ => exact absurd hway Bool.false_ne_true

end GimpleTree

namespace DescribedBy

variable {fi : FunctionInfo} {d : String × GimpleTree} (h : DescribedBy fi d)

include h

theorem exists_node {st : Statement} (hst : st ∈ fi.statements) :
    ∃ node ∈ d.2.statementNodes, node.Means st := by
  obtain ⟨i, hi, rfl⟩ := List.getElem_of_mem hst
  have hlength := h.statements.length_eq
  exact ⟨_, List.getElem_mem (hlength ▸ hi), h.statements.get hi (hlength ▸ hi)⟩

theorem exists_statement {node : GimpleTree} (hnode : node ∈ d.2.statementNodes) :
    ∃ st ∈ fi.statements, node.Means st := by
  obtain ⟨i, hi, rfl⟩ := List.getElem_of_mem hnode
  have hlength := h.statements.length_eq
  exact ⟨_, List.getElem_mem (hlength ▸ hi), h.statements.get (hlength ▸ hi) hi⟩

theorem isParsed : ∀ st ∈ fi.statementList, st.1.isParsed = true := by
  intro st hst
  obtain ⟨node, -, hmeans⟩ := h.exists_node (List.mem_map_of_mem hst)
  exact hmeans.isParsed

theorem labelsDefined (hlabels : d.2.LabelsItsJumps) :
    LabelsDefined fi.statements := by
  intro st hst name hname
  obtain ⟨node, hnode, hmeans⟩ := h.exists_node hst
  obtain ⟨node', hnode', hkind, hlabel⟩ :=
    hlabels node hnode name (hmeans.linkTargets_subset hname)
  obtain ⟨st', hst', hmeans'⟩ := h.exists_statement hnode'
  rw [← hmeans'.eq_label hkind hlabel]
  exact hst'

end DescribedBy

/-- What holds of the definitions holds of the `FunctionInfo`s. -/
theorem exists_definition {fis : List FunctionInfo} {ds : List (String × GimpleTree)}
    (h : List.Forall₂ DescribedBy fis ds) {fi : FunctionInfo} (hfi : fi ∈ fis) :
    ∃ d ∈ ds, DescribedBy fi d := by
  obtain ⟨i, hi, rfl⟩ := List.getElem_of_mem hfi
  have hlength := h.length_eq
  exact ⟨_, List.getElem_mem (hlength ▸ hi), h.get hi (hlength ▸ hi)⟩

/-- The functions of files that are read are built, or the first ones are, and the
next one has a switch with a single case and is where it goes wrong. -/
theorem exists_built {units : List (String × GimpleFile)}
    (hread : ∀ u ∈ units, u.2.failure = none)
    (htrees : ∀ d ∈ definitionsOf units,
      d.2.IsFunctionDefinition ∧ d.2.LabelsItsJumps)
    (m : Memory ParserObject) (memory : VertexPtr → Vertex) (orders : PassOrders) :
    (∃ fis built m', List.Forall₂ DescribedBy fis (definitionsOf units) ∧
        Program.build memory orders fis = .ok built ∧ built.Invariant memory ∧
        ∀ post, Program.parseUnits orders (units ++ post) m (.initial memory) =
          Program.parseUnits orders post m' built) ∨
      ∃ ds d ds' fis fi q k, definitionsOf units = ds ++ d :: ds' ∧
        List.Forall₂ DescribedBy fis ds ∧ DescribedBy fi d ∧
        Program.build memory orders fis = .ok q ∧
        Program.buildFunction orders q fi = .error ⟨.endDereference, k⟩ ∧
        (∀ post, Program.parseUnits orders (units ++ post) m (.initial memory) =
          .error ⟨.endDereference, k⟩) ∧
        ∃ node ∈ d.2.statementNodes, node.IsNarrowSwitch := by
  obtain ⟨fis, m', hfis, hrun⟩ :=
    exists_parseUnits units hread (fun d hd => (htrees d hd).1) m
  have hparsed : ∀ fi ∈ fis, ∀ st ∈ fi.statementList, st.1.isParsed = true := by
    intro fi hfi
    obtain ⟨d, -, hd⟩ := exists_definition hfis hfi
    exact hd.isParsed
  have hdefined : ∀ fi ∈ fis, LabelsDefined fi.statements := by
    intro fi hfi
    obtain ⟨d, hmem, hd⟩ := exists_definition hfis hfi
    exact hd.labelsDefined (htrees d hmem).2
  rcases Program.build_cases hparsed hdefined memory orders with
    ⟨built, hbuild, hbuilt⟩ |
      ⟨pre, fi, post, q, k, rfl, hpre, herr, hbuild, st, hst, hway⟩
  · left
    refine ⟨fis, built, m', hfis, hbuild, hbuilt, fun post => ?_⟩
    rw [hrun, show fis.foldlM (Program.buildFunction orders) (.initial memory) =
      .ok built from hbuild]
    rfl
  · right
    have htake := List.forall₂_take pre.length hfis
    have hdrop := List.forall₂_drop pre.length hfis
    rw [List.take_left] at htake
    rw [List.drop_left] at hdrop
    cases hds : (definitionsOf units).drop pre.length with
    | nil =>
        rw [hds] at hdrop
        exact absurd hdrop.length_eq (by simp)
    | cons d ds' =>
        rw [hds, List.forall₂_cons] at hdrop
        obtain ⟨hd, -⟩ := hdrop
        obtain ⟨node, hnode, hmeans⟩ := hd.exists_node hst
        refine ⟨_, d, ds', pre, fi, q, k, ?_, htake, hd, hpre, herr, fun post => ?_,
          node, hnode, hmeans.isNarrowSwitch hway⟩
        · rw [← hds, List.take_append_drop]
        · rw [hrun]
          show (Program.build memory orders _ >>= _) = _
          rw [hbuild]
          rfl

/-- `Parse` goes through all files and links a program with the statements of the
parse trees; or it ends with the first file that cannot be compiled or opened, after
it has built the functions of the files before; or it goes wrong at the first function
that cannot be built, which has a switch with a single case. -/
theorem parseUnits_cases (units : List (String × GimpleFile))
    (htrees : ∀ d ∈ definitionsOf units,
      d.2.IsFunctionDefinition ∧ d.2.LabelsItsJumps)
    (m : Memory ParserObject) (memory : VertexPtr → Vertex) (orders : PassOrders) :
    ((∀ u ∈ units, u.2.failure = none) ∧
        ∃ fis p, List.Forall₂ DescribedBy fis (definitionsOf units) ∧
          Program.parseUnits orders units m (.initial memory) =
            .ok (.returned true, p) ∧ LinkedFrom fis p) ∨
      (∃ pre u post outcome fis p, units = pre ++ u :: post ∧
        (∀ v ∈ pre, v.2.failure = none) ∧ u.2.failure = some outcome ∧
        List.Forall₂ DescribedBy fis (definitionsOf pre) ∧
        Program.build memory orders fis = .ok p ∧
        Program.parseUnits orders units m (.initial memory) = .ok (outcome, p)) ∨
      ∃ ds d ds' fis fi q k, definitionsOf units = ds ++ d :: ds' ∧
        List.Forall₂ DescribedBy fis ds ∧ DescribedBy fi d ∧
        Program.build memory orders fis = .ok q ∧
        Program.buildFunction orders q fi = .error ⟨.endDereference, k⟩ ∧
        Program.parseUnits orders units m (.initial memory) =
          .error ⟨.endDereference, k⟩ ∧
        ∃ node ∈ d.2.statementNodes, node.IsNarrowSwitch := by
  rcases exists_firstFailure units with hread | ⟨pre, u, post, outcome, rfl, hread, hu⟩
  · rcases exists_built hread htrees m memory orders with
      ⟨fis, built, m', hfis, hbuild, hbuilt, hunits⟩ |
        ⟨ds, d, ds', fis, fi, q, k, hds, hfis, hd, hpre, herr, hunits, hnarrow⟩
    · left
      obtain ⟨p, hlink, -⟩ := hbuilt.linkFunctions orders fun _ hf => hf
      have hparse : Program.parse memory orders fis = .ok p := by
        rw [Program.parse, hbuild]
        exact hlink
      have hparsed : ∀ fi ∈ fis, ∀ st ∈ fi.statementList, st.1.isParsed = true := by
        intro fi hfi
        obtain ⟨d, -, hd⟩ := exists_definition hfis hfi
        exact hd.isParsed
      have hrun := hunits []
      rw [List.append_nil] at hrun
      refine ⟨hread, fis, p, hfis, hrun.trans ?_, linkedFrom_of_parse hparsed hparse⟩
      show (built.functions.foldlM (Program.linkFunction orders) built >>= _) = _
      rw [hlink]
      rfl
    · have hrun := hunits []
      rw [List.append_nil] at hrun
      exact .inr (.inr ⟨ds, d, ds', fis, fi, q, k, hds, hfis, hd, hpre, herr, hrun,
        hnarrow⟩)
  · have hdefs : definitionsOf (pre ++ u :: post) =
        definitionsOf pre ++ definitionsOf (u :: post) := List.flatMap_append
    rcases exists_built hread
        (fun d hd => htrees d (hdefs ▸ List.mem_append_left _ hd)) m memory orders with
      ⟨fis, built, m', hfis, hbuild, -, hunits⟩ |
        ⟨ds, d, ds', fis, fi, q, k, hds, hfis, hd, hpre, herr, hunits, hnarrow⟩
    · exact .inr (.inl ⟨pre, u, post, outcome, fis, built, rfl, hread, hu, hfis, hbuild,
        (hunits _).trans (parseUnits_of_failure orders hu post m' built)⟩)
    · refine .inr (.inr ⟨ds, d, ds' ++ definitionsOf (u :: post), fis, fi, q, k, ?_, hfis,
        hd, hpre, herr, hunits _, hnarrow⟩)
      rw [hdefs, hds, List.append_assoc, List.cons_append]

/-- `spin () { <D.1>: goto <D.1>; }`. -/
def spinDefinition : GimpleTree :=
  let quoted (text : String) : GimpleTree := .token (.literal text) text
  let newline : GimpleTree := .token .newline "\n"
  let location : GimpleTree := .node .locationNothing "" []
  let target : GimpleTree := .node .syntheticLabelId ""
    [quoted "<", .node .identifierSsa "" [.token .pattern "D.1"], quoted ">"]
  let label : GimpleTree := .node .statementLabel ""
    [.node .labelSynthetic "" [location, target, quoted ":"], .token .optSemicolon ""]
  let goto : GimpleTree := .node .statementOneLine ""
    [.node .oneLineGoto "" [.node .gotoSynthetic "" [location, quoted "goto", target]],
      quoted ";", .token .postLineText ""]
  .node .functionDefinitionC ""
    [.node .identifier "spin" [.token .pattern "spin"], quoted "(",
      .node .paramDeclsListNothing "" [], quoted ")", newline, location, quoted "\x7b",
      newline, .node .optDeclarationListNewlineNothing "" [],
      .node .statementListStatement ""
        [.node .statementListOneStatement "" [label, newline], goto, newline],
      quoted "\x7d"]

/-- The second file has syntax errors, and the program is linked without it. -/
theorem parseUnits_cases_spinDefinition :
    ∃ fis p, List.Forall₂ DescribedBy fis [("a.c", spinDefinition)] ∧
      Program.parseUnits .ascending [("a.c", .parsed (.one spinDefinition)),
        ("b.c", .syntaxErrors)] .empty (.initial blankMemory) =
          .ok (.returned true, p) ∧
        LinkedFrom fis p := by
  have htree : spinDefinition.IsFunctionDefinition ∧ spinDefinition.LabelsItsJumps := by
    refine ⟨⟨by decide +kernel, rfl⟩, ?_⟩
    unfold GimpleTree.LabelsItsJumps
    decide +kernel
  have hwide : ∀ node ∈ spinDefinition.statementNodes, node.kinds ≠ [.switch] := by
    decide +kernel
  have hread : ∀ u ∈ [("a.c", GimpleFile.parsed (.one spinDefinition)),
      ("b.c", .syntaxErrors)], u.2.failure = none := by
    intro u hu
    rcases List.mem_pair.mp hu with rfl | rfl
    all_goals rfl
  rcases parseUnits_cases
      [("a.c", .parsed (.one spinDefinition)), ("b.c", .syntaxErrors)]
      (fun d hd => by rw [List.mem_singleton.mp hd]; exact htree) .empty blankMemory
      .ascending with ⟨-, hlinked⟩ |
        ⟨pre, u, post, outcome, _, _, hunits, -, hu, -⟩ |
        ⟨ds, d, ds', _, _, _, _, hds, -, -, -, -, -, node, hnode, hway⟩
  · exact hlinked
  · rw [hread u (hunits ▸ List.mem_append_right _ List.mem_cons_self)] at hu
    exact absurd hu (by simp)
  · have hd : d ∈ definitionsOf [("a.c", .parsed (.one spinDefinition)),
        ("b.c", .syntaxErrors)] := by
      rw [hds]
      exact List.mem_append_right _ List.mem_cons_self
    rw [List.mem_singleton.mp hd] at hnode
    exact absurd hway.1 (hwide node hnode)

end CoFlo.Ports
