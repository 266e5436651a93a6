import CoFlo.Ports.GimpleActions

/-!
# The actions of the productions

One lemma for the productions of each symbol: the action goes through, and delivers what
the symbol does.  Together they make the actions sound, so that they keep the statements
of every `function_definition` (`statementList_of_functionDefinition`).
-/

namespace CoFlo.Ports

open CoFlo.Verified.SyntaxActions CoFlo.Verified.SyntaxActions.Grammar

section node

variable {text : String} {ts : List GimpleTree} {ns : List ParseNode} {lo : Nat}
  {m : Memory ParserObject}

/-! ## Names and parameters -/

/-- Integers, declarations and expressions deliver nothing. -/
theorem Completes.nothing {p : GimpleProduction} (h : BeforeAction p ts ns lo m)
    (hself : p.lhs.result = .nothing) : Completes p text ts ns lo m := by
  cases p with
  | nestedLhsVar | nestedRhsVar | nestedRhsConstant =>
      exact .make h.le .location rfl fun _ => trivial
  | _ =>
      first
        | exact .of_run rfl (.refl lo m) trivial
        | exact absurd hself (by decide)

theorem Completes.varId {p : GimpleProduction} (h : BeforeAction p ts ns lo m)
    (hself : p.lhs = .varId) : Completes p text ts ns lo m := by
  cases p with
  | varIdSsa =>
      apply Completes.pass h (k := 0) rfl rfl
      intro t a b user _ hdeliver
      exact ⟨t.name, by rw [ParseNodeUser.set_ptr_self]; exact hdeliver⟩
  | varIdIdentifier =>
      apply Completes.pass h (k := 0) rfl rfl
      intro t a b user _ hdeliver
      exact ⟨t.name, by rw [ParseNodeUser.set_ptr_self]; exact hdeliver⟩
  | varIdRetval =>
      apply Completes.make h.le .str rfl
      intro hhas
      exact ⟨_, by rwa [ParseNodeUser.set_ptr_self]⟩
  | _ => exact absurd hself (by decide)

/-- There is no identifier in a terminal in quotes. -/
theorem collect_findName_literal {t : GimpleTree} {s : String}
    (hsymbol : gimpleGrammar.symbol t = .literal s) : t.collect GimpleTree.findName = [] := by
  cases t with
  | token s' text =>
      obtain rfl : s' = .literal s := hsymbol
      rfl
  | node p text ts =>
      have hlhs : p.lhs = .literal s := hsymbol
      revert hlhs
      cases p <;> exact fun hcon => GimpleSymbol.noConfusion hcon

theorem name_syntheticLabelId (h : BeforeAction .syntheticLabelId ts ns lo m)
    {t : GimpleTree} (ht : ts[1]? = some t) (hsymbol : gimpleGrammar.symbol t = .identifierSsa) :
    GimpleTree.name (.node .syntheticLabelId text ts) = "<" ++ t.name ++ ">" := by
  have hlength : ts.length = 3 := by
    have := congrArg List.length h.symbols
    rwa [List.length_map] at this
  obtain ⟨t₀, t₁, t₂, rfl⟩ := List.length_eq_three.mp hlength
  obtain rfl : t₁ = t := by simpa using ht
  have hsymbols := h.symbols
  simp only [List.map_cons, GimpleProduction.rhs, List.cons.injEq] at hsymbols
  have hself : gimpleGrammar.symbol
      (ParseTree.node .syntheticLabelId text [t₀, t₁, t₂] : GimpleTree) =
        .syntheticLabelId := rfl
  have hchild : gimpleGrammar.symbol t₁ ≠ .syntheticLabelId := by
    rw [hsymbol]
    decide
  have hnode : GimpleTree.findName (.node .syntheticLabelId text [t₀, t₁, t₂]) = none := rfl
  have hcollect : (ParseTree.node .syntheticLabelId text [t₀, t₁, t₂]).collect
      GimpleTree.findName = t₁.collect GimpleTree.findName := by
    rw [ParseTree.collect_node hnode, List.flatMap_cons, List.flatMap_cons, List.flatMap_cons,
      collect_findName_literal hsymbols.1, collect_findName_literal hsymbols.2.2.1,
      List.flatMap_nil, List.nil_append, List.append_nil, List.append_nil]
  rw [GimpleTree.name, if_pos hself, hcollect, GimpleTree.name, if_neg hchild]

theorem Completes.syntheticLabelId (h : BeforeAction .syntheticLabelId ts ns lo m) :
    Completes .syntheticLabelId text ts ns lo m := by
  obtain ⟨t, user, _, _, hchild, -, -⟩ := h.child (k := 1) (s := .identifierSsa) rfl
  have hstr : m.object ((ActionState.child ⟨ns, .zero, m⟩ 1).user.ptr .str) =
      some (.str t.name) := by
    rw [hchild.node]
    exact Memory.Has.object hchild.deliver
  have hrun : ∃ children, GimpleProduction.syntheticLabelId.action ⟨ns, .zero, m⟩ =
      .ok ((), ⟨children, ParseNodeUser.zero.set .str (m.allocated + 1),
        m.new (.str ("<" ++ t.name ++ ">"))⟩) := by
    rw [GimpleProduction.action, bind_run (a := ActionM.childPtr 1 .str) rfl,
      bind_run (str_run hstr)]
    exact ⟨_, rfl⟩
  obtain ⟨children, hrun⟩ := hrun
  apply Completes.make h.le .str hrun
  intro hhas
  show Memory.Has _ _ _ _ _
  rw [name_syntheticLabelId h hchild.tree hchild.symbol, ParseNodeUser.set_ptr_self]
  exact hhas

theorem pushBack_run {q st : Nat} {s : ActionState} {l : List Nat}
    (h : s.memory.object q = some (.statementList l)) :
    ActionM.pushBack q st s = .ok ((), { s with
      memory := s.memory.write q (.statementList (l ++ [st])) }) := by
  rw [ActionM.pushBack, h]

/-- Adds to the list of the first child, and passes it on. -/
theorem DeliveredChild.push_run {s : GimpleSymbol} {t : GimpleTree} {user : ParseNodeUser}
    {a b : Nat} (hchild : DeliveredChild ts ns m 0 s t user a b) {l : List Nat}
    (hl : m.object (user.ptr .statementList) = some (.statementList l)) (st : Nat) :
    ∃ children, (do
        ActionM.pushBack (user.ptr .statementList) st
        ActionM.propagatePtr 0 .statementList : ActionM Unit) ⟨ns, .zero, m⟩ =
      .ok ((), ⟨children, ParseNodeUser.zero.set .statementList (user.ptr .statementList),
        m.write (user.ptr .statementList) (.statementList (l ++ [st]))⟩) := by
  rw [bind_run (pushBack_run hl)]
  obtain ⟨children, hpropagate⟩ := propagatePtr_run 0 .statementList
    ⟨ns, .zero, m.write (user.ptr .statementList) (.statementList (l ++ [st]))⟩
  rw [hchild.node] at hpropagate
  exact ⟨children, hpropagate⟩

theorem Completes.paramDeclsList {p : GimpleProduction} (h : BeforeAction p ts ns lo m)
    (hself : p.lhs = .paramDeclsList) : Completes p text ts ns lo m := by
  cases p with
  | paramDeclsListMore =>
      obtain ⟨t, user, a, b, hchild, ha, hb⟩ := h.child (k := 0) (s := .paramDeclsList) rfl
      obtain ⟨l, hl⟩ := hchild.deliver
      obtain ⟨children, hrun⟩ := hchild.push_run hl.object null
      apply Completes.of_run
      · rw [GimpleProduction.action, bind_run (a := ActionM.childPtr 0 .statementList) rfl,
          hchild.node]
        exact hrun
      · exact .write m _ (Nat.lt_of_le_of_lt ha hl.lt)
      · refine ⟨l ++ [null], ?_⟩
        rw [ParseNodeUser.set_ptr_self]
        exact (hl.write_self _).mono ha hb
  | paramDeclsListOne =>
      apply Completes.make h.le .statementList rfl
      intro hhas
      exact ⟨_, by rwa [ParseNodeUser.set_ptr_self]⟩
  | paramDeclsListNothing =>
      apply Completes.make h.le .statementList rfl
      intro hhas
      exact ⟨_, by rwa [ParseNodeUser.set_ptr_self]⟩
  | _ => exact absurd hself (by decide)

/-! ## Statement lists -/

theorem DeliversStatement.write {hi q r : Nat} {t : GimpleTree} {l : List Nat}
    (h : DeliversStatement lo hi q m t) (hl : m.object r = some (.statementList l))
    (o : ParserObject) : DeliversStatement lo hi q (m.write r o) t := by
  obtain ⟨st, loc, hst, hmeans⟩ := h
  exact ⟨st, loc, hst.write_of_object_ne hl ParserObject.noConfusion o, hmeans⟩

theorem DeliversStatement.bounds {hi q : Nat} {t : GimpleTree}
    (h : DeliversStatement lo hi q m t) : lo < q ∧ q ≤ hi := by
  obtain ⟨st, loc, hst, -⟩ := h
  exact ⟨hst.lt, hst.le⟩

/-- Statements that were made later, at the end of a list. -/
theorem DeliversStatements.append {hi lo' hi' r : Nat} {nodes nodes' : List GimpleTree}
    {l qs : List Nat} (hlist : m.Has lo hi r (.statementList l))
    (hsorted : l.Pairwise (· < ·))
    (hall : List.Forall₂ (fun q node => DeliversStatement lo hi q m node) l nodes)
    (hlo : lo ≤ hi) (hlater : hi ≤ lo') (hhi : lo' ≤ hi') (hsorted' : qs.Pairwise (· < ·))
    (hall' : List.Forall₂ (fun q node => DeliversStatement lo' hi' q m node) qs nodes') :
    DeliversStatements lo hi' r (m.write r (.statementList (l ++ qs))) (nodes ++ nodes') := by
  have hbefore : ∀ q ∈ l, q ≤ hi :=
    ((List.forall₂_and_left l nodes).mp (hall.imp fun _ _ hq => ⟨hq.bounds.2, hq⟩)).1
  have hafter : ∀ q ∈ qs, lo' < q :=
    ((List.forall₂_and_left qs nodes').mp (hall'.imp fun _ _ hq => ⟨hq.bounds.1, hq⟩)).1
  refine ⟨l ++ qs, (hlist.write_self _).mono (Nat.le_refl _) (by omega), ?_, ?_⟩
  · rw [List.pairwise_append]
    refine ⟨hsorted, hsorted', fun q hq q' hq' => ?_⟩
    have := hbefore q hq
    have := hafter q' hq'
    omega
  · apply List.rel_append
    · exact hall.imp fun q node hq => (hq.transport fun r' o hr' =>
        hr'.mono (Nat.le_refl _) (by omega)).write hlist.object _
    · exact hall'.imp fun q node hq => (hq.transport fun r' o hr' =>
        hr'.mono (by omega) (Nat.le_refl _)).write hlist.object _

theorem statementNodes_statement {t : GimpleTree}
    (hsymbol : gimpleGrammar.symbol t = .statement) : t.statementNodes = [t] :=
  ParseTree.collect_of_eq_some (if_pos hsymbol)

theorem Completes.statementListStatement (h : BeforeAction .statementListStatement ts ns lo m) :
    Completes .statementListStatement text ts ns lo m := by
  obtain ⟨t, user, a, b, t', user', a', b', hlist, hst, ha, hb, hb'⟩ :=
    h.children (j := 0) (k := 0) (s := .statementList) (r := .statement) rfl rfl
  obtain ⟨l, hl, hsorted, hall⟩ := hlist.deliver
  have hnodes : GimpleTree.statementNodes (.node .statementListStatement text ts) =
      t.statementNodes ++ [t'] := by
    rw [← statementNodes_statement hst.symbol]
    exact h.collect_children GimpleTree.quiet_findStatement hlist.tree hst.tree rfl rfl rfl rfl
  obtain ⟨children, hrun⟩ := hlist.push_run hl.object (user'.ptr .statement)
  apply Completes.of_run
  · rw [GimpleProduction.action, bind_run (a := ActionM.childPtr 0 .statementList) rfl,
      bind_run (a := ActionM.childPtr 1 .statement) rfl, hlist.node, hst.node]
    exact hrun
  · exact .write m _ (Nat.lt_of_le_of_lt ha hl.lt)
  · show DeliversStatements _ _ _ _ _
    rw [hnodes, ParseNodeUser.set_ptr_self]
    have hnew : DeliversStatements a b' _ _ (t.statementNodes ++ [t']) :=
      .append hl hsorted hall hlist.le hb hst.le (List.pairwise_singleton _ _)
        (.cons hst.deliver .nil)
    exact hnew.transport fun q o hq => hq.mono ha hb'

theorem Completes.statementListOneStatement
    (h : BeforeAction .statementListOneStatement ts ns lo m) :
    Completes .statementListOneStatement text ts ns lo m := by
  obtain ⟨t, user, a, b, hst, ha, hb⟩ := h.child (k := 0) (s := .statement) rfl
  have hnodes : GimpleTree.statementNodes (.node .statementListOneStatement text ts) = [t] := by
    rw [← statementNodes_statement hst.symbol]
    exact h.collect_child GimpleTree.quiet_findStatement hst.tree rfl rfl rfl
  have hnew := Memory.Has.new m (.statementList []) h.le
  have hdeliver : DeliversStatement lo (m.allocated + 1) (user.ptr .statement)
      (m.new (.statementList [])) t :=
    DeliversStatement.transport hst.deliver fun q o hq =>
      (hq.frame (.new m _ hb)).mono ha (by omega)
  have hwrite : Memory.Frame lo (m.new (.statementList []))
      ((m.new (.statementList [])).write (m.allocated + 1)
        (.statementList [user.ptr .statement])) := .write _ _ hnew.lt
  apply Completes.of_run (s := ⟨ns, ParseNodeUser.zero.set .statementList (m.allocated + 1),
    (m.new (.statementList [])).write (m.allocated + 1)
      (.statementList [user.ptr .statement])⟩)
  · rw [GimpleProduction.action, bind_run (a := ActionM.new (.statementList [])) rfl,
      bind_run (a := ActionM.setSelf .statementList (m.allocated + 1)) rfl,
      bind_run (a := ActionM.childPtr 0 .statement) rfl, hst.node]
    exact pushBack_run (l := [])
      (s := ⟨ns, ParseNodeUser.zero.set .statementList (m.allocated + 1), m.new _⟩) hnew.object
  · exact (Memory.Frame.new m _ h.le).trans hwrite
  · show DeliversStatements _ _ _ _ _
    rw [hnodes, ParseNodeUser.set_ptr_self]
    exact ⟨_, hnew.write_self _, List.pairwise_singleton _ _,
      .cons (hdeliver.write hnew.object _) .nil⟩

/-- The elements of a list at the end of another. -/
theorem forM_pushBack_run {r : Nat} {n : ParseNode} (hr : n.user.ptr .statementList = r)
    (hn : ∀ self memory, ActionState.child ⟨ns, self, memory⟩ 0 = n) (qs : List Nat)
    {l : List Nat} {self : ParseNodeUser} {m : Memory ParserObject}
    (hl : m.object r = some (.statementList l)) :
    (qs.forM fun st => do ActionM.pushBack (← ActionM.childPtr 0 .statementList) st :
        ActionM Unit) ⟨ns, self, m⟩ =
      .ok ((), ⟨ns, self, m.write r (.statementList (l ++ qs))⟩) := by
  induction qs generalizing l m with
  | nil =>
      rw [List.append_nil, Memory.write_eq_self hl]
      rfl
  | cons q qs ih =>
      have hpush : (do ActionM.pushBack (← ActionM.childPtr 0 .statementList) q :
          ActionM Unit) ⟨ns, self, m⟩ =
            .ok ((), ⟨ns, self, m.write r (.statementList (l ++ [q]))⟩) := by
        rw [bind_run (a := ActionM.childPtr 0 .statementList) rfl, hn, hr]
        exact pushBack_run hl
      rw [List.forM, bind_run hpush, ih (Memory.write_object_self ..),
        Memory.write_write, List.append_assoc]
      rfl

theorem Completes.statementListScope (h : BeforeAction .statementListScope ts ns lo m) :
    Completes .statementListScope text ts ns lo m := by
  obtain ⟨t, user, a, b, t', user', a', b', hlist, hscope, ha, hb, hb'⟩ :=
    h.children (j := 0) (k := 0) (s := .statementList) (r := .scope) rfl rfl
  obtain ⟨l, hl, hsorted, hall⟩ := hlist.deliver
  obtain ⟨l', hl', hsorted', hall'⟩ := hscope.deliver
  have hnodes : GimpleTree.statementNodes (.node .statementListScope text ts) =
      t.statementNodes ++ t'.statementNodes :=
    h.collect_children GimpleTree.quiet_findStatement hlist.tree hscope.tree rfl rfl rfl rfl
  obtain ⟨children, hpropagate⟩ := propagatePtr_run 0 .statementList
    ⟨ns, .zero, m.write (user.ptr .statementList) (.statementList (l ++ l'))⟩
  rw [hlist.node] at hpropagate
  apply Completes.of_run
  · rw [GimpleProduction.action, bind_run (a := ActionM.childPtr 1 .statementList) rfl,
      hscope.node, bind_run (statements_run hl'.object),
      bind_run (forM_pushBack_run rfl hlist.node l' hl.object)]
    exact hpropagate
  · exact .write m _ (Nat.lt_of_le_of_lt ha hl.lt)
  · show DeliversStatements _ _ _ _ _
    rw [hnodes, ParseNodeUser.set_ptr_self]
    have hnew : DeliversStatements a b' _ _ (t.statementNodes ++ t'.statementNodes) :=
      .append hl hsorted hall hlist.le hb hscope.le hsorted' hall'
    exact hnew.transport fun q o hq => hq.mono ha hb'

theorem Completes.statementListNothing (h : BeforeAction .statementListNothing ts ns lo m) :
    Completes .statementListNothing text ts ns lo m := by
  have hts : ts = [] := List.map_eq_nil_iff.mp h.symbols
  subst hts
  apply Completes.make h.le .statementList rfl
  intro hhas
  exact ⟨[], by rwa [ParseNodeUser.set_ptr_self], .nil, .nil⟩

/-! ## Jumps, labels and calls -/

theorem Completes.goto {p : GimpleProduction} (h : BeforeAction p ts ns lo m)
    (hself : p.lhs = .gotoStatement) : Completes p text ts ns lo m := by
  cases p with
  | gotoSynthetic =>
      obtain ⟨t, l, ht, hsymbol, hrun⟩ := newStatement_named_run h (k := 2)
        (s := .syntheticLabelId) (f := .gotoUnlinked) rfl rfl rfl rfl
      apply Completes.makeStatement h.le hrun rfl
      refine ⟨ParseTree.collect_of_eq_some rfl, ?_⟩
      calc GimpleTree.linkTargets (.node .gotoSynthetic text ts)
          = t.linkTargets :=
            h.collect_child GimpleTree.quiet_findLinkTarget ht rfl rfl rfl
        _ = [t.name] := linkTargets_syntheticLabelId (h.derives t (List.mem_of_getElem? ht)) hsymbol
  | gotoIdentifier =>
      obtain ⟨t, l, ht, hsymbol, hrun⟩ := newStatement_named_run h (k := 2)
        (s := .identifier) (f := .gotoUnlinked) rfl rfl rfl rfl
      apply Completes.makeStatement h.le hrun rfl
      refine ⟨ParseTree.collect_of_eq_some rfl, ?_⟩
      have hfilter : ts.filter (gimpleGrammar.symbol · = .identifier) = [t] :=
        filter_symbol_child (G := gimpleGrammar) (p := .gotoIdentifier) h.symbols ht
          (q := (· = .identifier)) (by rw [hsymbol]; rfl) rfl rfl
      apply ParseTree.collect_of_eq_some
      rw [GimpleTree.findLinkTarget, if_neg (by decide), if_pos rfl, hfilter]
      rfl
  | _ => exact absurd hself (by decide)

/-- Symbols that name a label. -/
def namesLabel (s : GimpleSymbol) : Bool := s = .identifier ∨ s = .syntheticLabelId

/-- Symbols that name a function. -/
def namesFunction (s : GimpleSymbol) : Bool := s = .identifier ∨ s = .identifierSsa

/-- A label statement has one child that names a label, which is behind the location. -/
theorem Completes.labelNamed {p : GimpleProduction} (h : BeforeAction p ts ns lo m)
    {s : GimpleSymbol} (hself : p.lhs = .labelStatement)
    (hlocation : p.rhs[0]? = some .location) (hs : p.rhs[1]? = some s)
    (hname : namesLabel s = true) (hbefore : (p.rhs.take 1).all (!namesLabel ·) = true)
    (hafter : (p.rhs.drop 2).all (!namesLabel ·) = true)
    (hkind : GimpleTree.kindOf p = some .label)
    (haction : p.action = do
      ActionM.newStatement (.label (← ActionM.str (← ActionM.childPtr 1 .str)))) :
    Completes p text ts ns lo m := by
  have hresult : s.result = .name := by
    rcases of_decide_eq_true hname with rfl | rfl <;> rfl
  obtain ⟨t, l, ht, hsymbol, hrun⟩ :=
    newStatement_named_run h (f := .label) hlocation hs hresult haction
  apply Completes.makeStatement h.le hrun
  · rw [hself]
    rfl
  constructor
  · apply ParseTree.collect_of_eq_some
    rw [GimpleTree.findKind, hkind]
    rfl
  · have hfilter : ts.filter (fun t => namesLabel (gimpleGrammar.symbol t)) = [t] := by
      apply filter_symbol_child (G := gimpleGrammar) (p := p) h.symbols ht _ hbefore hafter
      rw [hsymbol]
      exact hname
    apply ParseTree.collect_of_eq_some
    rw [GimpleTree.findLabel, if_pos hself]
    show some ((ts.filter fun t => namesLabel (gimpleGrammar.symbol t)).map _) = _
    rw [hfilter]
    rfl

theorem Completes.label {p : GimpleProduction} (h : BeforeAction p ts ns lo m)
    (hself : p.lhs = .labelStatement) : Completes p text ts ns lo m := by
  cases p with
  | labelSynthetic => exact .labelNamed h (s := .syntheticLabelId) rfl rfl rfl rfl rfl rfl rfl rfl
  | labelIdentifier => exact .labelNamed h (s := .identifier) rfl rfl rfl rfl rfl rfl rfl rfl
  | _ => exact absurd hself (by decide)

theorem Completes.callNamed {p : GimpleProduction} (h : BeforeAction p ts ns lo m)
    {s : GimpleSymbol} (hself : p.lhs = .functionCall)
    (hlocation : p.rhs[0]? = some .location) (hs : p.rhs[1]? = some s)
    (hname : namesFunction s = true) (hbefore : (p.rhs.take 1).all (!namesFunction ·) = true)
    (hafter : (p.rhs.drop 2).all (!namesFunction ·) = true)
    (hkind : GimpleTree.kindOf p = some .call)
    (haction : p.action = do
      let identifier ← ActionM.childText 1
      let params ← ActionM.childText 3
      ActionM.newStatement (.functionCallUnresolved identifier params)) :
    Completes p text ts ns lo m := by
  obtain ⟨_, _, _, _, hchild₀, -, -⟩ := h.child hlocation
  obtain ⟨l, hl⟩ := hchild₀.deliver
  obtain ⟨t, user, _, _, hchild, -, -⟩ := h.child hs
  have hrun : p.action ⟨ns, .zero, m⟩ = .ok ((), ⟨ns,
      ParseNodeUser.zero.set .statement (m.allocated + 1),
      m.new (.statement (.functionCallUnresolved t.text
        (ActionState.child ⟨ns, .zero, m⟩ 3).text) l)⟩) := by
    rw [haction, bind_run (a := ActionM.childText 1) rfl,
      bind_run (a := ActionM.childText 3) rfl, hchild.node, newStatement_run]
    rw [hchild₀.node]
    exact hl.object
  apply Completes.makeStatement h.le hrun
  · rw [hself]
    rfl
  constructor
  · apply ParseTree.collect_of_eq_some
    rw [GimpleTree.findKind, hkind]
    rfl
  · have hfilter : ts.filter (fun t => namesFunction (gimpleGrammar.symbol t)) = [t] := by
      apply filter_symbol_child (G := gimpleGrammar) (p := p) h.symbols hchild.tree _
        hbefore hafter
      rw [hchild.symbol]
      exact hname
    apply ParseTree.collect_of_eq_some
    rw [GimpleTree.findCalled, if_pos hself]
    show some ((ts.filter fun t => namesFunction (gimpleGrammar.symbol t)).map _) = _
    rw [hfilter]
    rfl

theorem Completes.call {p : GimpleProduction} (h : BeforeAction p ts ns lo m)
    (hself : p.lhs = .functionCall) : Completes p text ts ns lo m := by
  cases p with
  | callIdentifier => exact .callNamed h (s := .identifier) rfl rfl rfl rfl rfl rfl rfl rfl
  | callSsa => exact .callNamed h (s := .identifierSsa) rfl rfl rfl rfl rfl rfl rfl rfl
  | _ => exact absurd hself (by decide)

/-! ## `return` and assignments -/

theorem linkTargets_of_quiet {p : GimpleProduction} (h : BeforeAction p ts ns lo m)
    (hnone : GimpleTree.findLinkTarget (.node p text ts) = none)
    (hquiet : p.rhs.all GimpleTree.isQuiet = true) :
    GimpleTree.linkTargets (.node p text ts) = [] := by
  rw [← h.symbols] at hquiet
  exact (ParseTree.collect_node hnone).trans
    (GimpleTree.quiet_findLinkTarget.flatMap_collect_eq_nil h.derives hquiet)

theorem Completes.return {p : GimpleProduction} (h : BeforeAction p ts ns lo m)
    (hself : p.lhs = .returnStatement) : Completes p text ts ns lo m := by
  cases p with
  | returnVar =>
      obtain ⟨_, _, _, _, hchild₀, -, -⟩ := h.child (k := 0) (s := .location) rfl
      obtain ⟨l, hl⟩ := hchild₀.deliver
      obtain ⟨t, user, _, _, hchild, -, -⟩ := h.child (k := 2) (s := .varId) rfl
      obtain ⟨x, hx⟩ := hchild.deliver
      have hrun : GimpleProduction.returnVar.action ⟨ns, .zero, m⟩ = .ok ((), ⟨ns,
          ParseNodeUser.zero.set .statement (m.allocated + 1),
          m.new (.statement (.returnUnlinked x) l)⟩) := by
        rw [GimpleProduction.action, bind_run (a := ActionM.childPtr 2 .str) rfl, hchild.node,
          bind_run (str_run hx.object), newStatement_run]
        rw [hchild₀.node]
        exact hl.object
      apply Completes.makeStatement h.le hrun rfl
      exact ⟨ParseTree.collect_of_eq_some rfl, linkTargets_of_quiet h rfl rfl⟩
  | returnNothing =>
      obtain ⟨_, _, _, _, hchild₀, -, -⟩ := h.child (k := 0) (s := .location) rfl
      obtain ⟨l, hl⟩ := hchild₀.deliver
      have hrun : GimpleProduction.returnNothing.action ⟨ns, .zero, m⟩ = .ok ((), ⟨ns,
          ParseNodeUser.zero.set .statement (m.allocated + 1),
          m.new (.statement (.returnUnlinked "") l)⟩) := by
        rw [GimpleProduction.action, newStatement_run]
        rw [hchild₀.node]
        exact hl.object
      apply Completes.makeStatement h.le hrun rfl
      exact ⟨ParseTree.collect_of_eq_some rfl, linkTargets_of_quiet h rfl rfl⟩
  | _ => exact absurd hself (by decide)

/-- An assignment gets its location after it was made. -/
theorem Completes.assignment (h : BeforeAction .assignment ts ns lo m) :
    Completes .assignment text ts ns lo m := by
  obtain ⟨_, _, _, _, hchild₀, -, -⟩ := h.child (k := 0) (s := .realLocation) rfl
  obtain ⟨l, hl⟩ := hchild₀.deliver
  obtain ⟨t, user, a, b, hchild, ha, hb⟩ :=
    h.child (k := 1) (s := .assignmentStatementInternals) rfl
  obtain ⟨st, l', hst, hmeans⟩ := hchild.deliver
  have hset : ActionM.setLocation (user.ptr .statement) l ⟨ns, .zero, m⟩ =
      .ok ((), ⟨ns, .zero, m.write (user.ptr .statement) (.statement st l)⟩) := by
    rw [ActionM.setLocation, hst.object]
  obtain ⟨children, hpropagate⟩ := propagatePtr_run 1 .statement
    ⟨ns, .zero, m.write (user.ptr .statement) (.statement st l)⟩
  rw [hchild.node] at hpropagate
  apply Completes.of_run
  · rw [GimpleProduction.action, bind_run (a := ActionM.childPtr 1 .statement) rfl,
      bind_run (a := ActionM.childPtr 0 .location) rfl, hchild₀.node, hchild.node,
      bind_run (location_run hl.object), bind_run hset]
    exact hpropagate
  · exact .write m _ (Nat.lt_of_le_of_lt ha hst.lt)
  · refine ⟨st, l, ?_, means_of_passesOn h hchild.tree rfl hmeans⟩
    rw [ParseNodeUser.set_ptr_self]
    exact (hst.write_self _).mono ha hb

/-- An assignment without a call. -/
theorem Completes.placeholder {p : GimpleProduction} (h : BeforeAction p ts ns lo m)
    (hself : p.lhs = .assignmentStatementInternals)
    (hkind : GimpleTree.kindOf p = some .assignment)
    (haction : p.action = do
      ActionM.setSelf .statement (← ActionM.new (.statement .placeholder .unknown))) :
    Completes p text ts ns lo m := by
  have hrun : p.action ⟨ns, .zero, m⟩ = .ok ((), ⟨ns,
      ParseNodeUser.zero.set .statement (m.allocated + 1),
      m.new (.statement .placeholder .unknown)⟩) := by
    rw [haction]
    rfl
  apply Completes.makeStatement h.le hrun
  · rw [hself]
    rfl
  · apply ParseTree.collect_of_eq_some
    rw [GimpleTree.findKind, hkind]
    rfl

theorem Completes.assignmentInternals {p : GimpleProduction} (h : BeforeAction p ts ns lo m)
    (hself : p.lhs = .assignmentStatementInternals) : Completes p text ts ns lo m := by
  cases p with
  | assignCall => exact .passStatement h (k := 2) rfl rfl rfl rfl rfl
  | assignBitwise | assignCastExpression | assignComplement | assignMinus
  | assignArithmetic | assignCast | assignMinOrMax | assignBitField | assignCondition
  | assignNested => exact .placeholder h rfl rfl rfl
  | _ => exact absurd hself (by decide)

/-! ## `if` and `switch` -/

/-- A `goto` statement is a `GotoUnlinked`. -/
theorem goto_of_means {t : GimpleTree}
    (ht : gimpleGrammar.derives usesAngleBrackets t = true)
    (hsymbol : gimpleGrammar.symbol t = .gotoStatement) {st : Statement}
    (hmeans : GimpleTree.Means t st) :
    ∃ target, st = .gotoUnlinked target ∧ t.linkTargets = [target] := by
  have hkinds : t.kinds = [.goto] := by
    obtain ⟨p, text, ts, rfl⟩ := exists_node ht (by rw [hsymbol]; rfl)
    have hlhs : p.lhs = .gotoStatement := hsymbol
    apply ParseTree.collect_of_eq_some
    have hkind : GimpleTree.kindOf p = some .goto := by
      revert hlhs
      cases p <;> decide
    rw [GimpleTree.findKind, hkind]
    rfl
  cases st with
  | gotoUnlinked target => exact ⟨target, rfl, hmeans.2⟩
  | placeholder | noOp =>
      have hother : t.kinds = _ := hmeans
      rw [hkinds] at hother
      exact absurd hother (by decide)
  | ifUnlinked | switchUnlinked | returnUnlinked | functionCallUnresolved | label =>
      have hother : t.kinds = _ := hmeans.1
      rw [hkinds] at hother
      exact absurd hother (by decide)
  | _ => exact hmeans.elim

theorem BeforeAction.goto {p : GimpleProduction} (h : BeforeAction p ts ns lo m) {k : Nat}
    {t : GimpleTree} {user : ParseNodeUser} {a b : Nat}
    (hchild : DeliveredChild ts ns m k .gotoStatement t user a b) :
    ∃ target l, m.Has a b (user.ptr .statement) (.statement (.gotoUnlinked target) l) ∧
      t.linkTargets = [target] := by
  obtain ⟨st, l, hst, hmeans⟩ := hchild.deliver
  obtain ⟨target, rfl, htarget⟩ :=
    goto_of_means (h.derives t (List.mem_of_getElem? hchild.tree)) hchild.symbol hmeans
  exact ⟨target, l, hst, htarget⟩

theorem gotoTarget_run {q : Nat} {s : ActionState} {target : String} {l : Location}
    (h : s.memory.object q = some (.statement (.gotoUnlinked target) l)) :
    ActionM.gotoTarget q s = .ok (target, s) := by
  rw [ActionM.gotoTarget, h]

theorem Completes.ifGotos (h : BeforeAction .ifGotos ts ns lo m) :
    Completes .ifGotos text ts ns lo m := by
  obtain ⟨_, _, a₀, b₀, hchild₀, -, hb₀⟩ := h.child (k := 0) (s := .location) rfl
  obtain ⟨l, hl⟩ := hchild₀.deliver
  obtain ⟨t, user, a, b, t', user', a', b', htrue, hfalse, -, hb, hb'⟩ :=
    h.children (j := 5) (k := 2) (s := .gotoStatement) (r := .gotoStatement) rfl rfl
  obtain ⟨ifTrue, l₁, hst, htarget⟩ := h.goto htrue
  obtain ⟨ifFalse, l₂, hst', htarget'⟩ := h.goto hfalse
  -- the string of the condition is made before the statement, and read from there
  let condition := (ActionState.child ⟨ns, .zero, m⟩ 3).text
  let m' := m.new (.str condition)
  have hframe : Memory.Frame m.allocated m m' := .new m _ (Nat.le_refl _)
  have hle : user.ptr .statement ≤ m.allocated := by
    have := hst.le
    have := hfalse.le
    omega
  have hstr : m'.object (m.allocated + 1) = some (.str condition) := Memory.new_object_self ..
  have hnew : ActionM.newStatement (.ifUnlinked condition ifTrue ifFalse)
      ⟨ns, ParseNodeUser.zero.set .str (m.allocated + 1), m'⟩ = .ok ((), ⟨ns,
        (ParseNodeUser.zero.set .str (m.allocated + 1)).set .statement (m'.allocated + 1),
        m'.new (.statement (.ifUnlinked condition ifTrue ifFalse) l)⟩) := by
    apply newStatement_run
    rw [hchild₀.node]
    exact (hl.frame (hframe.mono hb₀)).object
  apply Completes.of_run
  · rw [GimpleProduction.action, bind_run (a := ActionM.childText 3) rfl,
      bind_run (a := ActionM.new (.str condition)) rfl,
      bind_run (a := ActionM.setSelf .str (m.allocated + 1)) rfl,
      bind_run (a := ActionM.childPtr 5 .statement) rfl, htrue.node,
      bind_run (gotoTarget_run ((hframe.object_eq _ hle).trans hst.object)),
      bind_run (a := ActionM.childPtr 8 .statement) rfl, hfalse.node,
      bind_run (gotoTarget_run ((hframe.object_eq _ (hst'.le.trans hb')).trans hst'.object)),
      bind_run (str_run hstr)]
    exact hnew
  · exact (Memory.Frame.new m _ h.le).trans (.new m' _ (h.le.trans (Nat.le_succ _)))
  · refine ⟨.ifUnlinked condition ifTrue ifFalse, l, ?_, ParseTree.collect_of_eq_some rfl, ?_⟩
    · rw [ParseNodeUser.set_ptr_self]
      exact .new m' _ (h.le.trans (Nat.le_succ _))
    · calc GimpleTree.linkTargets (.node .ifGotos text ts)
          = t.linkTargets ++ t'.linkTargets :=
            h.collect_children GimpleTree.quiet_findLinkTarget htrue.tree hfalse.tree
              rfl rfl rfl rfl
        _ = [ifTrue, ifFalse] := by rw [htarget, htarget', List.singleton_append]

theorem DeliversCase.write {hi q r : Nat} {target : String} {o : ParserObject}
    (h : DeliversCase lo hi q m target) (ho : m.object r = some o)
    (hne : ∀ l, ParserObject.statement (.caseUnlinked target) l ≠ o) (o' : ParserObject) :
    DeliversCase lo hi q (m.write r o') target := by
  obtain ⟨l, hl⟩ := h
  exact ⟨l, hl.write_of_object_ne ho (hne l) o'⟩

theorem caseTarget_run {q : Nat} {s : ActionState} {target : String} {l : Location}
    (h : s.memory.object q = some (.statement (.caseUnlinked target) l)) :
    ActionM.caseTarget q s = .ok (target, s) := by
  rw [ActionM.caseTarget, h]

theorem insertCase_run {q : Nat} {s : ActionState} {targets : List String} {l : Location}
    (h : s.memory.object q = some (.statement (.switchUnlinked targets) l))
    (target : String) :
    ActionM.insertCase q target s = .ok ((), { s with
      memory := s.memory.write q (.statement (.switchUnlinked (targets ++ [target])) l) }) := by
  rw [ActionM.insertCase, h]

/-- The cases are inserted one after the other. -/
theorem forM_insertCase_run {children : List ParseNode} {self : ParseNodeUser}
    {st hi : Nat} {l : Location} {qs : List Nat} {targets : List String}
    (hcases : List.Forall₂ (fun q target => DeliversCase lo hi q m target) qs targets)
    {before : List String} (hst : m.object st = some (.statement (.switchUnlinked before) l)) :
    (qs.forM fun c => do ActionM.insertCase st (← ActionM.caseTarget c) : ActionM Unit)
        ⟨children, self, m⟩ =
      .ok ((), ⟨children, self,
        m.write st (.statement (.switchUnlinked (before ++ targets)) l)⟩) := by
  induction qs generalizing m targets before with
  | nil =>
      obtain rfl := List.forall₂_nil_left_iff.mp hcases
      rw [List.append_nil, Memory.write_eq_self hst]
      rfl
  | cons q qs ih =>
      obtain ⟨target, targets, ⟨loc, hq⟩, hrest, rfl⟩ := List.forall₂_cons_left_iff.mp hcases
      have hkept : ∀ o, List.Forall₂ (fun q target => DeliversCase lo hi q (m.write st o) target)
          qs targets :=
        fun o => hrest.imp fun _ _ hq => hq.write hst (by simp) o
      have hinsert : (do ActionM.insertCase st (← ActionM.caseTarget q) : ActionM Unit)
          ⟨children, self, m⟩ = .ok ((), ⟨children, self,
            m.write st (.statement (.switchUnlinked (before ++ [target])) l)⟩) := by
        rw [bind_run (caseTarget_run (s := ⟨children, self, m⟩) hq.object)]
        exact insertCase_run (s := ⟨children, self, m⟩) hst target
      rw [List.forM, bind_run hinsert, ih (hkept _) (Memory.write_object_self ..),
        Memory.write_write, List.append_assoc]
      rfl

theorem Completes.switch (h : BeforeAction .switch ts ns lo m) :
    Completes .switch text ts ns lo m := by
  obtain ⟨_, user₀, a₀, b₀, hchild₀, -, -⟩ := h.child (k := 0) (s := .location) rfl
  obtain ⟨l, hl⟩ := hchild₀.deliver
  obtain ⟨t, user, a, b, hchild, -, hb⟩ := h.child (k := 5) (s := .switchCaseList) rfl
  obtain ⟨qs, hqs, hcases⟩ := hchild.deliver
  let m' := m.new (.statement (.switchUnlinked []) l)
  have hframe : Memory.Frame b m m' := .new m _ hb
  have hst : m'.Has lo (m.allocated + 1) (m.allocated + 1)
      (.statement (.switchUnlinked []) l) := .new m _ h.le
  have hcases' : List.Forall₂ (fun q target => DeliversCase a b q m' target) qs
      t.linkTargets :=
    hcases.imp fun _ _ hq => hq.transport fun _ _ ho => ho.frame hframe
  let children := ns.modify 0 fun n => { n with user := n.user.set .location null }
  let self := ParseNodeUser.zero.set .statement (m.allocated + 1)
  have hcleared : ActionState.child ⟨children, self, m'⟩ 5 = ⟨t.text, user⟩ := by
    rw [← hchild.node self m', ActionState.child, ActionState.child,
      List.getD_eq_getElem?_getD, List.getD_eq_getElem?_getD, List.getElem?_modify]
    simp
  apply Completes.of_run
  · rw [GimpleProduction.action, bind_run (a := ActionM.childPtr 0 .location) rfl,
      hchild₀.node, bind_run (location_run hl.object),
      bind_run (a := ActionM.new (.statement (.switchUnlinked []) l)) rfl,
      bind_run (a := ActionM.setSelf .statement (m.allocated + 1)) rfl,
      bind_run (a := ActionM.clearChild 0 .location) rfl,
      bind_run (a := ActionM.childPtr 5 .statementList) rfl, hcleared,
      bind_run (statements_run (s := ⟨children, self, m'⟩) (hqs.frame hframe).object)]
    exact forM_insertCase_run hcases' hst.object
  · exact (Memory.Frame.new m _ h.le).trans (.write m' _ hst.lt)
  · refine ⟨.switchUnlinked t.linkTargets, l, ?_, ParseTree.collect_of_eq_some rfl, ?_⟩
    · rw [ParseNodeUser.set_ptr_self]
      exact hst.write_self _
    · exact h.collect_child GimpleTree.quiet_findLinkTarget hchild.tree rfl rfl rfl

/-- A case goes to the label of one child. -/
theorem Completes.caseNamed {p : GimpleProduction} (h : BeforeAction p ts ns lo m) {k : Nat}
    (hself : p.lhs = .case453) (hlocation : p.rhs[0]? = some .location)
    (hs : p.rhs[k]? = some .syntheticLabelId)
    (hbefore : (p.rhs.take k).all GimpleTree.isQuiet = true)
    (hafter : (p.rhs.drop (k + 1)).all GimpleTree.isQuiet = true)
    (hnone : GimpleTree.findLinkTarget (.node p text ts) = none)
    (haction : p.action = do
      ActionM.newStatement (.caseUnlinked (← ActionM.str (← ActionM.childPtr k .str)))) :
    Completes p text ts ns lo m := by
  obtain ⟨t, l, ht, hsymbol, hrun⟩ :=
    newStatement_named_run h (f := .caseUnlinked) hlocation hs rfl haction
  apply Completes.make h.le .statement hrun
  intro hhas
  rw [hself]
  refine ⟨t.name, ?_, l, ?_⟩
  · calc GimpleTree.linkTargets (.node p text ts)
        = t.linkTargets :=
          h.collect_child GimpleTree.quiet_findLinkTarget ht hnone hbefore hafter
      _ = [t.name] :=
          linkTargets_syntheticLabelId (h.derives t (List.mem_of_getElem? ht)) hsymbol
  · rwa [ParseNodeUser.set_ptr_self]

theorem Completes.case {p : GimpleProduction} (h : BeforeAction p ts ns lo m)
    (hself : p.lhs = .case453) : Completes p text ts ns lo m := by
  cases p with
  | case453Case => exact .caseNamed h (k := 4) rfl rfl rfl rfl rfl rfl rfl
  | case453Default => exact .caseNamed h (k := 2) rfl rfl rfl rfl rfl rfl rfl
  | _ => exact absurd hself (by decide)

theorem DeliversCases.push {hi r q : Nat} {target : String} {targets : List String}
    {l : List Nat} (hl : m.Has lo hi r (.statementList l))
    (hcases : List.Forall₂ (fun q target => DeliversCase lo hi q m target) l targets)
    (hcase : DeliversCase lo hi q m target) :
    DeliversCases lo hi r (m.write r (.statementList (l ++ [q]))) (targets ++ [target]) := by
  refine ⟨_, hl.write_self _, List.rel_append ?_ (.cons ?_ .nil)⟩
  · exact hcases.imp fun _ _ hq => hq.write hl.object (fun _ => ParserObject.noConfusion) _
  · exact hcase.write hl.object (fun _ => ParserObject.noConfusion) _

theorem Completes.caseList {p : GimpleProduction} (h : BeforeAction p ts ns lo m)
    (hself : p.lhs = .switchCaseList453) : Completes p text ts ns lo m := by
  cases p with
  | caseList453More =>
      obtain ⟨t, user, a, b, t', user', a', b', hlist, hcase, ha, hb, hb'⟩ :=
        h.children (j := 0) (k := 1) (s := .switchCaseList453) (r := .case453) rfl rfl
      obtain ⟨l, hl, hcases⟩ := hlist.deliver
      obtain ⟨target, htarget, hq⟩ := hcase.deliver
      have hlinks : GimpleTree.linkTargets (.node .caseList453More text ts) =
          t.linkTargets ++ [target] := by
        rw [← htarget]
        exact h.collect_children GimpleTree.quiet_findLinkTarget hlist.tree hcase.tree
          rfl rfl rfl rfl
      have hle := hlist.le
      have hle' := hcase.le
      obtain ⟨children, hrun⟩ := hlist.push_run hl.object (user'.ptr .statement)
      apply Completes.of_run
      · rw [GimpleProduction.action, bind_run (a := ActionM.childPtr 0 .statementList) rfl,
          bind_run (a := ActionM.childPtr 2 .statement) rfl, hlist.node, hcase.node]
        exact hrun
      · exact .write m _ (Nat.lt_of_le_of_lt ha hl.lt)
      · show DeliversCases _ _ _ _ _
        rw [hlinks, ParseNodeUser.set_ptr_self]
        have hnew : DeliversCases a b' (user.ptr .statementList)
            (m.write (user.ptr .statementList)
              (.statementList (l ++ [user'.ptr .statement]))) (t.linkTargets ++ [target]) := by
          apply DeliversCases.push (hl.mono (Nat.le_refl _) (by omega))
          · exact hcases.imp fun _ _ hq => hq.transport fun _ _ ho =>
              ho.mono (Nat.le_refl _) (by omega)
          · exact hq.transport fun _ _ ho => ho.mono (by omega) (Nat.le_refl _)
        exact hnew.transport fun q o hq => hq.mono ha hb'
  | caseList453One =>
      obtain ⟨t, user, a, b, hcase, ha, hb⟩ := h.child (k := 0) (s := .case453) rfl
      obtain ⟨target, htarget, hq⟩ := hcase.deliver
      have hlinks : GimpleTree.linkTargets (.node .caseList453One text ts) = [] ++ [target] := by
        rw [List.nil_append, ← htarget]
        exact h.collect_child GimpleTree.quiet_findLinkTarget hcase.tree rfl rfl rfl
      have hnew := Memory.Has.new m (.statementList []) h.le
      apply Completes.of_run (s := ⟨ns, ParseNodeUser.zero.set .statementList (m.allocated + 1),
        (m.new (.statementList [])).write (m.allocated + 1)
          (.statementList [user.ptr .statement])⟩)
      · rw [GimpleProduction.action, bind_run (a := ActionM.new (.statementList [])) rfl,
          bind_run (a := ActionM.setSelf .statementList (m.allocated + 1)) rfl,
          bind_run (a := ActionM.childPtr 0 .statement) rfl, hcase.node]
        exact pushBack_run (l := [])
          (s := ⟨ns, ParseNodeUser.zero.set .statementList (m.allocated + 1), m.new _⟩)
          hnew.object
      · exact (Memory.Frame.new m _ h.le).trans (.write _ _ hnew.lt)
      · show DeliversCases _ _ _ _ _
        rw [hlinks, ParseNodeUser.set_ptr_self]
        exact .push hnew .nil (hq.transport fun _ _ ho =>
          (ho.frame (.new m _ hb)).mono ha (by omega))
  | _ => exact absurd hself (by decide)

theorem Completes.caseListAngleBrackets (h : BeforeAction .caseListAngleBrackets ts ns lo m) :
    Completes .caseListAngleBrackets text ts ns lo m := by
  apply Completes.pass h (k := 1) (s := .switchCaseList453) rfl rfl
  intro t a b user ht hdeliver
  have hlinks : GimpleTree.linkTargets (.node .caseListAngleBrackets text ts) = t.linkTargets :=
    h.collect_child GimpleTree.quiet_findLinkTarget ht rfl rfl rfl
  show DeliversCases _ _ _ _ _
  rw [hlinks, ParseNodeUser.set_ptr_self]
  exact hdeliver

/-! ## Statements, scopes and functions -/

theorem Completes.comment (h : BeforeAction .statementComment ts ns lo m) :
    Completes .statementComment text ts ns lo m := by
  have hrun : GimpleProduction.statementComment.action ⟨ns, .zero, m⟩ = .ok ((), ⟨ns,
      ParseNodeUser.zero.set .statement (m.allocated + 1),
      m.new (.statement .noOp .unknown)⟩) := rfl
  exact .makeStatement h.le hrun rfl (ParseTree.collect_of_eq_some rfl)

/-- The statement of a symbol that has one is that of its child. -/
theorem Completes.statement {p : GimpleProduction} (h : BeforeAction p ts ns lo m)
    (hself : p.lhs = .statement ∨ p.lhs = .statementOneLine ∨
      p.lhs = .statementPossiblySplitAcrossLines) : Completes p text ts ns lo m := by
  cases p with
  | statementComment => exact .comment h
  | statementOneLine | statementSplit | statementLabel | oneLineAssignment | oneLineReturn
  | oneLineCall | oneLineGoto | splitIf | splitSwitch =>
      exact .passStatement h (k := 0) rfl rfl rfl rfl rfl
  | _ => exact absurd hself (by decide)

theorem Completes.scope (h : BeforeAction .scope ts ns lo m) :
    Completes .scope text ts ns lo m :=
  .passStatements h (k := 5) rfl rfl rfl rfl (by decide) rfl rfl

theorem Completes.statementList {p : GimpleProduction} (h : BeforeAction p ts ns lo m)
    (hself : p.lhs = .statementList) : Completes p text ts ns lo m := by
  cases p with
  | statementListStatement => exact .statementListStatement h
  | statementListOneStatement => exact .statementListOneStatement h
  | statementListScope => exact .statementListScope h
  | statementListOneScope =>
      exact .passStatements h (k := 0) (s := .scope) rfl rfl rfl rfl (by decide) rfl rfl
  | statementListNothing => exact .statementListNothing h
  | _ => exact absurd hself (by decide)

/-- The statements of a function are those of one child. -/
theorem deliversAs_functionInfo {p : GimpleProduction} (text : String)
    (h : BeforeAction p ts ns lo m)
    (hself : p.lhs = .functionDefinition) {k : Nat} {t : GimpleTree} {user : ParseNodeUser}
    {a b : Nat} (hlist : DeliveredChild ts ns m k .statementList t user a b) (ha : lo ≤ a)
    (hb : b ≤ m.allocated) (hbefore : (p.rhs.take k).all GimpleTree.isQuiet = true)
    (hafter : (p.rhs.drop (k + 1)).all GimpleTree.isQuiet = true) (location name : Nat) :
    Memory.Frame lo m
        (m.new (.functionInfo location name (user.ptr .statementList))) ∧
      DeliversAs p.lhs.result (.node p text ts) lo (m.allocated + 1)
        (ParseNodeUser.zero.set .functionInfo (m.allocated + 1))
        (m.new (.functionInfo location name (user.ptr .statementList))) := by
  have hnodes : GimpleTree.statementNodes (.node p text ts) = t.statementNodes := by
    apply h.collect_child GimpleTree.quiet_findStatement hlist.tree _ hbefore hafter
    apply findStatement_eq_none
    rw [hself]
    decide
  refine ⟨.new m _ h.le, ?_⟩
  rw [hself]
  refine ⟨location, name, user.ptr .statementList, ?_, ?_⟩
  · rw [ParseNodeUser.set_ptr_self]
    exact .new m _ h.le
  · rw [hnodes]
    exact DeliversStatements.transport hlist.deliver fun q o hq =>
      (hq.frame (.new m _ hb)).mono ha (by omega)

theorem Completes.functionDefinition {p : GimpleProduction} (h : BeforeAction p ts ns lo m)
    (hself : p.lhs = .functionDefinition) : Completes p text ts ns lo m := by
  cases p with
  | functionDefinitionC =>
      obtain ⟨t₀, user₀, _, _, hname, -, -⟩ := h.child (k := 0) (s := .identifier) rfl
      obtain ⟨t₅, user₅, _, _, hlocation, -, -⟩ := h.child (k := 5) (s := .location) rfl
      obtain ⟨t, user, a, b, hlist, ha, hb⟩ := h.child (k := 9) (s := .statementList) rfl
      obtain ⟨l, hl⟩ := hlocation.deliver
      obtain ⟨qs, hqs, -⟩ := hlist.deliver
      have hstr : m.Has _ _ (user₀.ptr .str) (.str t₀.name) := hname.deliver
      obtain ⟨hframe, hdeliver⟩ := deliversAs_functionInfo text h rfl hlist ha hb
        rfl rfl (user₅.ptr .location) (user₀.ptr .str)
      refine .of_run (s := ⟨ns, ParseNodeUser.zero.set .functionInfo (m.allocated + 1), _⟩)
        ?_ hframe hdeliver
      rw [GimpleProduction.action, bind_run (a := ActionM.childPtr 0 .str) rfl, hname.node,
        bind_run (str_run (s := ⟨ns, .zero, m⟩) hstr.object),
        bind_run (a := ActionM.childPtr 5 .location) rfl, hlocation.node,
        bind_run (location_run (s := ⟨ns, .zero, m⟩) hl.object),
        bind_run (a := ActionM.childPtr 9 .statementList) rfl, hlist.node,
        bind_run (statements_run (s := ⟨ns, .zero, m⟩) hqs.object), ActionM.newFunctionInfo,
        bind_run (a := ActionM.childPtr 5 .location) rfl, hlocation.node,
        bind_run (a := ActionM.childPtr 0 .str) rfl, hname.node,
        bind_run (a := ActionM.childPtr 9 .statementList) rfl, hlist.node]
      rfl
  | functionDefinitionCpp =>
      obtain ⟨t₁, user₁, _, _, hname, -, -⟩ := h.child (k := 1) (s := .identifier) rfl
      obtain ⟨t₉, user₉, _, _, hlocation, -, -⟩ := h.child (k := 9) (s := .location) rfl
      obtain ⟨t, user, a, b, hlist, ha, hb⟩ := h.child (k := 13) (s := .statementList) rfl
      obtain ⟨qs, hqs, -⟩ := hlist.deliver
      have hstr : m.Has _ _ (user₁.ptr .str) (.str t₁.name) := hname.deliver
      obtain ⟨hframe, hdeliver⟩ := deliversAs_functionInfo text h rfl hlist ha hb
        rfl rfl (user₉.ptr .location) (user₁.ptr .str)
      refine .of_run (s := ⟨ns, ParseNodeUser.zero.set .functionInfo (m.allocated + 1), _⟩)
        ?_ hframe hdeliver
      rw [GimpleProduction.action, bind_run (a := ActionM.childPtr 1 .str) rfl, hname.node,
        bind_run (str_run (s := ⟨ns, .zero, m⟩) hstr.object),
        bind_run (a := ActionM.childPtr 13 .statementList) rfl, hlist.node,
        bind_run (statements_run (s := ⟨ns, .zero, m⟩) hqs.object), ActionM.newFunctionInfo,
        bind_run (a := ActionM.childPtr 9 .location) rfl, hlocation.node,
        bind_run (a := ActionM.childPtr 1 .str) rfl, hname.node,
        bind_run (a := ActionM.childPtr 13 .statementList) rfl, hlist.node]
      rfl
  | _ => exact absurd hself (by decide)

/-! ## All productions -/

theorem Completes.of_usesAngleBrackets {p : GimpleProduction} (hp : usesAngleBrackets p = true)
    (h : BeforeAction p ts ns lo m) : Completes p text ts ns lo m := by
  cases p with
  | functionDefinitionC | functionDefinitionCpp => exact .functionDefinition h rfl
  | locationReal | locationNothing | realLocationColumn | realLocationLine =>
      exact .location h rfl
  | paramDeclsListMore | paramDeclsListOne | paramDeclsListNothing =>
      exact .paramDeclsList h rfl
  | statementListStatement | statementListOneStatement | statementListScope
  | statementListOneScope | statementListNothing => exact .statementList h rfl
  | scope => exact .scope h
  | statementOneLine | statementComment | statementSplit | statementLabel =>
      exact .statement h (.inl rfl)
  | oneLineAssignment | oneLineReturn | oneLineCall | oneLineGoto =>
      exact .statement h (.inr (.inl rfl))
  | splitIf | splitSwitch => exact .statement h (.inr (.inr rfl))
  | returnVar | returnNothing => exact .return h rfl
  | assignment => exact .assignment h
  | assignBitwise | assignCastExpression | assignComplement | assignMinus
  | assignArithmetic | assignCast | assignCall | assignMinOrMax | assignBitField
  | assignCondition | assignNested => exact .assignmentInternals h rfl
  | ifGotos => exact .ifGotos h
  | callIdentifier | callSsa => exact .call h rfl
  | gotoSynthetic | gotoIdentifier => exact .goto h rfl
  | labelSynthetic | labelIdentifier => exact .label h rfl
  | switch => exact .switch h
  | caseListAngleBrackets => exact .caseListAngleBrackets h
  | caseListBraces => exact absurd hp (by decide)
  | caseList453More | caseList453One => exact .caseList h rfl
  | case453Case | case453Default => exact .case h rfl
  | varIdSsa | varIdIdentifier | varIdRetval => exact .varId h rfl
  | syntheticLabelId => exact .syntheticLabelId h
  | identifierSsa => exact .identifier h (.inr rfl)
  | identifier => exact .identifier h (.inl rfl)
  | _ => exact .nothing h rfl

end node

theorem GimpleSymbol.result_of_isToken {s : GimpleSymbol} (hs : s.isToken = true) :
    s.result = .nothing := by
  cases s with
  | literal => rfl
  | _ =>
      first
        | rfl
        | exact absurd hs (by decide)

/-- The actions are sound. -/
theorem sound_gimpleGrammar : Sound gimpleGrammar usesAngleBrackets Delivers where
  frame t lo hi n m m' h hframe :=
    ⟨h.1, h.2.transport fun _ _ hq => hq.frame hframe⟩
  token s text m hs := by
    refine ⟨rfl, ?_⟩
    show DeliversAs s.result _ _ _ _ _
    rw [GimpleSymbol.result_of_isToken hs]
    trivial
  node p text ts ns lo m hp hsymbols hder hlo hall :=
    Completes.of_usesAngleBrackets hp ⟨hsymbols, hder, hall⟩

/-- Whatever the parse tree of a function is, its actions make one statement for each
statement node, in source order, with the labels and the calls of the node. -/
theorem statementList_of_functionDefinition (t : GimpleTree) (m : Memory ParserObject)
    (ht : gimpleGrammar.derives usesAngleBrackets t = true)
    (hsymbol : gimpleGrammar.symbol t = .functionDefinition) :
    ∃ n m' location name list statements, gimpleGrammar.run t m = .ok (n, m') ∧
      m'.object (n.user.ptr .functionInfo) = some (.functionInfo location name list) ∧
      m'.object list = some (.statementList statements) ∧ statements.Nodup ∧
      List.Forall₂ (fun q node => q ≠ null ∧ ∃ st l,
          m'.object q = some (.statement st l) ∧ GimpleTree.Means node st)
        statements t.statementNodes := by
  obtain ⟨n, m', hrun, -, -, hdeliver⟩ := sound_gimpleGrammar.run_eq_ok t m ht
  rw [hsymbol] at hdeliver
  obtain ⟨location, name, list, hinfo, statements, hlist, hsorted, hall⟩ := hdeliver
  refine ⟨n, m', location, name, list, statements, hrun, hinfo.object, hlist.object,
    hsorted.imp Nat.ne_of_lt, hall.imp fun q node hq => ?_⟩
  obtain ⟨st, l, hst, hmeans⟩ := hq
  exact ⟨hst.ne_zero, st, l, hst.object, hmeans⟩

/-- `f () { { goto <D.1>; } return; }`. -/
def gotoInScope : GimpleTree :=
  let quoted (text : String) : GimpleTree := .token (.literal text) text
  let newline : GimpleTree := .token .newline "\n"
  let location : GimpleTree := .node .locationNothing "" []
  let line (st : GimpleTree) : GimpleTree :=
    .node .statementOneLine "" [st, quoted ";", .token .postLineText ""]
  let goto : GimpleTree := line (.node .oneLineGoto "" [.node .gotoSynthetic ""
    [location, quoted "goto", .node .syntheticLabelId ""
      [quoted "<", .node .identifierSsa "" [.token .pattern "D.1"], quoted ">"]]])
  let ret : GimpleTree :=
    line (.node .oneLineReturn "" [.node .returnNothing "" [location, quoted "return"]])
  let scope : GimpleTree := .node .scope ""
    [location, quoted "\x7b", newline, .node .optDeclarationListNothing "" [], newline,
      .node .statementListOneStatement "" [goto, newline], quoted "\x7d"]
  .node .functionDefinitionC ""
    [.node .identifier "f" [.token .pattern "f"], quoted "(",
      .node .paramDeclsListNothing "" [], quoted ")", newline, location, quoted "\x7b", newline,
      .node .optDeclarationListNewlineNothing "" [],
      .node .statementListStatement ""
        [.node .statementListOneScope "" [scope, newline], ret, newline],
      quoted "\x7d"]

theorem statementList_of_gotoInScope :
    ∃ n m' location name list statements,
      gimpleGrammar.run gotoInScope .empty = .ok (n, m') ∧
      m'.object (n.user.ptr .functionInfo) = some (.functionInfo location name list) ∧
      m'.object list = some (.statementList statements) ∧ statements.Nodup ∧
      List.Forall₂ (fun q node => q ≠ null ∧ ∃ st l,
          m'.object q = some (.statement st l) ∧ GimpleTree.Means node st)
        statements gotoInScope.statementNodes :=
  statementList_of_functionDefinition gotoInScope .empty (by decide +kernel) rfl

end CoFlo.Ports
