import CoFlo.Ports.GimpleStatements

/-!
# What the actions do

Before the action of a production its children have delivered (`BeforeAction`); the action
completes if it then delivers for its own symbol (`Completes`).  Most actions pass a
pointer of a child on, or make one object.
-/

namespace CoFlo.Ports

open CoFlo.Verified.SyntaxActions CoFlo.Verified.SyntaxActions.Grammar

/-! ## The node of a production -/

/-- The productions without the braces around the cases of a `switch`. -/
def usesAngleBrackets (p : GimpleProduction) : Bool := p ≠ .caseListBraces

/-- Before the action of a production: the actions of the children have been run since
there were `lo` objects. -/
structure BeforeAction (p : GimpleProduction) (ts : List GimpleTree) (ns : List ParseNode)
    (lo : Nat) (m : Memory ParserObject) : Prop where
  symbols : ts.map gimpleGrammar.symbol = p.rhs
  derives : ∀ t ∈ ts, gimpleGrammar.derives usesAngleBrackets t = true
  deliver : AllDeliver Delivers m lo ts ns m.allocated

/-- The action of a production goes through, and delivers. -/
def Completes (p : GimpleProduction) (text : String) (ts : List GimpleTree)
    (ns : List ParseNode) (lo : Nat) (m : Memory ParserObject) : Prop :=
  ∃ n m', gimpleGrammar.action p text ns m = .ok (n, m') ∧ Memory.Frame lo m m' ∧
    Delivers (.node p text ts) lo m'.allocated n m'

section node

variable {p : GimpleProduction} {text : String} {ts : List GimpleTree}
  {ns : List ParseNode} {lo : Nat} {m : Memory ParserObject}

theorem Completes.of_run {s : ActionState}
    (hrun : p.action ⟨ns, .zero, m⟩ = .ok ((), s)) (hframe : Memory.Frame lo m s.memory)
    (hdeliver : DeliversAs p.lhs.result (.node p text ts) lo s.memory.allocated s.self
      s.memory) : Completes p text ts ns lo m := by
  refine ⟨⟨text, s.self⟩, s.memory, ?_, hframe, rfl, hdeliver⟩
  simp only [gimpleGrammar, StateT.run, hrun]

/-- What the child at a position has delivered, with the objects made after the first
`a` and among the first `b`. -/
structure DeliveredChild (ts : List GimpleTree) (ns : List ParseNode)
    (m : Memory ParserObject) (k : Nat) (s : GimpleSymbol) (t : GimpleTree)
    (user : ParseNodeUser) (a b : Nat) : Prop where
  tree : ts[k]? = some t
  symbol : gimpleGrammar.symbol t = s
  node : ∀ self memory, ActionState.child ⟨ns, self, memory⟩ k = ⟨t.text, user⟩
  le : a ≤ b
  deliver : DeliversAs s.result t a b user m

theorem DeliveredChild.of_get {k : Nat} {s : GimpleSymbol} {t : GimpleTree}
    {n : ParseNode} {a b : Nat} (ht : ts[k]? = some t) (hn : ns[k]? = some n)
    (hsymbol : gimpleGrammar.symbol t = s) (hab : a ≤ b) (hdeliver : Delivers t a b n m) :
    DeliveredChild ts ns m k s t n.user a b where
  tree := ht
  symbol := hsymbol
  node self memory := by
    rw [ActionState.child, List.getD_eq_getElem?_getD, hn, Option.getD_some, ← hdeliver.1]
  le := hab
  deliver := by
    rw [← hsymbol]
    exact hdeliver.2

/-- Two children, the first of which was begun first. -/
theorem BeforeAction.children (h : BeforeAction p ts ns lo m) {j k : Nat}
    {s r : GimpleSymbol} (hs : p.rhs[j]? = some s) (hs' : p.rhs[j + 1 + k]? = some r) :
    ∃ t user a b t' user' a' b', DeliveredChild ts ns m j s t user a b ∧
      DeliveredChild ts ns m (j + 1 + k) r t' user' a' b' ∧
      lo ≤ a ∧ b ≤ a' ∧ b' ≤ m.allocated := by
  obtain ⟨t, ht, hsymbol⟩ := exists_child (G := gimpleGrammar) h.symbols hs
  obtain ⟨t', ht', hsymbol'⟩ := exists_child (G := gimpleGrammar) h.symbols hs'
  obtain ⟨n, a, b, hn, ha, hab, hdeliver, hrest⟩ := h.deliver.get ht
  obtain ⟨n', a', b', hn', ha', hab', hdeliver', hrest'⟩ :=
    hrest.get (k := k) (t := t') (by rwa [List.getElem?_drop])
  rw [List.getElem?_drop] at hn'
  exact ⟨t, n.user, a, b, t', n'.user, a', b', .of_get ht hn hsymbol hab hdeliver,
    .of_get ht' hn' hsymbol' hab' hdeliver', ha, ha', hrest'.le⟩

/-- The child at a position. -/
theorem BeforeAction.child (h : BeforeAction p ts ns lo m) {k : Nat} {s : GimpleSymbol}
    (hs : p.rhs[k]? = some s) :
    ∃ t user a b, DeliveredChild ts ns m k s t user a b ∧ lo ≤ a ∧ b ≤ m.allocated := by
  obtain ⟨t, ht, hsymbol⟩ := exists_child (G := gimpleGrammar) h.symbols hs
  obtain ⟨n, a, b, hn, ha, hab, hdeliver, hrest⟩ := h.deliver.get ht
  exact ⟨t, n.user, a, b, .of_get ht hn hsymbol hab hdeliver, ha, hrest.le⟩

theorem BeforeAction.le (h : BeforeAction p ts ns lo m) : lo ≤ m.allocated := h.deliver.le

/-! ### Actions that pass a pointer on -/

/-- Whether only the child at a position counts. -/
def passesOn (p : GimpleProduction) (k : Nat) : Bool :=
  (GimpleTree.kindOf p).isNone && p ≠ .syntheticLabelId && p ≠ .gotoIdentifier &&
    p.lhs ≠ .labelStatement && p.lhs ≠ .functionCall &&
    (p.rhs.take k).all GimpleTree.isQuiet && (p.rhs.drop (k + 1)).all GimpleTree.isQuiet

theorem BeforeAction.collect_child {α : Type} {f : GimpleTree → Option (List α)}
    (h : BeforeAction p ts ns lo m) (hf : Quiet gimpleGrammar GimpleTree.isQuiet f) {k : Nat}
    {t : GimpleTree} (ht : ts[k]? = some t) (hnone : f (.node p text ts) = none)
    (hbefore : (p.rhs.take k).all GimpleTree.isQuiet = true)
    (hafter : (p.rhs.drop (k + 1)).all GimpleTree.isQuiet = true) :
    (ParseTree.node p text ts).collect f = t.collect f := by
  rw [← h.symbols] at hbefore hafter
  rw [ParseTree.collect_node hnone, hf.flatMap_collect_child h.derives ht hbefore hafter]

/-- Where two children count. -/
theorem BeforeAction.collect_children {α : Type} {f : GimpleTree → Option (List α)}
    (h : BeforeAction p ts ns lo m) (hf : Quiet gimpleGrammar GimpleTree.isQuiet f)
    {j k : Nat} {t t' : GimpleTree} (ht : ts[j]? = some t) (ht' : ts[j + 1 + k]? = some t')
    (hnone : f (.node p text ts) = none)
    (hbefore : (p.rhs.take j).all GimpleTree.isQuiet = true)
    (hbetween : ((p.rhs.drop (j + 1)).take k).all GimpleTree.isQuiet = true)
    (hafter : ((p.rhs.drop (j + 1)).drop (k + 1)).all GimpleTree.isQuiet = true) :
    (ParseTree.node p text ts).collect f = t.collect f ++ t'.collect f := by
  rw [← h.symbols] at hbefore hbetween hafter
  rw [← List.map_drop] at hbetween hafter
  rw [ParseTree.collect_node hnone, hf.flatMap_collect_append h.derives ht hbefore,
    hf.flatMap_collect_child (fun u hu => h.derives u (List.mem_of_mem_drop hu))
      (by rwa [List.getElem?_drop]) hbetween hafter]

theorem means_of_passesOn (h : BeforeAction p ts ns lo m) {k : Nat} {t : GimpleTree}
    (ht : ts[k]? = some t) (hpass : passesOn p k = true) {st : Statement}
    (hmeans : GimpleTree.Means t st) : GimpleTree.Means (.node p text ts) st := by
  simp only [passesOn, Bool.and_eq_true, decide_eq_true_eq, ne_eq] at hpass
  obtain ⟨⟨⟨⟨⟨⟨hkind, hsynthetic⟩, hgoto⟩, hlabel⟩, hcall⟩, hbefore⟩, hafter⟩ := hpass
  have hkinds : GimpleTree.kinds (.node p text ts) = t.kinds := by
    apply h.collect_child GimpleTree.quiet_findKind ht _ hbefore hafter
    rw [GimpleTree.findKind, Option.isNone_iff_eq_none.mp hkind]
    rfl
  have hlinks : GimpleTree.linkTargets (.node p text ts) = t.linkTargets := by
    apply h.collect_child GimpleTree.quiet_findLinkTarget ht _ hbefore hafter
    rw [GimpleTree.findLinkTarget, if_neg hsynthetic, if_neg hgoto]
  have hlabels : GimpleTree.labels (.node p text ts) = t.labels := by
    apply h.collect_child GimpleTree.quiet_findLabel ht _ hbefore hafter
    rw [GimpleTree.findLabel, if_neg hlabel]
  have hcalled : GimpleTree.calledIdentifiers (.node p text ts) = t.calledIdentifiers := by
    apply h.collect_child GimpleTree.quiet_findCalled ht _ hbefore hafter
    rw [GimpleTree.findCalled, if_neg hcall]
  cases st <;> simp only [GimpleTree.Means, hkinds, hlinks, hlabels, hcalled] at hmeans ⊢ <;>
    exact hmeans

/-- What `M_PROPAGATE_PTR` does. -/
theorem propagatePtr_run (k : Nat) (member : PtrMember) (s : ActionState) :
    ∃ children, ActionM.propagatePtr k member s =
      .ok ((), ⟨children, s.self.set member ((s.child k).user.ptr member), s.memory⟩) :=
  ⟨_, rfl⟩

/-- An action that only passes a pointer on. -/
theorem Completes.pass (h : BeforeAction p ts ns lo m) {k : Nat} {s : GimpleSymbol}
    (hs : p.rhs[k]? = some s) {member : PtrMember}
    (haction : p.action = ActionM.propagatePtr k member)
    (hdeliver : ∀ t a b user, ts[k]? = some t → DeliversAs s.result t a b user m →
      DeliversAs p.lhs.result (.node p text ts) a b
        (ParseNodeUser.zero.set member (user.ptr member)) m) :
    Completes p text ts ns lo m := by
  obtain ⟨t, user, a, b, hchild, ha, hb⟩ := h.child hs
  obtain ⟨children, hrun⟩ := propagatePtr_run k member ⟨ns, .zero, m⟩
  rw [hchild.node] at hrun
  apply Completes.of_run
  · rw [haction]
    exact hrun
  · exact .refl lo m
  · exact (hdeliver t a b user hchild.tree hchild.deliver).transport
      fun q o hq => hq.mono ha hb

theorem Completes.passStatement (h : BeforeAction p ts ns lo m) {k : Nat} {s : GimpleSymbol}
    (hs : p.rhs[k]? = some s) (hchild : s.result = .statement)
    (hself : p.lhs.result = .statement)
    (haction : p.action = ActionM.propagatePtr k .statement) (hpass : passesOn p k = true) :
    Completes p text ts ns lo m := by
  apply Completes.pass h hs haction
  intro t a b user ht hdeliver
  rw [hchild] at hdeliver
  rw [hself]
  obtain ⟨st, l, hst, hmeans⟩ := hdeliver
  refine ⟨st, l, ?_, means_of_passesOn h ht hpass hmeans⟩
  rw [ParseNodeUser.set_ptr_self]
  exact hst

theorem findStatement_eq_none (hp : p.lhs ≠ .statement) :
    GimpleTree.findStatement (.node p text ts) = none := if_neg hp

theorem Completes.passStatements (h : BeforeAction p ts ns lo m) {k : Nat}
    {s : GimpleSymbol} (hs : p.rhs[k]? = some s) (hchild : s.result = .statements)
    (hself : p.lhs.result = .statements)
    (haction : p.action = ActionM.propagatePtr k .statementList)
    (hstatement : p.lhs ≠ .statement)
    (hbefore : (p.rhs.take k).all GimpleTree.isQuiet = true)
    (hafter : (p.rhs.drop (k + 1)).all GimpleTree.isQuiet = true) :
    Completes p text ts ns lo m := by
  apply Completes.pass h hs haction
  intro t a b user ht hdeliver
  have hnodes : GimpleTree.statementNodes (.node p text ts) = t.statementNodes :=
    h.collect_child GimpleTree.quiet_findStatement ht (findStatement_eq_none hstatement)
      hbefore hafter
  rw [hchild] at hdeliver
  rw [hself]
  show DeliversStatements a b _ m _
  rw [hnodes, ParseNodeUser.set_ptr_self]
  exact hdeliver

/-! ### Actions that make an object -/

/-- An action that makes one object, which nothing else points to. -/
theorem Completes.make (hlo : lo ≤ m.allocated) (member : PtrMember)
    {children : List ParseNode} {o : ParserObject}
    (hrun : p.action ⟨ns, .zero, m⟩ =
      .ok ((), ⟨children, ParseNodeUser.zero.set member (m.allocated + 1), m.new o⟩))
    (hdeliver : (m.new o).Has lo (m.allocated + 1) (m.allocated + 1) o →
      DeliversAs p.lhs.result (.node p text ts) lo (m.allocated + 1)
        (ParseNodeUser.zero.set member (m.allocated + 1)) (m.new o)) :
    Completes p text ts ns lo m :=
  .of_run hrun (.new m o hlo) (hdeliver (.new m o hlo))

theorem Completes.makeStatement (hlo : lo ≤ m.allocated) {children : List ParseNode}
    {st : Statement} {l : Location}
    (hrun : p.action ⟨ns, .zero, m⟩ = .ok ((), ⟨children,
      ParseNodeUser.zero.set .statement (m.allocated + 1), m.new (.statement st l)⟩))
    (hself : p.lhs.result = .statement)
    (hmeans : GimpleTree.Means (.node p text ts) st) : Completes p text ts ns lo m := by
  apply Completes.make hlo .statement hrun
  intro hhas
  rw [hself]
  refine ⟨st, l, ?_, hmeans⟩
  rw [ParseNodeUser.set_ptr_self]
  exact hhas

/-- The steps of an action, one after the other. -/
theorem bind_run {α β : Type} {a : ActionM α} {f : α → ActionM β} {s s' : ActionState}
    {x : α} (h : a s = .ok (x, s')) : (a >>= f) s = f x s' := by
  show (StateT.bind a f) s = _
  unfold StateT.bind
  simp only [bind, Except.bind, h]

theorem str_run {q : Nat} {s : ActionState} {x : String}
    (h : s.memory.object q = some (.str x)) : ActionM.str q s = .ok (x, s) := by
  rw [ActionM.str, h]

theorem location_run {q : Nat} {s : ActionState} {l : Location}
    (h : s.memory.object q = some (.location l)) : ActionM.location q s = .ok (l, s) := by
  rw [ActionM.location, h]

theorem statements_run {q : Nat} {s : ActionState} {l : List Nat}
    (h : s.memory.object q = some (.statementList l)) :
    ActionM.statements q s = .ok (l, s) := by
  rw [ActionM.statements, h]

theorem newStatement_run {st : Statement} {s : ActionState} {l : Location}
    (h : s.memory.object ((s.child 0).user.ptr .location) = some (.location l)) :
    ActionM.newStatement st s =
      .ok ((), ⟨s.children, s.self.set .statement (s.memory.allocated + 1),
        s.memory.new (.statement st l)⟩) := by
  rw [ActionM.newStatement, bind_run (a := ActionM.childPtr 0 .location) rfl,
    bind_run (location_run h)]
  rfl

/-- A statement with a location and the name of a label. -/
theorem newStatement_named_run (h : BeforeAction p ts ns lo m) {k : Nat} {s : GimpleSymbol}
    (hlocation : p.rhs[0]? = some .location) (hs : p.rhs[k]? = some s)
    (hname : s.result = .name) {f : String → Statement}
    (haction : p.action = do
      ActionM.newStatement (f (← ActionM.str (← ActionM.childPtr k .str)))) :
    ∃ t l, ts[k]? = some t ∧ gimpleGrammar.symbol t = s ∧
      p.action ⟨ns, .zero, m⟩ =
        .ok ((), ⟨ns, ParseNodeUser.zero.set .statement (m.allocated + 1),
          m.new (.statement (f t.name) l)⟩) := by
  obtain ⟨_, _, _, _, hchild₀, -, -⟩ := h.child hlocation
  obtain ⟨l, hl⟩ := hchild₀.deliver
  obtain ⟨t, user, _, _, hchild, -, -⟩ := h.child hs
  have hstr := hchild.deliver
  rw [hname] at hstr
  have hx : m.object ((ActionState.child ⟨ns, .zero, m⟩ k).user.ptr .str) =
      some (.str t.name) := by
    rw [hchild.node]
    exact Memory.Has.object hstr
  refine ⟨t, l, hchild.tree, hchild.symbol, ?_⟩
  rw [haction, bind_run (a := ActionM.childPtr k .str) rfl, bind_run (str_run hx),
    newStatement_run]
  rw [hchild₀.node]
  exact hl.object

/-! ### Locations and names -/

/-- A symbol with productions has one at its node. -/
theorem exists_node {t : GimpleTree} (ht : gimpleGrammar.derives usesAngleBrackets t = true)
    (hsymbol : (gimpleGrammar.symbol t).isToken = false) :
    ∃ p text ts, t = .node p text ts := by
  cases t with
  | token s text =>
      rw [derives] at ht
      have hs : s.isToken = true := ht
      rw [show s.isToken = false from hsymbol] at hs
      exact Bool.noConfusion hs
  | node p text ts => exact ⟨p, text, ts, rfl⟩

theorem linkTargets_syntheticLabelId {t : GimpleTree}
    (ht : gimpleGrammar.derives usesAngleBrackets t = true)
    (hsymbol : gimpleGrammar.symbol t = .syntheticLabelId) : t.linkTargets = [t.name] := by
  obtain ⟨p, text, ts, rfl⟩ := exists_node ht (by rw [hsymbol]; rfl)
  have hp : p = .syntheticLabelId := by
    have hlhs : p.lhs = .syntheticLabelId := hsymbol
    revert hlhs
    cases p <;> decide
  subst hp
  exact ParseTree.collect_of_eq_some rfl

theorem Completes.location {p : GimpleProduction} (h : BeforeAction p ts ns lo m)
    (hself : p.lhs.result = .location) : Completes p text ts ns lo m := by
  cases p with
  | locationReal =>
      apply Completes.pass h (k := 0) rfl rfl
      intro t a b user _ hdeliver
      obtain ⟨l, hl⟩ := hdeliver
      exact ⟨l, by rwa [ParseNodeUser.set_ptr_self]⟩
  | locationNothing =>
      apply Completes.make h.le .location rfl
      intro hhas
      exact ⟨_, by rwa [ParseNodeUser.set_ptr_self]⟩
  | realLocationColumn =>
      apply Completes.make h.le .location rfl
      intro hhas
      exact ⟨_, by rwa [ParseNodeUser.set_ptr_self]⟩
  | realLocationLine =>
      apply Completes.make h.le .location rfl
      intro hhas
      exact ⟨_, by rwa [ParseNodeUser.set_ptr_self]⟩
  | _ => exact absurd hself (by decide)

/-- The name of an identifier is what its regular expression has matched. -/
theorem name_of_pattern {p : GimpleProduction} (text : String) (h : BeforeAction p ts ns lo m)
    (hp : p.rhs = [.pattern]) (hlhs : p.lhs ≠ .syntheticLabelId) :
    (ActionState.child ⟨ns, .zero, m⟩ 0).text = GimpleTree.name (.node p text ts) := by
  obtain ⟨t, user, _, _, hchild, -, -⟩ := h.child (k := 0) (s := .pattern) (by rw [hp]; rfl)
  have hts : ts = [t] := by
    have hlength : ts.length = 1 := by
      have := congrArg List.length h.symbols
      rwa [List.length_map, hp] at this
    obtain ⟨t', rfl⟩ := List.length_eq_one_iff.mp hlength
    simpa using hchild.tree
  subst hts
  have hsymbol' : gimpleGrammar.symbol (ParseTree.node p text [t]) ≠ .syntheticLabelId := hlhs
  have hnode : GimpleTree.findName (.node p text [t]) = none := rfl
  rw [hchild.node, GimpleTree.name, if_neg hsymbol', ParseTree.collect_node hnode]
  have hder := h.derives t List.mem_cons_self
  cases t with
  | token s name =>
      obtain rfl : s = .pattern := hchild.symbol
      have hfind : GimpleTree.findName (.token .pattern name) = some [name] := rfl
      rw [List.flatMap_cons, ParseTree.collect_of_eq_some hfind]
      simp [ParseTree.text]
  | node p' text' ts' =>
      have hlhs' : p'.lhs = .pattern := hchild.symbol
      revert hlhs'
      cases p' <;> exact fun hcon => absurd hcon (by decide)

theorem Completes.identifier {p : GimpleProduction} (h : BeforeAction p ts ns lo m)
    (hp : p = .identifier ∨ p = .identifierSsa) : Completes p text ts ns lo m := by
  have hcomplete : ∀ p : GimpleProduction, BeforeAction p ts ns lo m →
      p.rhs = [.pattern] → p.lhs ≠ .syntheticLabelId → p.lhs.result = .name →
      p.action = (do ActionM.setSelf .str (← ActionM.new (.str (← ActionM.childText 0)))) →
      Completes p text ts ns lo m := by
    intro p h hrhs hlhs hself haction
    have hrun : p.action ⟨ns, .zero, m⟩ = .ok ((), ⟨ns,
        ParseNodeUser.zero.set .str (m.allocated + 1),
        m.new (.str (GimpleTree.name (.node p text ts)))⟩) := by
      rw [haction, bind_run (a := ActionM.childText 0) rfl,
        name_of_pattern text h hrhs hlhs]
      rfl
    apply Completes.make h.le .str hrun
    intro hhas
    rw [hself]
    show Memory.Has _ _ _ _ _
    rwa [ParseNodeUser.set_ptr_self]
  rcases hp with rfl | rfl
  · exact hcomplete _ h rfl (by decide) rfl rfl
  · exact hcomplete _ h rfl (by decide) rfl rfl

end node

end CoFlo.Ports
