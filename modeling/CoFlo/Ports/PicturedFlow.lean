import CoFlo.Ports.Analysis
import CoFlo.Ports.DotFile

/-!
# A dot file pictures the source

A dot file holds the edges of a graph, and the graph has the flow of a statement
list.  Read together they say what a user sees: the places of the list that have
a node, what is written on it, and that the black edges between two nodes are
the ways that control takes from one to the other (`Pictures`).  Gray edges are
those that `CreateControlFlowGraph` has added; without them, only what control
can come to is in the picture.
-/

namespace CoFlo.Ports

open CoFlo.Verified CoFlo.Verified.StepMachine Relation

/-! ## The picture of a statement list -/

/-- The node of a statement. -/
def Statement.dotNode (functionMap : FunctionMap) (index : Nat) (location : Location) :
    Statement → DotLine
  | entry => .node index "ENTRY" location "black" "rectangle"
  | exit => .node index "EXIT" location "black" "rectangle"
  | noOp => .node index "NoOp" location "black" "rectangle"
  | placeholder => .node index "PLACEHOLDER" location "black" "rectangle"
  | label identifier => .node index identifier location "black" "rectangle"
  | functionCallUnresolved identifier params =>
      if (functionMap identifier).isSome then
        .node index (identifier ++ "()") location "black" "rectangle"
      else
        .node index (identifier ++ "(" ++
          .ofList (escapeifyForUseInDotLabel params.toList) ++ ")") location "red"
            "rectangle"
  | gotoUnlinked _ | returnUnlinked _ => .node index "GOTO" location "black" "rectangle"
  | ifUnlinked condition _ _ =>
      .node index ("if(" ++ condition ++ ")") location "black" "diamond"
  | caseUnlinked _ => .node index "CASE_UNLINKED" location "black" "rectangle"
  | switchUnlinked [] => .node index "SWITCH_UNLINKED" location "black" "rectangle"
  | switchUnlinked (_ :: _) => .node index "switch()" location "black" "diamond"
  -- The others are not in a statement list.
  | _ => .node index "" location "black" "rectangle"

/-- The statement that stands at a place. -/
def statementAt (statements : List Statement) : Place → Option Statement
  | .entry => some .entry
  | .exit => some .exit
  | .statement i => statements[i]?

/-- The line of a node. -/
def DotLine.isNode (i : Nat) : DotLine → Bool
  | node index _ _ _ _ => index = i
  | _ => false

/-- A place has a node. -/
def InPicture (index : Place → Nat) (out : List DotLine) (x : Place) : Prop :=
  ∃ text location color shape, .node (index x) text location color shape ∈ out

/-- On from a place that is left out of the picture. -/
def SkippedOver (statements : List Statement) (kept : Set Place) (p q : Place) : Prop :=
  p ∉ kept ∧ ∃ ty, FlowsTo statements p ty q

/-- The dot file `out` is a picture of the function `g`, in which the places in
`kept` can have nodes, with the numbers `index`. -/
structure Pictures (fis : List FunctionInfo) (g : FunctionPtr) (kept : Set Place)
    (index : Place → Nat) (out : List DotLine) : Prop where
  header : ∀ fi, functionInfoOf fis g = some fi → out.head? = some (.header fi.identifier)
  inRange : ∀ x ∈ kept, x.InRange (statementsOf fis g).length
  entry_kept : .entry ∈ kept
  exit_kept : .exit ∈ kept
  statement_kept : ∀ i st, (statementsOf fis g)[i]? = some st →
    st.linked.isRedundantKind = false → .statement i ∈ kept
  injOn : Set.InjOn index kept
  entry_index : index .entry = 0
  exit_index : index .exit = 1
  node : ∀ x ∈ kept, InPicture index out x → ∀ st,
    statementAt (statementsOf fis g) x = some st → ∃ location,
      out.filter (·.isNode (index x)) =
        [st.dotNode (calledFunctionOf fis) (index x) location]
  reached : ∀ x ∈ kept, CanReach (statementsOf fis g) .entry x → InPicture index out x
  edge_iff : ∀ x ∈ kept, InPicture index out x → ∀ j label,
    ((∃ style, .edge (index x) j label "black" style ∈ out) ↔
      ∃ ty z y, ty.dotLabel = label ∧ FlowsTo (statementsOf fis g) x ty z ∧
        ReflTransGen (SkippedOver (statementsOf fis g) kept) z y ∧
          y ∈ kept ∧ index y = j)
  edges : ∀ i j label color style, .edge i j label color style ∈ out →
    (color = "black" ∨ color = "gray") ∧ (∃ line ∈ out, line.isNode i = true) ∧
      ∃ line ∈ out, line.isNode j = true
  ungrayed : (∀ i j label style, .edge i j label "gray" style ∉ out) → ∀ i,
    (∃ line ∈ out, line.isNode i = true) →
      ∃ x ∈ kept, CanReach (statementsOf fis g) .entry x ∧ index x = i

/-- The line of a vertex that stands for a parsed statement. -/
theorem nodeLine_eq {fis : List FunctionInfo} {h : Heap} (hnames : NamedAfter fis h)
    {st : Statement} (hst : st.isParsed = true ∨ st = .entry ∨ st = .exit)
    {v : VertexPtr}
    (hv : (h.vertex v).statement = st.linked.resolvedWith (calledFunctionOf fis)) :
    WriteGraphvizDotFileVisitor.nodeLine h v = st.dotNode (calledFunctionOf fis)
      (h.vertex v).vertexIndex (h.vertex v).location := by
  rw [WriteGraphvizDotFileVisitor.nodeLine, hv]
  rcases hst with hst | rfl | rfl
  · cases st with
    | functionCallUnresolved identifier params =>
        have hlinked : (Statement.functionCallUnresolved identifier params).linked =
            .functionCallUnresolved identifier params := rfl
        rw [hlinked, Statement.resolvedWith, Statement.dotNode]
        cases hname : calledFunctionOf fis identifier with
        | none => rfl
        | some f =>
            obtain ⟨fi, hfi, rfl⟩ := functionInfoOf_calledFunctionOf hname
            show DotLine.node _ ((h.function f).functionId ++ "()") _ _ _ = _
            rw [(hnames f fi hfi).1]
            rfl
    | switchUnlinked caseList => cases caseList <;> rfl
    | entry | exit | merge | functionCallResolved _ _ | gotoStatement | ifStatement _
    | switchStatement => exact absurd hst Bool.false_ne_true
    | _ => rfl
  · rfl
  · rfl

theorem EdgeType.dotSVGColor_of_isIntraprocedural {ty : EdgeType}
    (hintra : ty.isIntraprocedural = true) :
    ty.dotSVGColor = if ty.isImpossible then "gray" else "black" := by
  cases ty <;> first | rfl | exact absurd hintra Bool.false_ne_true

/-- The statement of the vertex of a place. -/
theorem FlowLinked.statement_of_statementAt {fis : List FunctionInfo}
    {place : Place → VertexPtr} {h : Heap} {g : FunctionPtr}
    (hl : FlowLinked fis place h g)
    (hparsed : ∀ st ∈ statementsOf fis g, st.isParsed = true) {x : Place}
    (hx : place x ∈ (h.graph g).vertices) {st : Statement}
    (hst : statementAt (statementsOf fis g) x = some st) :
    (st.isParsed = true ∨ st = .entry ∨ st = .exit) ∧
      (h.vertex (place x)).statement = st.linked.resolvedWith (calledFunctionOf fis) := by
  cases x with
  | entry =>
      obtain rfl := Option.some.inj hst
      exact ⟨.inr (.inl rfl), hl.entry_statement⟩
  | exit =>
      obtain rfl := Option.some.inj hst
      exact ⟨.inr (.inr rfl), hl.exit_statement⟩
  | statement i =>
      exact ⟨.inl (hparsed st (List.mem_of_getElem? hst)), hl.statement i st hst hx⟩

/-! ## The lines of the file -/

namespace PrintControlFlowGraphDot.Faithful

open WriteGraphvizDotFileVisitor

variable {h : Heap} {g : FunctionPtr} {out : List DotLine} {R : Finset VertexPtr}
  {E : Finset EdgePtr} (hd : Faithful h g out R E)

include hd

theorem mem_out_iff {line : DotLine} : line ∈ out ↔
    line = .header (h.function g).functionId ∨ (∃ v ∈ R, nodeLine h v = line) ∨
      ∃ e ∈ E, edgeLine h e = line := by
  obtain ⟨lines, rfl, hlines⟩ := hd.lines
  rw [List.mem_cons, ← Multiset.mem_coe, hlines, Multiset.mem_add, Multiset.mem_map,
    Multiset.mem_map]
  rfl

theorem exists_isNode_iff {i : Nat} : (∃ line ∈ out, line.isNode i = true) ↔
    ∃ v ∈ R, (h.vertex v).vertexIndex = i := by
  constructor
  · intro hline
    obtain ⟨line, hmem, hnode⟩ := hline
    rcases hd.mem_out_iff.mp hmem with rfl | ⟨v, hv, rfl⟩ | ⟨e, -, rfl⟩
    · exact absurd hnode Bool.false_ne_true
    · exact ⟨v, hv, of_decide_eq_true hnode⟩
    · exact absurd hnode Bool.false_ne_true
  · intro hv
    obtain ⟨v, hv, hindex⟩ := hv
    exact ⟨_, hd.mem_out_iff.mpr (.inr (.inl ⟨v, hv, rfl⟩)), decide_eq_true hindex⟩

theorem edgeLine_mem {e : EdgePtr} (he : e ∈ E) : edgeLine h e ∈ out :=
  hd.mem_out_iff.mpr (.inr (.inr ⟨e, he, rfl⟩))

theorem exists_edge {i j : Nat} {label color style : String}
    (hline : .edge i j label color style ∈ out) :
    ∃ e ∈ E, edgeLine h e = .edge i j label color style := by
  rcases hd.mem_out_iff.mp hline with heq | ⟨v, -, heq⟩ | hedge
  · exact DotLine.noConfusion heq
  · exact DotLine.noConfusion heq
  · exact hedge

/-- A vertex has one line. -/
theorem filter_isNode {v : VertexPtr} (hv : v ∈ R) :
    out.filter (·.isNode (h.vertex v).vertexIndex) = [nodeLine h v] := by
  obtain ⟨lines, rfl, hlines⟩ := hd.lines
  have hnodes : R.filter
      (fun u => (nodeLine h u).isNode (h.vertex v).vertexIndex = true) = {v} := by
    ext u
    rw [Finset.mem_filter, Finset.mem_singleton]
    constructor
    · intro hu
      exact hd.ids hu.1 hv (of_decide_eq_true hu.2)
    · rintro rfl
      exact ⟨hv, decide_eq_true rfl⟩
  have hedges : (E.val.map (edgeLine h)).filter
      (fun line => line.isNode (h.vertex v).vertexIndex = true) = 0 := by
    rw [Multiset.filter_eq_nil]
    intro line hline
    obtain ⟨e, -, rfl⟩ := Multiset.mem_map.mp hline
    exact Bool.false_ne_true
  have hfilter : (lines : Multiset DotLine).filter
      (fun line => line.isNode (h.vertex v).vertexIndex = true) = {nodeLine h v} := by
    rw [hlines, Multiset.filter_add, hedges, add_zero, Multiset.filter_map]
    exact congrArg (fun s => s.val.map (nodeLine h)) hnodes
  rw [Multiset.filter_coe, Multiset.coe_eq_singleton] at hfilter
  rw [List.filter_cons_of_neg Bool.false_ne_true]
  simpa using hfilter

end PrintControlFlowGraphDot.Faithful

/-! ## The flow that is drawn -/

/-- The places that have a vertex. -/
def keptPlaces (fis : List FunctionInfo) (g : FunctionPtr) (place : Place → VertexPtr)
    (h : Heap) : Set Place :=
  {x | x.InRange (statementsOf fis g).length ∧ place x ∈ (h.graph g).vertices}

/-- The number a place has in the dot file. -/
def dotIndex (place : Place → VertexPtr) (h : Heap) (x : Place) : Nat :=
  (h.vertex (place x)).vertexIndex

theorem skippedOver_eq {fis : List FunctionInfo} {place : Place → VertexPtr} {h : Heap}
    {g : FunctionPtr} :
    SkippedOver (statementsOf fis g) (keptPlaces fis g place h) =
      PassedOver (statementsOf fis g) place h g := by
  funext x y
  apply propext
  constructor
  · intro hxy
    obtain ⟨hnot, ty, hstep⟩ := hxy
    exact ⟨fun hmem => hnot ⟨hstep.inRange.1, hmem⟩, ty, hstep⟩
  · intro hxy
    exact ⟨fun hkept => hxy.1 hkept.2, hxy.2⟩

section drawn

variable {fis : List FunctionInfo} {place : Place → VertexPtr} {h : Heap}
  {g : FunctionPtr} {functions : List FunctionPtr} {home : VertexPtr → FunctionPtr}
  {out : List DotLine} {R : Finset VertexPtr} {E : Finset EdgePtr}
  (hflow : ProgramFlow functions home h) (hg : g ∈ functions)
  (hd : PrintControlFlowGraphDot.Faithful h g out R E)

include hflow hg hd

/-- The index tells a place that is kept from all that is drawn. -/
theorem eq_of_vertexIndex {v : VertexPtr} {x : Place} (hv : v ∈ R)
    (hx : x ∈ keptPlaces fis g place h)
    (hindex : (h.vertex v).vertexIndex = dotIndex place h x) : v = place x :=
  (hflow.indexed g hg).injOn
    (PrintControlFlowGraphDot.home_of_drawn hflow hg ((hd.mem_vertices v).mp hv))
    (hflow.home_eq g hg _ hx.2) hindex

/-- The places that have a node are those whose vertex is drawn. -/
theorem inPicture_iff {x : Place} (hx : x ∈ keptPlaces fis g place h) :
    InPicture (dotIndex place h) out x ↔ place x ∈ R := by
  constructor
  · intro hpicture
    obtain ⟨text, location, color, shape, hline⟩ := hpicture
    obtain ⟨v, hv, hindex⟩ := hd.exists_isNode_iff.mp ⟨_, hline, decide_eq_true rfl⟩
    rw [← eq_of_vertexIndex hflow hg hd hv hx hindex]
    exact hv
  · intro hmem
    exact ⟨_, _, _, _, hd.mem_out_iff.mpr (.inr (.inl ⟨_, hmem, rfl⟩))⟩

/-- Drawn edges are those of the function. -/
theorem isIntraprocedural_of_mem {e : EdgePtr} (he : e ∈ E) :
    e ∈ (h.graph g).edges ∧ (h.edge e).edgeType.isIntraprocedural = true := by
  obtain ⟨hsource, hdrawn⟩ := (hd.mem_edges e).mp he
  have hhome :=
    PrintControlFlowGraphDot.home_of_drawn hflow hg ((hd.mem_vertices _).mp hsource)
  have hne := (hflow.allocated _ (by rw [hhome]; exact hg)).1
  refine ⟨(hflow.mem_edges g hg e).mpr ⟨hne, hhome⟩, ?_⟩
  rcases hflow.edgeType e hne with hintra | hcall | hreturn
  · exact hintra
  · exact absurd hcall (by simp [hdrawn.notCall])
  · exact absurd hreturn (by simp [hdrawn.notReturn])

variable (hl : FlowLinked fis place h g)

include hl

/-- A way of a place whose vertex is drawn is an edge of the drawing. -/
theorem exists_mem_edges {x y z : Place} {ty : EdgeType}
    (hx : x ∈ keptPlaces fis g place h) (hxR : place x ∈ R)
    (hxz : FlowsTo (statementsOf fis g) x ty z)
    (hover : ReflTransGen (PassedOver (statementsOf fis g) place h g) z y)
    (hy : place y ∈ (h.graph g).vertices) :
    ∃ e ∈ E, (h.edge e).source = place x ∧ (h.edge e).target = place y ∧
      (h.edge e).edgeType = ty ∧ ty.isImpossible = false := by
  have hreal := (hl.realEdge_iff x ty (place y) hx.1 hx.2).mpr ⟨z, y, hxz, hover, hy, rfl⟩
  obtain ⟨⟨e, he, hsource, rfl, htarget, hpossible⟩, hintra⟩ := hreal
  have hne := ((hflow.mem_edges g hg e).mp he).1
  have hhome := hflow.home_eq g hg _ hx.2
  have hhome' := hflow.home_eq g hg _ hy
  have hinside : (h.edge e).edgeType.isFunctionCall = false ∧
      (h.edge e).edgeType.isReturn = false := by
    cases hty : (h.edge e).edgeType <;> simp_all [EdgeType.isIntraprocedural,
      EdgeType.isFunctionCall, EdgeType.isReturn]
  have hentry : (h.vertex (h.edge e).target).statement ≠ .entry := by
    -- Only an impossible edge leads to ENTRY.
    intro hentry
    rw [htarget, hflow.statement_entry _ (by rw [hhome']; exact hg), hhome'] at hentry
    have hself := hflow.enter e hne hintra (by rw [hsource, hhome, htarget, hentry])
    rw [hself, hsource, hhome, hflow.entrySelf g hg] at hpossible
    exact Bool.noConfusion hpossible
  have hexit : (h.vertex (h.edge e).source).statement ≠ .exit := by
    -- Control does not go on from the end.
    intro hexit
    rw [hsource, hflow.statement_exit _ (by rw [hhome]; exact hg), hhome, ← hl.exit]
      at hexit
    have hx' := hl.injective x .exit hx.1 trivial hx.2 hexit
    rw [hx'] at hxz
    cases hxz
  refine ⟨e, (hd.mem_edges e).mpr ⟨?_, hinside.1, hinside.2, hentry, hexit⟩, hsource,
    htarget, rfl, hpossible⟩
  rw [hsource]
  exact hxR

/-- Behind a place that is drawn there is every place that control can come
to, with those that are left out in between. -/
theorem exists_drawn_before {q : Place}
    (hq : CanReach (statementsOf fis g) .entry q) :
    ∃ x ∈ keptPlaces fis g place h, place x ∈ R ∧
      (x = q ∨ ∃ ty z, FlowsTo (statementsOf fis g) x ty z ∧
        ReflTransGen (PassedOver (statementsOf fis g) place h g) z q) := by
  induction hq with
  | refl =>
      refine ⟨.entry, ⟨trivial, hl.entry_mem⟩, ?_, .inl rfl⟩
      rw [hl.entry, hd.mem_vertices]
  | @tail b c _ hstep ih =>
      obtain ⟨x, hx, hxR, hxb⟩ := ih
      obtain ⟨ty, hbc⟩ := hstep
      by_cases hb : place b ∈ (h.graph g).vertices
      · have hbR : place b ∈ R := by
          rcases hxb with rfl | ⟨ty', z, hxz, hover⟩
          · exact hxR
          · obtain ⟨e, he, -, htarget, -⟩ :=
              exists_mem_edges hflow hg hd hl hx hxR hxz hover hb
            rw [← htarget]
            exact hd.target_mem e he
        exact ⟨b, ⟨hbc.inRange.1, hb⟩, hbR, .inr ⟨ty, c, hbc, .refl⟩⟩
      · refine ⟨x, hx, hxR, .inr ?_⟩
        rcases hxb with rfl | ⟨ty', z, hxz, hover⟩
        · exact absurd hx.2 hb
        · exact ⟨ty', z, hxz, hover.tail ⟨hb, ty, hbc⟩⟩

/-- The vertices of the places that control can come to are drawn. -/
theorem place_mem_of_canReach {q : Place} (hq : q ∈ keptPlaces fis g place h)
    (hreach : CanReach (statementsOf fis g) .entry q) : place q ∈ R := by
  obtain ⟨x, hx, hxR, rfl | ⟨ty, z, hxz, hover⟩⟩ :=
    exists_drawn_before hflow hg hd hl hreach
  · exact hxR
  · obtain ⟨e, he, -, htarget, -⟩ := exists_mem_edges hflow hg hd hl hx hxR hxz hover hq.2
    rw [← htarget]
    exact hd.target_mem e he

/-- The black edges out of a place are the ways that control takes. -/
theorem edge_mem_out_iff {x : Place} (hx : x ∈ keptPlaces fis g place h)
    (hxR : place x ∈ R) {j : Nat} {label : String} :
    (∃ style, .edge (dotIndex place h x) j label "black" style ∈ out) ↔
      ∃ ty z y, ty.dotLabel = label ∧ FlowsTo (statementsOf fis g) x ty z ∧
        ReflTransGen (PassedOver (statementsOf fis g) place h g) z y ∧
          y ∈ keptPlaces fis g place h ∧ dotIndex place h y = j := by
  constructor
  · intro hline
    obtain ⟨style, hline⟩ := hline
    obtain ⟨e, he, heq⟩ := hd.exists_edge hline
    obtain ⟨hsource, htarget, hlabel, hcolor, -⟩ := DotLine.edge.inj heq
    obtain ⟨hmem, hintra⟩ := isIntraprocedural_of_mem hflow hg hd he
    have hx' := eq_of_vertexIndex hflow hg hd ((hd.mem_edges e).mp he).1 hx hsource
    have hpossible : (h.edge e).edgeType.isImpossible = false := by
      by_contra himpossible
      rw [EdgeType.dotSVGColor_of_isIntraprocedural hintra, if_pos (by simpa using
        himpossible)] at hcolor
      exact absurd hcolor (by decide)
    obtain ⟨z, y, hxz, hover, hy, hplace⟩ := (hl.realEdge_iff x _ _ hx.1 hx.2).mp
      ⟨⟨e, hmem, hx', rfl, rfl, hpossible⟩, hintra⟩
    have hreach : CanReach (statementsOf fis g) x y :=
      (PassedOver.canReach hover).head ⟨_, hxz⟩
    refine ⟨_, z, y, hlabel, hxz, hover, ⟨hreach.inRange hx.1, hy⟩, ?_⟩
    rw [dotIndex, hplace]
    exact htarget
  · intro hway
    obtain ⟨ty, z, y, rfl, hxz, hover, hy, rfl⟩ := hway
    obtain ⟨e, he, hsource, htarget, rfl, hpossible⟩ :=
      exists_mem_edges hflow hg hd hl hx hxR hxz hover hy.2
    obtain ⟨-, hintra⟩ := isIntraprocedural_of_mem hflow hg hd he
    have hline := hd.edgeLine_mem he
    rw [WriteGraphvizDotFileVisitor.edgeLine, hsource, htarget,
      EdgeType.dotSVGColor_of_isIntraprocedural hintra, hpossible] at hline
    exact ⟨_, hline⟩

/-- Without gray edges only what control can come to is drawn. -/
theorem exists_place_of_ungrayed
    (hgray : ∀ i j label style, .edge i j label "gray" style ∉ out) {v : VertexPtr}
    (hv : v ∈ R) : ∃ x ∈ keptPlaces fis g place h,
      CanReach (statementsOf fis g) .entry x ∧ place x = v := by
  have hreach := (hd.mem_vertices v).mp hv
  clear hv
  induction hreach with
  | refl => exact ⟨.entry, ⟨trivial, hl.entry_mem⟩, .refl, hl.entry⟩
  | tail _ hstep ih =>
      obtain ⟨x, hx, hxreach, rfl⟩ := ih
      obtain ⟨e, hout, hdrawn, rfl⟩ := hstep
      have hsource := ((hflow.consistent.mem_outEdges _ e).mp hout).1
      have he : e ∈ E := (hd.mem_edges e).mpr
        ⟨by rw [hsource]; exact place_mem_of_canReach hflow hg hd hl hx hxreach, hdrawn⟩
      obtain ⟨hmem, hintra⟩ := isIntraprocedural_of_mem hflow hg hd he
      have hpossible : (h.edge e).edgeType.isImpossible = false := by
        by_contra himpossible
        have hline := hd.edgeLine_mem he
        rw [WriteGraphvizDotFileVisitor.edgeLine,
          EdgeType.dotSVGColor_of_isIntraprocedural hintra, if_pos (by simpa using
            himpossible)] at hline
        exact hgray _ _ _ _ hline
      obtain ⟨y, hxy, hyrange, hy, hplace⟩ := hl.exists_canReach hx.1 hx.2
        ⟨e, hmem, hsource, rfl, rfl, hpossible⟩ hintra
      exact ⟨y, ⟨hyrange, hy⟩, hxreach.trans hxy, hplace⟩

end drawn

/-- The visit of `PrintControlFlowGraphDot` ends with a picture of the
function's statement list. -/
theorem printControlFlowGraphDot_pictures {fis : List FunctionInfo} {p : Program}
    (hp : LinkedFrom fis p) {g : FunctionPtr} (hg : g ∈ p.functions)
    (hw : WellLabelled (statementsOf fis g)) (o : SetOrder) :
    ∃ t, Reaches (PrintControlFlowGraphDot.step p.heap o)
        (PrintControlFlowGraphDot.start p.heap o g) t ∧
      PrintControlFlowGraphDot.step p.heap o t = none ∧ t.stop = none ∧
        ∃ kept index, Pictures fis g kept index t.visitor := by
  obtain ⟨home, hflow, -⟩ := hp.linkedProgram.flow
  obtain ⟨place, hl, -⟩ := hp.exists_flowLinked hg hw
  obtain ⟨t, ht, hend, hstop, R, E, hd⟩ := PrintControlFlowGraphDot.exists_faithful
    (o := o) hflow hg (hp.linkedProgram.owningFunction_entry hg)
  refine ⟨t, ht, hend, hstop, keptPlaces fis g place p.heap, dotIndex place p.heap, ?_⟩
  exact
    { header := fun fi hfi => by
        obtain ⟨lines, hout, -⟩ := hd.lines
        rw [hout, (hp.namedAfter g fi hfi).1]
        rfl
      inRange := fun x hx => hx.1
      entry_kept := ⟨trivial, hl.entry_mem⟩
      exit_kept := ⟨trivial, hl.exit_mem⟩
      statement_kept := fun i st hi hkind =>
        ⟨Place.inRange_of_getElem? hi, hl.statement_mem i st hi hkind⟩
      injOn := fun x hx y hy hxy => hl.injective x y hx.1 hy.1 hx.2
        ((hflow.indexed g hg).injOn (hflow.home_eq g hg _ hx.2)
          (hflow.home_eq g hg _ hy.2) hxy)
      entry_index := by
        rw [dotIndex, hl.entry]
        exact hd.entryId
      exit_index := by
        rw [dotIndex, hl.exit]
        exact hd.exitId
      node := fun x hx hpicture st hst => by
        rw [inPicture_iff hflow hg hd hx] at hpicture
        obtain ⟨hparsed, hstatement⟩ := hl.statement_of_statementAt (hp.isParsed g) hx.2 hst
        refine ⟨(p.heap.vertex (place x)).location, ?_⟩
        rw [dotIndex, hd.filter_isNode hpicture, nodeLine_eq hp.namedAfter hparsed hstatement]
      reached := fun x hx hreach => by
        rw [inPicture_iff hflow hg hd hx]
        exact place_mem_of_canReach hflow hg hd hl hx hreach
      edge_iff := fun x hx hpicture j label => by
        rw [inPicture_iff hflow hg hd hx] at hpicture
        rw [skippedOver_eq]
        exact edge_mem_out_iff hflow hg hd hl hx hpicture
      edges := fun i j label color style hline => by
        obtain ⟨e, he, heq⟩ := hd.exists_edge hline
        obtain ⟨rfl, rfl, -, rfl, -⟩ := DotLine.edge.inj heq
        obtain ⟨-, hintra⟩ := isIntraprocedural_of_mem hflow hg hd he
        refine ⟨?_, hd.exists_isNode_iff.mpr ⟨_, ((hd.mem_edges e).mp he).1, rfl⟩,
          hd.exists_isNode_iff.mpr ⟨_, hd.target_mem e he, rfl⟩⟩
        rw [EdgeType.dotSVGColor_of_isIntraprocedural hintra]
        split_ifs
        · exact .inr rfl
        · exact .inl rfl
      ungrayed := fun hgray i hnode => by
        obtain ⟨v, hv, rfl⟩ := hd.exists_isNode_iff.mp hnode
        obtain ⟨x, hx, hreach, rfl⟩ :=
          exists_place_of_ungrayed hflow hg hd hl hgray hv
        exact ⟨x, hx, hreach, rfl⟩ }

theorem printControlFlowGraphDot_pictures_pollLoop :
    ∃ p, Program.parse blankMemory .ascending pollLoop = .ok p ∧
      ∃ t, Reaches (PrintControlFlowGraphDot.step p.heap .ascending)
          (PrintControlFlowGraphDot.start p.heap .ascending 1) t ∧
        PrintControlFlowGraphDot.step p.heap .ascending t = none ∧ t.stop = none ∧
          ∃ kept index, Pictures pollLoop 1 kept index t.visitor := by
  obtain ⟨p, hrun, hfunctions⟩ := pollLoop_parse
  have hp : LinkedFrom pollLoop p := linkedFrom_of_parse (by decide) hrun
  exact ⟨p, hrun, printControlFlowGraphDot_pictures hp (by rw [hfunctions]; decide)
    (by decide) .ascending⟩

end CoFlo.Ports
