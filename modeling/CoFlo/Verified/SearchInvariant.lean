import CoFlo.Verified.LeastWalk

/-!
# What a depth-first search has found out

The invariant of the search, and its consequences for a finished run: the tree
walk to every discovered vertex is its search path, an edge is reported as a
back edge exactly when its target lies on the search path of its source, and
along every other edge the target is finished before the source.

The argument for search paths rests on `Spine`.  It goes down the stack and
remembers, for each frame, a set of finished vertices that held everything
reachable through the edges examined before the one the search is in.  A walk
that turns off into one of these edges cannot come back to the stack without
meeting it, so it ends in a finished vertex.
-/

namespace CoFlo.Verified.DepthFirstSearch

open CoFlo.Verified.StepMachine

variable {V E : Type*} {G : Incidence V E}

/-! ## What only grows -/

/-- Later states of a run know more than earlier ones. -/
structure Grows (s t : State V E) : Prop where
  discovered : ∀ v, s.color v ≠ .white → t.color v ≠ .white
  black : ∀ v, s.color v = .black → t.color v = .black
  trace : ∀ ev ∈ s.trace, ev ∈ t.trace

theorem Step.grows [DecidableEq V] {s t : State V E} (h : Step G s t) : Grows s t := by
  have happend : ∀ (ev : Event V E), ∀ ev' ∈ s.trace, ev' ∈ s.trace ++ [ev] :=
    fun _ _ hev => List.mem_append_left _ hev
  cases h with
  | @treeEdge u e rem rest hstack hcolor =>
      refine ⟨fun v hv => ne_white_update hv (by decide), fun v hv => ?_,
        happend _⟩
      have hne : v ≠ G.target e := by
        rintro rfl
        rw [hcolor] at hv
        exact absurd hv (by decide)
      dsimp only
      rw [Function.update_of_ne hne, hv]
  | backEdge => exact ⟨fun _ hv => hv, fun _ hv => hv, happend _⟩
  | forwardOrCrossEdge => exact ⟨fun _ hv => hv, fun _ hv => hv, happend _⟩
  | @finishVertex u rest hstack =>
      refine ⟨fun v hv => ne_white_update hv (by decide), fun v hv => ?_,
        happend _⟩
      dsimp only
      rw [Function.update_apply]
      split_ifs
      · rfl
      · exact hv
  | @startRoot r roots hstack hroots hcolor =>
      refine ⟨fun v hv => ne_white_update hv (by decide), fun v hv => ?_,
        fun _ hev => hev⟩
      have hne : v ≠ r := by
        rintro rfl
        rw [hcolor] at hv
        exact absurd hv (by decide)
      dsimp only
      rw [Function.update_of_ne hne, hv]
  | skipRoot => exact ⟨fun _ hv => hv, fun _ hv => hv, fun _ hev => hev⟩

/-- An examined edge that is done with: a back edge, or one with a finished
target. -/
def Settled (G : Incidence V E) (s : State V E) (e : E) : Prop :=
  s.color (G.target e) ≠ .white ∧
    (.backEdge e ∈ s.trace ∨
      s.color (G.target e) = .black ∧
        (.treeEdge e ∈ s.trace ∨ .forwardOrCrossEdge e ∈ s.trace))

theorem Settled.mono {s t : State V E} (hst : Grows s t) {e : E}
    (h : Settled G s e) : Settled G t e := by
  refine ⟨hst.discovered _ h.1, ?_⟩
  rcases h.2 with hback | ⟨hblack, htree | hcross⟩
  · exact .inl (hst.trace _ hback)
  · exact .inr ⟨hst.black _ hblack, .inl (hst.trace _ htree)⟩
  · exact .inr ⟨hst.black _ hblack, .inr (hst.trace _ hcross)⟩

/-! ## The spine of the stack -/

/-- The frames of the stack hang together by the tree walk `p` from the root
`r` to the top.  `D` holds the vertices that were finished when the upper one
of two frames was pushed. -/
inductive Spine (G : Incidence V E) (s : State V E) (r : V) :
    List (V × List E) → List E → Prop where
  | root (rem : List E) : Spine G s r [(r, rem)] []
  | push {u w : V} {rem remTop done : List E} {rest : List (V × List E)}
      {p : List E} {e : E} {D : V → Prop}
      (hrest : Spine G s r ((u, rem) :: rest) p)
      (hout : G.out u = done ++ e :: rem) (htarget : G.target e = w)
      (htree : .treeEdge e ∈ s.trace) (hsettled : ∀ d ∈ done, Settled G s d)
      (hblack : ∀ x, D x → s.color x = .black)
      (hdone : ∀ d ∈ done,
        D (G.target d) ∨ G.target d ∈ walkVertices G r p)
      (hclosed : ∀ x, D x → ∀ d ∈ G.out x,
        D (G.target d) ∨ G.target d ∈ walkVertices G r p) :
      Spine G s r ((w, remTop) :: (u, rem) :: rest) (p ++ [e])

namespace Spine

variable {s t : State V E} {r : V} {stack : List (V × List E)} {p : List E}

theorem mono (hst : Grows s t) (h : Spine G s r stack p) :
    Spine G t r stack p := by
  induction h with
  | root rem => exact .root rem
  | push _ hout htarget htree hsettled hblack hdone hclosed ih =>
      exact .push ih hout htarget (hst.trace _ htree)
        (fun d hd => (hsettled d hd).mono hst)
        (fun x hx => hst.black x (hblack x hx)) hdone hclosed

theorem replaceTop {w : V} {rem rem' : List E} {rest : List (V × List E)}
    (h : Spine G s r ((w, rem) :: rest) p) :
    Spine G s r ((w, rem') :: rest) p := by
  cases h with
  | root rem => exact .root rem'
  | push hrest hout htarget htree hsettled hblack hdone hclosed =>
      exact .push hrest hout htarget htree hsettled hblack hdone hclosed

theorem isWalk (h : Spine G s r stack p) {w : V} {rem : List E}
    {rest : List (V × List E)} (hstack : stack = (w, rem) :: rest) :
    IsWalk G r p w := by
  induction h generalizing w rem rest with
  | root rem' =>
      obtain ⟨rfl, _⟩ := Prod.mk.inj (List.cons.inj hstack).1
      rfl
  | @push u w' rem' remTop done rest' p e D _ hout htarget _ _ _ _ _ ih =>
      obtain ⟨rfl, _⟩ := Prod.mk.inj (List.cons.inj hstack).1
      rw [← htarget]
      exact (ih rfl).snoc (by simp [hout])

/-- The vertices of the tree walk are those of the stack. -/
theorem walkVertices_eq (h : Spine G s r stack p) :
    walkVertices G r p = (stack.map Prod.fst).reverse := by
  induction h with
  | root rem => rfl
  | push _ _ htarget _ _ _ _ _ ih =>
      rw [walkVertices_append, ih, List.map_cons, List.reverse_cons]
      simp [htarget]

/-- A simple walk that turns off before the tree walk does ends in a finished
vertex. -/
theorem black_of_lexLt (hnodup : ∀ v, (G.out v).Nodup)
    (h : Spine G s r stack p) {q : List E} {x : V} (hq : SimpleWalk G r q x)
    (hlt : LexLt G r q p) : s.color x = .black := by
  induction h with
  | root rem =>
      obtain ⟨w, c, a, b, q', p', _, hp, _, _⟩ := hlt
      exact absurd hp (by simp)
  | @push u w rem remTop done rest p e D hrest hout htarget _ _ hblack hdone
      hclosed ih =>
      obtain ⟨v, c, a, b, q', p', rfl, hp, hc, hbefore⟩ := hlt
      -- Either the walks part before the last tree edge, or at it.
      rcases List.eq_nil_or_concat p' with rfl | ⟨p'', z, rfl⟩
      · obtain ⟨rfl, hb⟩ := List.append_inj' hp rfl
        obtain rfl := List.singleton_injective hb
        obtain rfl := hc.unique (hrest.isWalk rfl)
        -- The edge taken instead was examined before.
        have ha : a ∈ done := by
          obtain ⟨l₁, l₂, hl, ha⟩ := hbefore
          have hnodup' := hnodup v
          rw [hout] at hl
          have hsplit : done = l₁ := by
            rw [hout] at hnodup'
            have hnotDone : e ∉ done := fun hmem =>
              (List.nodup_append.mp hnodup').2.2 e hmem e
                List.mem_cons_self rfl
            have hnotL : e ∉ l₁ := by
              rw [hl] at hnodup'
              exact fun hmem => (List.nodup_append.mp hnodup').2.2 e hmem e
                List.mem_cons_self rfl
            rcases List.append_eq_append_iff.mp hl with
              ⟨d, hd, hd'⟩ | ⟨d, hd, hd'⟩
            · cases d with
              | nil => simpa using hd.symm
              | cons y d =>
                  obtain rfl := (List.cons.inj hd').1
                  exact absurd (by simp [hd]) hnotL
            · cases d with
              | nil => simpa using hd
              | cons y d =>
                  obtain rfl := (List.cons.inj hd').1
                  exact absurd (by simp [hd]) hnotDone
          rwa [hsplit]
        -- From there on the walk avoids the tree walk and stays in `D`.
        have havoid : ∀ y ∈ (a :: q').map G.target,
            y ∉ walkVertices G r p := by
          intro y hy hmem
          have hvertices := hq.2
          rw [walkVertices_append, List.nodup_append] at hvertices
          exact hvertices.2.2 y hmem y hy rfl
        have hstay : ∀ (d : List E) (y : V), D y → IsWalk G y d x →
            (∀ z ∈ d.map G.target, z ∉ walkVertices G r p) → D x := by
          intro d
          induction d with
          | nil =>
              intro y hy hwalk _
              have hyx : y = x := hwalk
              exact hyx ▸ hy
          | cons f d ihd =>
              intro y hy hwalk havoid'
              have hf := (hclosed y hy f hwalk.1).resolve_right
                (havoid' _ List.mem_cons_self)
              exact ihd _ hf hwalk.2 fun z hz =>
                havoid' z (List.mem_cons_of_mem _ hz)
        obtain ⟨v', hv', hrestWalk⟩ := isWalk_append_iff.mp hq.1
        have hDa := (hdone a ha).resolve_right (havoid _ List.mem_cons_self)
        exact hblack x (hstay q' _ hDa hrestWalk.2 fun z hz =>
          havoid z (List.mem_cons_of_mem _ hz))
      · have hp' : p = c ++ b :: p'' := by
          have hconcat : p ++ [e] = (c ++ b :: p'') ++ [z] := by
            rw [hp]
            simp
          exact (List.append_inj' hconcat rfl).1
        exact ih ⟨v, c, a, b, q', p'', rfl, hp', hc, hbefore⟩

end Spine

theorem Spine.tree {s : State V E} {r : V} {stack : List (V × List E)}
    {p : List E} (h : Spine G s r stack p) : ∀ e ∈ p, .treeEdge e ∈ s.trace := by
  induction h with
  | root rem => exact fun e he => absurd he List.not_mem_nil
  | push _ _ _ htree _ _ _ _ ih =>
      intro e he
      rcases List.mem_append.mp he with he | he
      · exact ih e he
      · rw [List.mem_singleton.mp he]
        exact htree

/-- Every out-edge has one source and is listed there once. -/
structure Incidence.Proper (G : Incidence V E) : Prop where
  nodup : ∀ v, (G.out v).Nodup
  source_unique : ∀ u v e, e ∈ G.out u → e ∈ G.out v → u = v

/-- The vertices known when a root was started: the earlier roots and all that
they reach. -/
structure ClosedBlack (G : Incidence V E) (s : State V E) (pre : List V)
    (D : V → Prop) : Prop where
  black : ∀ x, D x → s.color x = .black
  roots : ∀ q ∈ pre, D q
  closed : ∀ x, D x → ∀ e ∈ G.out x, D (G.target e)

theorem ClosedBlack.of_isWalk {s : State V E} {pre : List V} {D : V → Prop}
    (h : ClosedBlack G s pre D) {q x : V} {d : List E} (hq : D q)
    (hwalk : IsWalk G q d x) : D x := by
  induction d generalizing q with
  | nil =>
      have hqx : q = x := hwalk
      exact hqx ▸ hq
  | cons e d ih => exact ih (h.closed q hq e hwalk.1) hwalk.2

/-- The tree walk to the top of the stack is its search path. -/
theorem searchPath_of_spine (hG : G.Proper) {s : State V E}
    {roots pre post : List V} {r u : V} {rem p : List E}
    {rest : List (V × List E)} {D : V → Prop} (hroots : roots = pre ++ r :: post)
    (hspine : Spine G s r ((u, rem) :: rest) p) (hD : ClosedBlack G s pre D)
    (hu : s.color u = .gray)
    (hnodup : (((u, rem) :: rest).map Prod.fst).Nodup) :
    SearchPath G roots r p u := by
  have hnotBlack : s.color u ≠ .black := by
    rw [hu]
    decide
  refine ⟨pre, post, hroots, fun q hq d hwalk => ?_,
    ⟨hspine.isWalk rfl, ?_⟩, fun q hq hlt => ?_⟩
  · exact hnotBlack (hD.black u (hD.of_isWalk (hD.roots q hq) hwalk))
  · rw [hspine.walkVertices_eq, List.nodup_reverse]
    exact hnodup
  · exact hnotBlack (hspine.black_of_lexLt hG.nodup hq hlt)

/-- An edge whose target lies on the search path of its source. -/
def IsBackEdge (G : Incidence V E) (roots : List V) (e : E) : Prop :=
  ∃ u r p, e ∈ G.out u ∧ SearchPath G roots r p u ∧
    G.target e ∈ walkVertices G r p

/-- An edge whose target does not lie on the search path of its source. -/
def IsForwardEdge (G : Incidence V E) (roots : List V) (e : E) : Prop :=
  ∃ u r p, e ∈ G.out u ∧ SearchPath G roots r p u ∧
    G.target e ∉ walkVertices G r p

theorem IsForwardEdge.not_isBackEdge (hG : G.Proper) {roots : List V} {e : E}
    (hf : IsForwardEdge G roots e) : ¬ IsBackEdge G roots e := by
  rintro ⟨u', r', p', he', hpath', hmem⟩
  obtain ⟨u, r, p, he, hpath, hnotMem⟩ := hf
  obtain rfl := hG.source_unique u u' e he he'
  obtain ⟨rfl, rfl⟩ := hpath.unique hpath'
  exact hnotMem hmem

/-- The finished vertices, in the order in which they were finished. -/
def finished (s : State V E) : List V :=
  s.trace.filterMap fun
    | .finishVertex v => some v
    | _ => none

/-! ## The invariant -/

/-- What holds in every state of a search from `roots`. -/
structure Inv (G : Incidence V E) (roots : List V) (s : State V E) : Prop where
  gray_iff : ∀ v, s.color v = .gray ↔ v ∈ s.stack.map Prod.fst
  nodup : (s.stack.map Prod.fst).Nodup
  top : ∀ u rem rest, s.stack = (u, rem) :: rest →
    ∃ done, G.out u = done ++ rem ∧ ∀ e ∈ done, Settled G s e
  black : ∀ x, s.color x = .black → ∀ e ∈ G.out x, Settled G s e
  idle : s.stack = [] →
    ∃ pre, roots = pre ++ s.roots ∧ ∀ r ∈ pre, s.color r = .black
  busy : s.stack ≠ [] → ∃ pre r p D, roots = pre ++ r :: s.roots ∧
    Spine G s r s.stack p ∧ ClosedBlack G s pre D
  found : ∀ v, s.color v ≠ .white → ∃ r p, SearchPath G roots r p v ∧
    ∀ e ∈ p, .treeEdge e ∈ s.trace
  treeEdge : ∀ e, .treeEdge e ∈ s.trace → IsForwardEdge G roots e
  forwardOrCrossEdge : ∀ e, .forwardOrCrossEdge e ∈ s.trace →
    IsForwardEdge G roots e
  backEdge : ∀ e, .backEdge e ∈ s.trace → IsBackEdge G roots e
  mem_finished : ∀ v, v ∈ finished s ↔ s.color v = .black
  finishOrder : ∀ l₁ x l₂, finished s = l₁ ++ x :: l₂ → ∀ e ∈ G.out x,
    .backEdge e ∈ s.trace ∨ G.target e ∈ l₁

theorem Inv.init (roots : List V) :
    Inv G roots (DepthFirstSearch.init roots : State V E) where
  gray_iff v := by simp [DepthFirstSearch.init]
  nodup := List.nodup_nil
  top u rem rest hstack := absurd hstack (by simp [DepthFirstSearch.init])
  black x hx := absurd hx (by simp [DepthFirstSearch.init])
  idle _ := ⟨[], rfl, fun r hr => absurd hr List.not_mem_nil⟩
  busy hstack := absurd rfl hstack
  found v hv := absurd rfl hv
  treeEdge e he := absurd he List.not_mem_nil
  forwardOrCrossEdge e he := absurd he List.not_mem_nil
  backEdge e he := absurd he List.not_mem_nil
  mem_finished v := by simp [DepthFirstSearch.init, finished]
  finishOrder l₁ x l₂ h := absurd h (by
    simp [DepthFirstSearch.init, finished])

section inv

variable {roots : List V} {s : State V E}

/-- The top of the stack is gray, and its tree walk is its search path. -/
theorem Inv.searchPath_top (hG : G.Proper) (h : Inv G roots s) {u : V}
    {rem : List E} {rest : List (V × List E)}
    (hstack : s.stack = (u, rem) :: rest) :
    ∃ r p, SearchPath G roots r p u ∧
      walkVertices G r p = (s.stack.map Prod.fst).reverse ∧
      ∀ e ∈ p, .treeEdge e ∈ s.trace := by
  obtain ⟨pre, r, p, D, hroots, hspine, hD⟩ := h.busy (by simp [hstack])
  have hgray : s.color u = .gray := (h.gray_iff u).mpr (by simp [hstack])
  have hvertices := hspine.walkVertices_eq
  have htree := hspine.tree
  rw [hstack] at hspine
  exact ⟨r, p, searchPath_of_spine hG hroots hspine hD hgray
    (hstack ▸ h.nodup), hvertices, htree⟩

/-- Every colour but white is gray or black. -/
theorem gray_or_black {c : Color} (hc : c ≠ .white) : c = .gray ∨ c = .black := by
  cases c with
  | white => exact absurd rfl hc
  | gray => exact .inl rfl
  | black => exact .inr rfl

/-- A discovered vertex is finished or on the stack. -/
theorem Inv.black_or_mem (h : Inv G roots s) {v : V}
    (hv : s.color v ≠ .white) :
    s.color v = .black ∨ v ∈ s.stack.map Prod.fst := by
  rcases gray_or_black hv with hgray | hblack
  · exact .inr ((h.gray_iff v).mp hgray)
  · exact .inl hblack

theorem finished_append (ev : Event V E) :
    finished { s with trace := s.trace ++ [ev] } =
      finished s ++ (match ev with | .finishVertex v => [v] | _ => []) := by
  simp only [finished, List.filterMap_append]
  cases ev <;> rfl

/-- Examining an edge whose target is discovered already. -/
theorem Inv.advance (hG : G.Proper) (h : Inv G roots s) {u : V} {e : E}
    {rem : List E} {rest : List (V × List E)} {ev : Event V E}
    (hstack : s.stack = (u, e :: rem) :: rest)
    (hev : (ev = .backEdge e ∧ s.color (G.target e) = .gray) ∨
      (ev = .forwardOrCrossEdge e ∧ s.color (G.target e) = .black)) :
    Inv G roots
      { s with stack := (u, rem) :: rest, trace := s.trace ++ [ev] } := by
  have hgrows : Grows s
      { s with stack := (u, rem) :: rest, trace := s.trace ++ [ev] } :=
    ⟨fun _ hv => hv, fun _ hv => hv, fun _ hmem => List.mem_append_left _ hmem⟩
  have hfst : ((u, rem) :: rest).map Prod.fst = s.stack.map Prod.fst := by
    simp [hstack]
  obtain ⟨done, hout, hdone⟩ := h.top u (e :: rem) rest hstack
  have heout : e ∈ G.out u := by simp [hout]
  obtain ⟨r, p, hpath, hvertices, _⟩ := h.searchPath_top hG hstack
  have hmemIff : G.target e ∈ walkVertices G r p ↔
      s.color (G.target e) = .gray := by
    rw [hvertices, List.mem_reverse, h.gray_iff]
  have hfin : finished
      { s with stack := (u, rem) :: rest, trace := s.trace ++ [ev] } =
        finished s := by
    refine (finished_append ev).trans ?_
    rcases hev with ⟨rfl, _⟩ | ⟨rfl, _⟩ <;> exact List.append_nil _
  exact
    { gray_iff := fun v => by rw [hfst]; exact h.gray_iff v
      nodup := by rw [hfst]; exact h.nodup
      top := fun u' rem' rest' hstack' => by
        obtain ⟨hframe, rfl⟩ := List.cons.inj hstack'
        obtain ⟨rfl, rfl⟩ := Prod.mk.inj hframe
        refine ⟨done ++ [e], by simp [hout], fun d hd => ?_⟩
        rcases List.mem_append.mp hd with hd | hd
        · exact (hdone d hd).mono hgrows
        · rw [List.mem_singleton.mp hd]
          rcases hev with ⟨rfl, hc⟩ | ⟨rfl, hc⟩
          · exact ⟨by rw [hc]; decide, .inl (by simp)⟩
          · exact ⟨by rw [hc]; decide, .inr ⟨hc, .inr (by simp)⟩⟩
      black := fun x hx d hd => (h.black x hx d hd).mono hgrows
      idle := fun hnil => absurd hnil (by simp)
      busy := fun _ => by
        obtain ⟨pre, r', p', D, hroots, hspine, hD⟩ := h.busy (by simp [hstack])
        rw [hstack] at hspine
        exact ⟨pre, r', p', D, hroots, (hspine.mono hgrows).replaceTop,
          hD.black, hD.roots, hD.closed⟩
      found := fun v hv => by
        obtain ⟨r', p', hpath', htree⟩ := h.found v hv
        exact ⟨r', p', hpath', fun d hd => List.mem_append_left _ (htree d hd)⟩
      treeEdge := fun d hd => by
        rcases List.mem_append.mp hd with hd | hd
        · exact h.treeEdge d hd
        · rcases hev with ⟨rfl, _⟩ | ⟨rfl, _⟩ <;> simp at hd
      forwardOrCrossEdge := fun d hd => by
        rcases List.mem_append.mp hd with hd | hd
        · exact h.forwardOrCrossEdge d hd
        · rcases hev with ⟨rfl, _⟩ | ⟨rfl, hc⟩
          · simp at hd
          · obtain rfl : d = e := by simpa using hd
            refine ⟨u, r, p, heout, hpath, ?_⟩
            rw [hmemIff, hc]
            decide
      backEdge := fun d hd => by
        rcases List.mem_append.mp hd with hd | hd
        · exact h.backEdge d hd
        · rcases hev with ⟨rfl, hc⟩ | ⟨rfl, _⟩
          · obtain rfl : d = e := by simpa using hd
            exact ⟨u, r, p, heout, hpath, hmemIff.mpr hc⟩
          · simp at hd
      mem_finished := fun v => by rw [hfin]; exact h.mem_finished v
      finishOrder := fun l₁ x l₂ heq d hd => by
        rw [hfin] at heq
        exact (h.finishOrder l₁ x l₂ heq d hd).imp_left
          (List.mem_append_left _) }

variable [DecidableEq V]

/-- Descending along a tree edge. -/
theorem Inv.descend (hG : G.Proper) (h : Inv G roots s) {u : V} {e : E}
    {rem : List E} {rest : List (V × List E)}
    (hstack : s.stack = (u, e :: rem) :: rest)
    (hwhite : s.color (G.target e) = .white) :
    Inv G roots
      { s with
        color := Function.update s.color (G.target e) .gray
        stack := (G.target e, G.out (G.target e)) :: (u, rem) :: rest
        trace := s.trace ++ [Event.treeEdge e] } := by
  obtain ⟨t, ht⟩ : ∃ t, t =
      { s with
        color := Function.update s.color (G.target e) .gray
        stack := (G.target e, G.out (G.target e)) :: (u, rem) :: rest
        trace := s.trace ++ [Event.treeEdge e] } := ⟨_, rfl⟩
  have hgrows : Grows s t := ht ▸ (Step.treeEdge hstack hwhite).grows
  have hcolor : ∀ v, t.color v =
      if v = G.target e then .gray else s.color v := fun v => by
    rw [ht]
    exact Function.update_apply _ _ _ _
  have htstack : t.stack =
      (G.target e, G.out (G.target e)) :: (u, rem) :: rest := by rw [ht]
  have htrace : t.trace = s.trace ++ [.treeEdge e] := by rw [ht]
  have htroots : t.roots = s.roots := by rw [ht]
  have hmap : t.stack.map Prod.fst = G.target e :: s.stack.map Prod.fst := by
    simp [htstack, hstack]
  have hnotMem : G.target e ∉ s.stack.map Prod.fst := by
    rw [← h.gray_iff, hwhite]
    decide
  obtain ⟨done, hout, hdone⟩ := h.top u (e :: rem) rest hstack
  have heout : e ∈ G.out u := by simp [hout]
  obtain ⟨r, p, hpath, hvertices, _⟩ := h.searchPath_top hG hstack
  have hfin : finished t = finished s := by
    rw [ht]
    exact (finished_append (s := s) (.treeEdge e)).trans (List.append_nil _)
  have hblack : ∀ v, t.color v = .black ↔ s.color v = .black := by
    intro v
    rw [hcolor]
    split_ifs with hv
    · rw [hv, hwhite]
      decide
    · rfl
  have hnodup : (t.stack.map Prod.fst).Nodup := by
    rw [hmap]
    exact List.nodup_cons.mpr ⟨hnotMem, h.nodup⟩
  -- The frame below remembers all that is finished now.
  have hbusy : ∃ pre r p D, roots = pre ++ r :: t.roots ∧
      Spine G t r t.stack p ∧ ClosedBlack G t pre D := by
    obtain ⟨pre, r, p, D, hroots, hspine, hD⟩ := h.busy (by simp [hstack])
    have hmem : ∀ d, Settled G s d → s.color (G.target d) = .black ∨
        G.target d ∈ walkVertices G r p := by
      intro d hd
      rw [hspine.walkVertices_eq, List.mem_reverse]
      exact h.black_or_mem hd.1
    rw [hstack] at hspine
    refine ⟨pre, r, p ++ [e], D, by rw [htroots]; exact hroots, ?_,
      fun x hx => hgrows.black x (hD.black x hx), hD.roots, hD.closed⟩
    rw [htstack]
    exact .push (D := fun x => s.color x = .black)
      (hspine.replaceTop.mono hgrows) hout rfl (by simp [htrace])
      (fun d hd => (hdone d hd).mono hgrows)
      (fun x hx => hgrows.black x hx) (fun d hd => hmem d (hdone d hd))
      (fun x hx d hd => hmem d (h.black x hx d hd))
  have hfound : ∀ v, t.color v ≠ .white → ∃ r p, SearchPath G roots r p v ∧
      ∀ d ∈ p, .treeEdge d ∈ t.trace := by
    intro v hv
    by_cases hve : v = G.target e
    · obtain ⟨pre, r', p', D, hroots, hspine, hD⟩ := hbusy
      have htree := hspine.tree
      rw [htstack] at hspine
      refine ⟨r', p', ?_, htree⟩
      rw [hve]
      refine searchPath_of_spine hG hroots hspine hD ?_ (htstack ▸ hnodup)
      rw [hcolor, if_pos rfl]
    · rw [hcolor, if_neg hve] at hv
      obtain ⟨r', p', hpath', htree⟩ := h.found v hv
      exact ⟨r', p', hpath', fun d hd => hgrows.trace _ (htree d hd)⟩
  rw [← ht]
  exact
    { gray_iff := fun v => by
        rw [hcolor, hmap, List.mem_cons]
        split_ifs with hv
        · simp [hv]
        · simp [hv, h.gray_iff]
      nodup := hnodup
      top := fun u' rem' rest' hstack' => by
        rw [htstack] at hstack'
        obtain ⟨hframe, _⟩ := List.cons.inj hstack'
        obtain ⟨rfl, rfl⟩ := Prod.mk.inj hframe
        exact ⟨[], rfl, fun d hd => absurd hd List.not_mem_nil⟩
      black := fun x hx d hd =>
        (h.black x ((hblack x).mp hx) d hd).mono hgrows
      idle := fun hnil => absurd hnil (by simp [htstack])
      busy := fun _ => hbusy
      found := hfound
      treeEdge := fun d hd => by
        rw [htrace] at hd
        rcases List.mem_append.mp hd with hd | hd
        · exact h.treeEdge d hd
        · obtain rfl : d = e := by simpa using hd
          refine ⟨u, r, p, heout, hpath, ?_⟩
          rw [hvertices, List.mem_reverse]
          exact hnotMem
      forwardOrCrossEdge := fun d hd => by
        rw [htrace] at hd
        rcases List.mem_append.mp hd with hd | hd
        · exact h.forwardOrCrossEdge d hd
        · simp at hd
      backEdge := fun d hd => by
        rw [htrace] at hd
        rcases List.mem_append.mp hd with hd | hd
        · exact h.backEdge d hd
        · simp at hd
      mem_finished := fun v => by
        rw [hfin, hblack]
        exact h.mem_finished v
      finishOrder := fun l₁ x l₂ heq d hd => by
        rw [hfin] at heq
        exact (h.finishOrder l₁ x l₂ heq d hd).imp_left (hgrows.trace _) }

/-- Finishing the top vertex. -/
theorem Inv.finish (h : Inv G roots s) {u : V} {rest : List (V × List E)}
    (hstack : s.stack = (u, []) :: rest) :
    Inv G roots
      { s with
        color := Function.update s.color u .black
        stack := rest
        trace := s.trace ++ [Event.finishVertex u] } := by
  obtain ⟨t, ht⟩ : ∃ t, t =
      { s with
        color := Function.update s.color u .black
        stack := rest
        trace := s.trace ++ [Event.finishVertex u] } := ⟨_, rfl⟩
  have hgrows : Grows s t :=
    ht ▸ (Step.finishVertex (G := G) hstack).grows
  have hcolor : ∀ v, t.color v = if v = u then .black else s.color v :=
    fun v => by
      rw [ht]
      exact Function.update_apply _ _ _ _
  have htstack : t.stack = rest := by rw [ht]
  have htrace : t.trace = s.trace ++ [.finishVertex u] := by rw [ht]
  have htroots : t.roots = s.roots := by rw [ht]
  have hmap : s.stack.map Prod.fst = u :: t.stack.map Prod.fst := by
    simp [htstack, hstack]
  have hnodup := h.nodup
  rw [hmap, List.nodup_cons] at hnodup
  have hugray : s.color u = .gray := (h.gray_iff u).mpr (by simp [hmap])
  obtain ⟨done, hout, hdone⟩ := h.top u [] rest hstack
  rw [List.append_nil] at hout
  have hfin : finished t = finished s ++ [u] := by
    rw [ht]
    exact finished_append (s := s) (.finishVertex u)
  have hsame : ∀ d, d ∈ t.trace → (∀ v, d ≠ .finishVertex v) → d ∈ s.trace := by
    intro d hd hne
    rw [htrace] at hd
    rcases List.mem_append.mp hd with hd | hd
    · exact hd
    · exact absurd (List.mem_singleton.mp hd) (hne u)
  rw [← ht]
  exact
    { gray_iff := fun v => by
        rw [hcolor]
        have hv := h.gray_iff v
        rw [hmap, List.mem_cons] at hv
        split_ifs with hvu
        · subst hvu
          simpa using hnodup.1
        · simpa [hvu] using hv
      nodup := hnodup.2
      top := fun u' rem' rest' hstack' => by
        obtain ⟨pre, r, p, D, hroots, hspine, hD⟩ := h.busy (by simp [hstack])
        rw [htstack] at hstack'
        rw [hstack, hstack'] at hspine
        cases hspine with
        | @push _ _ _ _ done' _ p e D' hrest hout' htarget htree hsettled =>
            refine ⟨done' ++ [e], by simp [hout'], fun d hd => ?_⟩
            rcases List.mem_append.mp hd with hd | hd
            · exact (hsettled d hd).mono hgrows
            · rw [List.mem_singleton.mp hd]
              have hblack : t.color (G.target e) = .black := by
                rw [hcolor, if_pos htarget]
              refine ⟨by rw [hblack]; decide, .inr ⟨hblack, .inl ?_⟩⟩
              exact hgrows.trace _ htree
      black := fun x hx d hd => by
        rw [hcolor] at hx
        split_ifs at hx with hxu
        · rw [hxu, hout] at hd
          exact (hdone d hd).mono hgrows
        · exact (h.black x hx d hd).mono hgrows
      idle := fun hnil => by
        obtain ⟨pre, r, p, D, hroots, hspine, hD⟩ := h.busy (by simp [hstack])
        rw [htstack] at hnil
        rw [hstack, hnil] at hspine
        refine ⟨pre ++ [r], by simp [hroots, htroots], fun q hq => ?_⟩
        rcases List.mem_append.mp hq with hq | hq
        · exact hgrows.black q (hD.black q (hD.roots q hq))
        · rw [List.mem_singleton.mp hq]
          cases hspine
          rw [hcolor, if_pos rfl]
      busy := fun hne => by
        obtain ⟨pre, r, p, D, hroots, hspine, hD⟩ := h.busy (by simp [hstack])
        rw [htstack] at hne
        obtain ⟨⟨u', rem'⟩, rest', rfl⟩ := List.exists_cons_of_ne_nil hne
        rw [hstack] at hspine
        rw [htstack, htroots]
        cases hspine with
        | push hrest =>
            exact ⟨pre, r, _, D, hroots, hrest.mono hgrows,
              fun x hx => hgrows.black x (hD.black x hx), hD.roots, hD.closed⟩
      found := fun v hv => by
        have hv' : s.color v ≠ .white := by
          rw [hcolor] at hv
          split_ifs at hv with hvu
          · rw [hvu, hugray]
            decide
          · exact hv
        obtain ⟨r', p', hpath', htree⟩ := h.found v hv'
        exact ⟨r', p', hpath', fun d hd => hgrows.trace _ (htree d hd)⟩
      treeEdge := fun d hd => h.treeEdge d (hsame _ hd (by simp))
      forwardOrCrossEdge := fun d hd =>
        h.forwardOrCrossEdge d (hsame _ hd (by simp))
      backEdge := fun d hd => h.backEdge d (hsame _ hd (by simp))
      mem_finished := fun v => by
        rw [hfin, List.mem_append, h.mem_finished, List.mem_singleton, hcolor]
        split_ifs with hvu
        · simp [hvu]
        · simp [hvu]
      finishOrder := fun l₁ x l₂ heq d hd => by
        rw [hfin] at heq
        rcases List.eq_nil_or_concat l₂ with rfl | ⟨l₂, y, rfl⟩
        · -- The vertex just finished.
          obtain ⟨rfl, hx⟩ := List.append_inj' heq rfl
          obtain rfl := List.singleton_injective hx
          rw [hout] at hd
          rcases (hdone d hd).2 with hback | ⟨hblack, _⟩
          · exact .inl (hgrows.trace _ hback)
          · exact .inr ((h.mem_finished _).mpr hblack)
        · have hsplit : finished s ++ [u] = (l₁ ++ x :: l₂) ++ [y] := by
            rw [heq]
            simp
          have heq' := (List.append_inj' hsplit rfl).1
          exact (h.finishOrder l₁ x l₂ heq' d hd).imp_left (hgrows.trace _) }

/-- Turning to a root that has not been discovered. -/
theorem Inv.startRoot (hG : G.Proper) (h : Inv G roots s) {r : V}
    {rs : List V} (hstack : s.stack = []) (hroots : s.roots = r :: rs)
    (hwhite : s.color r = .white) :
    Inv G roots
      { s with
        color := Function.update s.color r .gray
        stack := [(r, G.out r)]
        roots := rs } := by
  obtain ⟨t, ht⟩ : ∃ t, t =
      { s with
        color := Function.update s.color r .gray
        stack := [(r, G.out r)]
        roots := rs } := ⟨_, rfl⟩
  have hgrows : Grows s t := ht ▸ (Step.startRoot hstack hroots hwhite).grows
  have hcolor : ∀ v, t.color v = if v = r then .gray else s.color v :=
    fun v => by
      rw [ht]
      exact Function.update_apply _ _ _ _
  have htstack : t.stack = [(r, G.out r)] := by rw [ht]
  have htrace : t.trace = s.trace := by rw [ht]
  have htroots : t.roots = rs := by rw [ht]
  have hfin : finished t = finished s := by rw [finished, finished, htrace]
  have hblack : ∀ v, t.color v = .black ↔ s.color v = .black := by
    intro v
    rw [hcolor]
    split_ifs with hv
    · rw [hv, hwhite]
      decide
    · rfl
  have hnoGray : ∀ v, s.color v ≠ .gray := fun v hv => by
    have hmem := (h.gray_iff v).mp hv
    rw [hstack] at hmem
    exact absurd hmem List.not_mem_nil
  obtain ⟨pre, hpre, hpreBlack⟩ := h.idle hstack
  have hD : ClosedBlack G t pre fun x => s.color x = .black :=
    ⟨fun x hx => hgrows.black x hx, hpreBlack, fun x hx e he =>
      (gray_or_black (h.black x hx e he).1).resolve_left (hnoGray _)⟩
  have hroots' : roots = pre ++ r :: t.roots := by
    rw [htroots, hpre, hroots]
  have hspine : Spine G t r t.stack [] := by
    rw [htstack]
    exact .root _
  have hrgray : t.color r = .gray := by rw [hcolor, if_pos rfl]
  rw [← ht]
  exact
    { gray_iff := fun v => by
        rw [hcolor, htstack]
        split_ifs with hv
        · simp [hv]
        · simp [hv, hnoGray]
      nodup := by simp [htstack]
      top := fun u rem rest hstack' => by
        rw [htstack] at hstack'
        obtain ⟨rfl, rfl⟩ := Prod.mk.inj (List.cons.inj hstack').1
        exact ⟨[], rfl, fun d hd => absurd hd List.not_mem_nil⟩
      black := fun x hx d hd =>
        (h.black x ((hblack x).mp hx) d hd).mono hgrows
      idle := fun hnil => absurd hnil (by simp [htstack])
      busy := fun _ => ⟨pre, r, [], _, hroots', hspine, hD⟩
      found := fun v hv => by
        by_cases hvr : v = r
        · rw [htstack] at hspine
          rw [hvr]
          exact ⟨r, [], searchPath_of_spine hG hroots' hspine hD hrgray
            (by simp), fun e he => absurd he List.not_mem_nil⟩
        · rw [hcolor, if_neg hvr] at hv
          obtain ⟨r', p', hpath', htree⟩ := h.found v hv
          exact ⟨r', p', hpath', fun d hd => hgrows.trace _ (htree d hd)⟩
      treeEdge := fun d hd => h.treeEdge d (htrace ▸ hd)
      forwardOrCrossEdge := fun d hd => h.forwardOrCrossEdge d (htrace ▸ hd)
      backEdge := fun d hd => h.backEdge d (htrace ▸ hd)
      mem_finished := fun v => by
        rw [hfin, hblack]
        exact h.mem_finished v
      finishOrder := fun l₁ x l₂ heq d hd => by
        rw [hfin] at heq
        exact (h.finishOrder l₁ x l₂ heq d hd).imp_left (hgrows.trace _) }

omit [DecidableEq V] in
/-- Passing over a root that has been discovered before. -/
theorem Inv.skipRoot (h : Inv G roots s) {r : V} {rs : List V}
    (hstack : s.stack = []) (hroots : s.roots = r :: rs)
    (hcolor : s.color r ≠ .white) : Inv G roots { s with roots := rs } :=
  { h with
    idle := fun _ => by
      obtain ⟨pre, hpre, hpreBlack⟩ := h.idle hstack
      refine ⟨pre ++ [r], by simp [hpre, hroots], fun q hq => ?_⟩
      rcases List.mem_append.mp hq with hq | hq
      · exact hpreBlack q hq
      · rw [List.mem_singleton.mp hq]
        refine (h.black_or_mem hcolor).resolve_right ?_
        rw [hstack]
        exact List.not_mem_nil
    busy := fun hne => absurd hstack hne
    black := fun x hx e he => h.black x hx e he
    top := h.top
    finishOrder := h.finishOrder
    mem_finished := h.mem_finished }

/-- Every step keeps the invariant. -/
theorem Inv.step (hG : G.Proper) {t : State V E} (h : Inv G roots s)
    (hstep : Step G s t) : Inv G roots t := by
  cases hstep with
  | treeEdge hstack hcolor => exact h.descend hG hstack hcolor
  | backEdge hstack hcolor =>
      exact h.advance hG hstack (.inl ⟨rfl, hcolor⟩)
  | forwardOrCrossEdge hstack hcolor =>
      exact h.advance hG hstack (.inr ⟨rfl, hcolor⟩)
  | finishVertex hstack => exact h.finish hstack
  | startRoot hstack hroots hcolor =>
      exact h.startRoot hG hstack hroots hcolor
  | skipRoot hstack hroots hcolor => exact h.skipRoot hstack hroots hcolor

theorem Inv.of_reaches (hG : G.Proper)
    (h : Reaches (DepthFirstSearch.step G) (DepthFirstSearch.init roots) s) :
    Inv G roots s :=
  h.invariant (fun _ _ hs hst => hs.step hG (Step.of_step hst)) (Inv.init roots)

end inv

/-! ## A finished search -/

/-- `v` can be reached from one of the roots. -/
def Reachable (G : Incidence V E) (roots : List V) (v : V) : Prop :=
  ∃ r ∈ roots, ∃ p, IsWalk G r p v

theorem SearchPath.reachable {roots : List V} {r v : V} {p : List E}
    (h : SearchPath G roots r p v) : Reachable G roots v := by
  obtain ⟨pre, post, hroots, _, hleast⟩ := h
  exact ⟨r, by simp [hroots], p, hleast.1.1⟩

theorem Reachable.target {roots : List V} {v : V} (h : Reachable G roots v)
    {e : E} (he : e ∈ G.out v) : Reachable G roots (G.target e) := by
  obtain ⟨r, hr, p, hp⟩ := h
  exact ⟨r, hr, p ++ [e], hp.snoc he⟩

section finished

variable {roots : List V} {s : State V E}

/-- At the end exactly the reachable vertices are finished. -/
theorem Inv.black_iff (h : Inv G roots s) (hstack : s.stack = [])
    (hroots : s.roots = []) (v : V) :
    s.color v = .black ↔ Reachable G roots v := by
  have hnoGray : ∀ v, s.color v ≠ .gray := fun v hv => by
    have hmem := (h.gray_iff v).mp hv
    rw [hstack] at hmem
    exact absurd hmem List.not_mem_nil
  constructor
  · intro hv
    obtain ⟨r, p, hpath, _⟩ := h.found v (by rw [hv]; decide)
    exact hpath.reachable
  · rintro ⟨r, hr, p, hp⟩
    obtain ⟨pre, hpre, hpreBlack⟩ := h.idle hstack
    rw [hroots, List.append_nil] at hpre
    have hrblack := hpreBlack r (hpre ▸ hr)
    clear hr
    induction p generalizing r with
    | nil =>
        have hrv : r = v := hp
        exact hrv ▸ hrblack
    | cons e p ih =>
        refine ih _ hp.2 ?_
        exact (gray_or_black (h.black r hrblack e hp.1).1).resolve_left
          (hnoGray _)

/-- At the end the back edges of the trace are those of the graph. -/
theorem Inv.backEdge_iff (hG : G.Proper) (h : Inv G roots s)
    (hstack : s.stack = []) (hroots : s.roots = []) (e : E) :
    .backEdge e ∈ s.trace ↔ IsBackEdge G roots e := by
  refine ⟨h.backEdge e, fun hback => ?_⟩
  obtain ⟨u, r, p, he, hpath, _⟩ := id hback
  have hu : s.color u = .black :=
    (h.black_iff hstack hroots u).mpr hpath.reachable
  rcases (h.black u hu e he).2 with hmem | ⟨_, hmem | hmem⟩
  · exact hmem
  · exact absurd hback ((h.treeEdge e hmem).not_isBackEdge hG)
  · exact absurd hback ((h.forwardOrCrossEdge e hmem).not_isBackEdge hG)

end finished

/-! ## Consequences for the graph alone -/

section graph

variable {M : Finset V} {roots : List V}

/-- A search of a finite graph ends, with everything examined. -/
theorem exists_finished (hG : G.Proper) (hM : Universe G M roots) :
    ∃ s : State V E, Inv G roots s ∧ s.stack = [] ∧ s.roots = [] := by
  classical
  have hend := step_run_eq_none (G := G) hM (Nat.le_refl _)
  obtain ⟨hstack, hroots⟩ := eq_nil_of_step_eq_none hend
  exact ⟨_, Inv.of_reaches hG (reaches_run _ _), hstack, hroots⟩

/-- Every reachable vertex has a search path, and it runs along forward
edges. -/
theorem exists_searchPath (hG : G.Proper) (hM : Universe G M roots) {v : V}
    (hv : Reachable G roots v) :
    ∃ r p, SearchPath G roots r p v ∧ ∀ e ∈ p, IsForwardEdge G roots e := by
  obtain ⟨s, hs, hstack, hroots⟩ := exists_finished hG hM
  have hblack := (hs.black_iff hstack hroots v).mpr hv
  obtain ⟨r, p, hpath, htree⟩ := hs.found v (by rw [hblack]; decide)
  exact ⟨r, p, hpath, fun e he => hs.treeEdge e (htree e he)⟩

theorem SearchPath.isForwardEdge (hG : G.Proper) (hM : Universe G M roots)
    {r v : V} {p : List E} (h : SearchPath G roots r p v) :
    ∀ e ∈ p, IsForwardEdge G roots e := by
  obtain ⟨r', p', hpath, hforward⟩ := exists_searchPath hG hM h.reachable
  obtain ⟨_, rfl⟩ := h.unique hpath
  exact hforward

/-- A forward edge leads to another vertex. -/
theorem IsForwardEdge.target_ne (hG : G.Proper) {e : E}
    (h : IsForwardEdge G roots e) {u : V} (he : e ∈ G.out u) :
    G.target e ≠ u := by
  obtain ⟨u', r, p, he', hpath, hnotMem⟩ := h
  obtain rfl := hG.source_unique u u' e he he'
  obtain ⟨_, _, _, _, hleast⟩ := hpath
  exact fun heq => hnotMem (heq ▸ hleast.1.1.end_mem)

/-- Without the back edges the reachable part of the graph is acyclic: the
order of finishing is a rank. -/
theorem exists_rank (hG : G.Proper) (hM : Universe G M roots) :
    ∃ rank : V → Nat, ∀ u, Reachable G roots u → ∀ e ∈ G.out u,
      ¬ IsBackEdge G roots e → rank (G.target e) < rank u := by
  classical
  obtain ⟨s, hs, hstack, hroots⟩ := exists_finished hG hM
  refine ⟨fun v => (finished s).idxOf v, fun u hu e he hback => ?_⟩
  have hmem : u ∈ finished s :=
    (hs.mem_finished u).mpr ((hs.black_iff hstack hroots u).mpr hu)
  obtain ⟨l₁, l₂, heq, hnotMem⟩ := List.eq_append_cons_of_mem hmem
  have htarget : G.target e ∈ l₁ := by
    refine (hs.finishOrder l₁ u l₂ heq e he).resolve_left fun hmem => ?_
    exact hback (hs.backEdge e hmem)
  dsimp only
  rw [heq, List.idxOf_append_of_mem htarget,
    List.idxOf_append_of_notMem hnotMem, List.idxOf_cons_self]
  have hlt := List.idxOf_lt_length_of_mem htarget
  omega

end graph

end CoFlo.Verified.DepthFirstSearch
