import CoFlo.Verified.SearchInvariant
import Mathlib.Data.Multiset.Bind

/-!
# What the trace of a search accounts for

A search that has been started at a root examines every out-edge of every
vertex it discovers, each once: the edges of the trace and the edges left on
the stack together are the out-edges of the discovered vertices (`Account`).
At the end nothing is left on the stack (`Account.finished`).

The tree edges of the trace make up the search tree, and a back edge is an edge
to an ancestor in it (`Inv.isBackEdge_iff_ancestor`).
-/

namespace CoFlo.Verified.DepthFirstSearch

open CoFlo.Verified.StepMachine Relation

variable {V E : Type*} (G : Incidence V E)

/-- The vertex an event discovers. -/
def Event.discovered : Event V E → Option V
  | treeEdge e => some (G.target e)
  | _ => none

/-- The edge an event classifies. -/
def Event.examined : Event V E → Option E
  | treeEdge e | backEdge e | forwardOrCrossEdge e => some e
  | finishVertex _ => none

/-- The search right after it was started at `r`. -/
def started [DecidableEq V] (r : V) : State V E :=
  ⟨Function.update (fun _ => .white) r .gray, [(r, G.out r)], [], []⟩

/-- The root and the vertices discovered along the trace. -/
def discovered (r : V) (s : State V E) : List V :=
  r :: s.trace.filterMap (Event.discovered G)

/-- The edges of the trace. -/
def examined (s : State V E) : List E :=
  s.trace.filterMap Event.examined

/-- The edges that are left on the stack. -/
def pending (s : State V E) : List E :=
  s.stack.flatMap Prod.snd

/-- Discovered vertices and examined edges of a search from `r`. -/
structure Account (r : V) (s : State V E) : Prop where
  roots : s.roots = []
  nodup : (discovered G r s).Nodup
  mem_discovered : ∀ v, v ∈ discovered G r s ↔ s.color v ≠ .white
  stack : ∀ f ∈ s.stack, s.color f.1 ≠ .white
  edges : (examined s ++ pending s).Perm ((discovered G r s).flatMap G.out)

variable {G}

/-- One more event. -/
theorem discovered_snoc (r : V) (s : State V E) (color : V → Color)
    (stack : List (V × List E)) (roots : List V) (ev : Event V E) :
    discovered G r ⟨color, stack, roots, s.trace ++ [ev]⟩ =
      discovered G r s ++ (ev.discovered G).toList := by
  cases ev <;> simp [discovered, Event.discovered]

theorem examined_snoc (s : State V E) (color : V → Color)
    (stack : List (V × List E)) (roots : List V) (ev : Event V E) :
    examined ⟨color, stack, roots, s.trace ++ [ev]⟩ =
      examined s ++ ev.examined.toList := by
  cases ev <;> simp [examined, Event.examined]

variable [DecidableEq V]

/-- A search starts at its first root. -/
theorem reaches_started (r : V) :
    Reaches (step G) (init [r] : State V E) (started G r) :=
  .tail .refl rfl

theorem Account.started (r : V) : Account G r (started G r) where
  roots := rfl
  nodup := List.nodup_singleton r
  mem_discovered v := by
    simp [discovered, DepthFirstSearch.started, Function.update_apply]
  stack f hf := by
    rw [List.mem_singleton.mp hf]
    simp [DepthFirstSearch.started]
  edges := by
    simp [examined, pending, discovered, DepthFirstSearch.started]

variable {r : V}

omit [DecidableEq V] in
/-- An edge that leads to a discovered vertex. -/
theorem Account.advance {s : State V E} (hs : Account G r s) {u : V} {e : E}
    {rem : List E} {rest : List (V × List E)}
    (hstack : s.stack = (u, e :: rem) :: rest) {ev : Event V E}
    (hexamined : ev.examined = some e) (hdiscovered : ev.discovered G = none) :
    Account G r
      { s with stack := (u, rem) :: rest, trace := s.trace ++ [ev] } where
  roots := hs.roots
  nodup := by
    rw [discovered_snoc, hdiscovered]
    simpa using hs.nodup
  mem_discovered v := by
    rw [discovered_snoc, hdiscovered]
    simpa using hs.mem_discovered v
  stack f hf := by
    rcases List.mem_cons.mp hf with rfl | hf
    · exact hs.stack (u, e :: rem) (by simp [hstack])
    · exact hs.stack f (by simp [hstack, hf])
  edges := by
    have hedges := hs.edges
    rw [discovered_snoc, examined_snoc, hdiscovered, hexamined]
    simpa [pending, hstack] using hedges

theorem Account.step {s t : State V E} (hs : Account G r s)
    (hstep : Step G s t) : Account G r t := by
  cases hstep with
  | @treeEdge u e rem rest hstack hcolor =>
      have hnew : G.target e ∉ discovered G r s := fun hmem =>
        (hs.mem_discovered _).mp hmem hcolor
      have hdiscovered : ∀ c st, discovered G r
          ⟨c, st, s.roots, s.trace ++ [.treeEdge e]⟩ =
            discovered G r s ++ [G.target e] :=
        fun c st => discovered_snoc r s c st _ _
      exact
        { roots := hs.roots
          nodup := by
            rw [hdiscovered]
            exact List.Nodup.append hs.nodup (List.nodup_singleton _)
              (List.disjoint_singleton.mpr hnew)
          mem_discovered := fun v => by
            rw [hdiscovered, List.mem_append, List.mem_singleton,
              hs.mem_discovered]
            by_cases hv : v = G.target e
            · subst hv
              simp
            · simp [hv]
          stack := fun f hf => by
            rcases List.mem_cons.mp hf with rfl | hf
            · simp
            · refine ne_white_update ?_ (by decide)
              rcases List.mem_cons.mp hf with rfl | hf
              · exact hs.stack (u, e :: rem) (by simp [hstack])
              · exact hs.stack f (by simp [hstack, hf])
          edges := by
            rw [hdiscovered, examined_snoc, List.flatMap_append]
            have hedges := hs.edges.append_right (G.out (G.target e))
            refine .trans ?_ (hedges.trans (by simp))
            simp only [pending, hstack, List.flatMap_cons, List.append_assoc,
              Event.examined, Option.toList_some, List.cons_append,
              List.nil_append]
            refine List.Perm.append_left _ (List.Perm.cons e ?_)
            rw [← List.append_assoc rem]
            exact List.perm_append_comm }
  | backEdge hstack hcolor => exact hs.advance hstack rfl rfl
  | forwardOrCrossEdge hstack hcolor => exact hs.advance hstack rfl rfl
  | @finishVertex u rest hstack =>
      have hu := hs.stack (u, []) (by simp [hstack])
      exact
        { roots := hs.roots
          nodup := by
            rw [discovered_snoc]
            simpa [Event.discovered] using hs.nodup
          mem_discovered := fun v => by
            rw [discovered_snoc]
            simp only [Event.discovered, Option.toList_none, List.append_nil]
            rw [hs.mem_discovered]
            by_cases hv : v = u
            · subst hv
              simp [hu]
            · rw [Function.update_of_ne hv]
          stack := fun f hf =>
            ne_white_update (hs.stack f (by simp [hstack, hf])) (by decide)
          edges := by
            have hedges := hs.edges
            rw [discovered_snoc, examined_snoc]
            simpa [pending, Event.discovered, Event.examined, hstack]
              using hedges }
  | startRoot hstack hroots hcolor => simp [hs.roots] at hroots
  | skipRoot hstack hroots hcolor => simp [hs.roots] at hroots

theorem Account.of_reaches {s : State V E}
    (hs : Reaches (DepthFirstSearch.step G) (DepthFirstSearch.started G r) s) :
    Account G r s :=
  hs.invariant (fun _ _ hs hstep => hs.step (Step.of_step hstep))
    (Account.started r)

/-- At the end all out-edges of the reachable vertices have been examined. -/
theorem Account.finished (hG : G.Proper) {s : State V E}
    (hs : Reaches (DepthFirstSearch.step G) (DepthFirstSearch.started G r) s)
    (hstack : s.stack = []) :
    (discovered G r s).Nodup ∧
      (∀ v, v ∈ discovered G r s ↔ Reachable G [r] v) ∧
      (examined s).Perm ((discovered G r s).flatMap G.out) := by
  have haccount := Account.of_reaches hs
  have hinv := Inv.of_reaches hG ((reaches_started r).trans hs)
  refine ⟨haccount.nodup, fun v => ?_, ?_⟩
  · rw [haccount.mem_discovered, ← hinv.black_iff hstack haccount.roots]
    constructor
    · intro hv
      refine (gray_or_black hv).resolve_left fun hgray => ?_
      have hmem := (hinv.gray_iff v).mp hgray
      rw [hstack] at hmem
      exact List.not_mem_nil hmem
    · intro hv
      rw [hv]
      decide
  · have hedges := haccount.edges
    simpa [pending, hstack] using hedges

/-! ## Ancestors -/

/-- Along an edge of the search tree. -/
def TreeStep (G : Incidence V E) (s : State V E) (u v : V) : Prop :=
  ∃ e, .treeEdge e ∈ s.trace ∧ e ∈ G.out u ∧ G.target e = v

section ancestors

variable {roots : List V} {s : State V E}

omit [DecidableEq V] in
/-- A walk along tree edges goes down the tree, also from a vertex on it. -/
theorem reflTransGen_treeStep_of_isWalk {q v w : V} {p : List E}
    (hwalk : IsWalk G q p v) (htree : ∀ e ∈ p, .treeEdge e ∈ s.trace)
    (hw : w ∈ walkVertices G q p) : ReflTransGen (TreeStep G s) w v := by
  induction p generalizing q w with
  | nil =>
      have hqv : q = v := hwalk
      have hwq : w = q := List.mem_singleton.mp hw
      rw [hwq, hqv]
  | cons e p ih =>
      have htree' := fun d hd => htree d (List.mem_cons_of_mem e hd)
      rcases List.mem_cons.mp hw with rfl | hw
      · have hstep : TreeStep G s w (G.target e) :=
          ⟨e, htree e List.mem_cons_self, hwalk.1, rfl⟩
        exact (ih hwalk.2 htree' List.mem_cons_self).head hstep
      · exact ih hwalk.2 htree' hw

omit [DecidableEq V] in
/-- At the end of the search a back edge is an edge to an ancestor, or to the
vertex itself. -/
theorem Inv.isBackEdge_iff_ancestor {M : Finset V} (hG : G.Proper)
    (hM : Universe G M roots) (h : Inv G roots s) (hstack : s.stack = [])
    (hroots : s.roots = []) {u : V} (hu : Reachable G roots u) {e : E}
    (he : e ∈ G.out u) :
    IsBackEdge G roots e ↔
      G.target e = u ∨ TransGen (TreeStep G s) (G.target e) u := by
  have hor : G.target e = u ∨ TransGen (TreeStep G s) (G.target e) u ↔
      ReflTransGen (TreeStep G s) (G.target e) u := by
    rw [reflTransGen_iff_eq_or_transGen]
    exact or_congr_left eq_comm
  rw [hor]
  constructor
  · rintro ⟨u', q, p, he', hpath, hmem⟩
    obtain rfl := hG.source_unique u u' e he he'
    have hblack : s.color u = .black := (h.black_iff hstack hroots u).mpr hu
    obtain ⟨q', p', hpath', htree⟩ := h.found u (by rw [hblack]; decide)
    obtain ⟨rfl, rfl⟩ := hpath.unique hpath'
    obtain ⟨_, _, _, _, hleast⟩ := hpath
    exact reflTransGen_treeStep_of_isWalk hleast.1.1 htree hmem
  · -- The rank goes down along tree edges, and along an edge that is not back.
    intro hdown
    obtain ⟨rank, hrank⟩ := exists_rank hG hM
    by_contra hback
    have htarget := hrank u hu e he hback
    have hle : ∀ w, ReflTransGen (TreeStep G s) (G.target e) w →
        Reachable G roots w ∧ rank w ≤ rank (G.target e) := by
      intro w hw
      induction hw with
      | refl => exact ⟨hu.target he, Nat.le_refl _⟩
      | tail _ hstep ih =>
          obtain ⟨d, htree, hd, rfl⟩ := hstep
          have hlt := hrank _ ih.1 d hd ((h.treeEdge d htree).not_isBackEdge hG)
          exact ⟨ih.1.target hd, Nat.le_trans (Nat.le_of_lt hlt) ih.2⟩
    exact Nat.not_lt.mpr (hle u hdown).2 htarget

end ancestors

end CoFlo.Verified.DepthFirstSearch
