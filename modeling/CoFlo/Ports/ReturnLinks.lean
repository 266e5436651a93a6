import CoFlo.Ports.ReferenceFlow

/-!
# Where the returns of a function lead

`ReturnUnlinked::ResolveLinks` finds the EXIT vertex under the name `"EXIT"`
in the label map, and `CreateControlFlowGraph` enters the labels of the
function into the same map.  A label that is called `EXIT` takes the place of
the EXIT vertex, and all returns of the function then go to that label.
-/

namespace CoFlo.Ports

/-- `ReturnUnlinked`. -/
def Statement.isReturnUnlinked : Statement → Bool
  | .returnUnlinked _ => true
  | _ => false

theorem Statement.isReturnUnlinked_iff {st : Statement} :
    st.isReturnUnlinked = true ↔ ∃ var, st = .returnUnlinked var := by
  cases st <;> simp [isReturnUnlinked]

/-- The linking loop replaces `v` by a vertex of the graph that has one
out-edge, and that edge ends at the EXIT vertex of the function. -/
def Heap.LinksToExit (h : Heap) (this : FunctionPtr) (l : List VertexPtr)
    (v : VertexPtr) : Prop :=
  ∃ s k replacementStatement e,
    h.addStatements this l = .ok s ∧ s.linkStatements this = .ok k ∧
    s.Replaces this v replacementStatement ∧
    replacementStatement ∈ (k.graph (k.function this).theCfg).vertices ∧
    (k.vertex replacementStatement).outEdges = {e} ∧
    (k.edge e).target = (k.function this).exitVertexDesc

/-- All `ReturnUnlinked` statements of the list are linked to EXIT. -/
def Heap.ReturnsLinkToExit (h : Heap) (this : FunctionPtr)
    (l : List VertexPtr) : Prop :=
  ∀ v ∈ l, (h.vertex v).statement.isReturnUnlinked = true →
    h.LinksToExit this l v

/-- A statement gets to be replaced once. -/
theorem CreateState.Replaces.unique {this : FunctionPtr} {s : CreateState}
    {v r r' : VertexPtr} (hnodup : s.listOfUnlinkedFlowControlStatements.Nodup)
    (hr : s.Replaces this v r) (hr' : s.Replaces this v r') : r = r' := by
  obtain ⟨pre, post, k, hlist, hrun, hresolve⟩ := hr
  obtain ⟨pre', post', k', hlist', hrun', hresolve'⟩ := hr'
  have hpre : pre = pre' := by
    rw [hlist, List.nodup_middle, List.nodup_cons, List.mem_append,
      not_or] at hnodup
    have hsplit := hlist.symm.trans hlist'
    rw [List.append_cons_inj_of_notMem hnodup.1.1 hnodup.1.2] at hsplit
    exact hsplit.1
  subst hpre
  obtain rfl := Except.ok.inj (hrun.symm.trans hrun')
  exact Option.some.inj (hresolve.symm.trans hresolve')

section returns

variable {h : Heap} {this : FunctionPtr} {l : List VertexPtr}

/-- A single out-arc is a single out-edge. -/
theorem Heap.outEdges_of_outArcs {k : Heap} {v t : VertexPtr} {ty : EdgeType}
    (hout : k.outArcs v = {(ty, t)}) :
    ∃ e, (k.vertex v).outEdges = {e} ∧ (k.edge e).target = t := by
  have hcard : (k.vertex v).outEdges.card = 1 := by
    rw [← Heap.outDegree, ← Heap.card_outArcs, hout, Multiset.card_singleton]
  obtain ⟨e, he⟩ := Finset.card_eq_one.mp hcard
  refine ⟨e, he, ?_⟩
  rw [Heap.outArcs, he, Finset.singleton_val, Multiset.map_singleton,
    Multiset.singleton_inj] at hout
  exact congrArg Prod.snd hout

/-- A return leads to EXIT unless a label has taken the name. -/
theorem linksToExit_iff (hf : h.Fresh this l) {v : VertexPtr} (hv : v ∈ l)
    (hreturn : (h.vertex v).statement.isReturnUnlinked = true) :
    h.LinksToExit this l v ↔ Statement.label "EXIT" ∉ h.statements l := by
  obtain ⟨s, hadd, hs⟩ := addStatements_spec hf
  obtain ⟨k, ρ, hlink, hi, hreplaces⟩ := hs.linkStatements_spec hf
  obtain ⟨var, hvar⟩ := Statement.isReturnUnlinked_iff.mp hreturn
  have hst : h.statementOf v = .returnUnlinked var := by
    rw [Heap.statementOf_of_ne (hf.ne_entryPtr hv) (hf.ne_exitPtr hv), hvar]
  obtain ⟨i, hget⟩ := List.getElem?_of_mem hv
  obtain ⟨target, htarget, hout, _⟩ := hi.return_spec hf
    (by rw [getElem?_statements hf hget, hst])
  have hplace : h.placeOf l ρ (.statement i) = ρ v := by
    rw [Heap.placeOf, hget]
    rfl
  rw [hplace] at hout
  have hreplaced : s.Replaces this v (ρ v) := by
    obtain ⟨t, ht⟩ : ∃ t, h.labelMapOf l "EXIT" = some t := by
      rcases labelMapOf_exit hf with ⟨ht, _⟩ | ⟨_, t, _, _, ht⟩
      · exact ⟨_, ht⟩
      · exact ⟨t, ht⟩
    refine hreplaces v hv .gotoStatement ?_
    rw [Heap.replacement, hst]
    simp only [Heap.linkedStatement, ht, Option.map_some]
  have hexit : (k.function this).exitVertexDesc = h.exitPtr := by
    rw [hi.function, Function.update_self]
  have hcfg : (k.function this).theCfg = (h.function this).theCfg := by
    rw [hi.function, Function.update_self]
  constructor
  · intro hlinks
    obtain ⟨s', k', r, e, hadd', hlink', hr, _, hedges, hto⟩ := hlinks
    obtain rfl := Except.ok.inj (hadd.symm.trans hadd')
    obtain rfl := Except.ok.inj (hlink.symm.trans hlink')
    have hnodup : s.listOfUnlinkedFlowControlStatements.Nodup := by
      rw [hs.unlinked]
      exact hf.nodup.filter _
    obtain rfl := hr.unique hnodup hreplaced
    obtain ⟨d, hd, hdtarget⟩ := Heap.outEdges_of_outArcs hout
    obtain rfl : d = e := Finset.singleton_inj.mp (hd.symm.trans hedges)
    -- Different places have different vertices, so the target is EXIT itself.
    have heq : h.placeOf l ρ target = h.placeOf l ρ .exit :=
      hdtarget.symm.trans (hto.trans hexit)
    rcases htarget with ⟨_, hnone⟩ | ⟨j, rfl, hj⟩
    · exact hnone
    · have hlt : j < l.length := by
        have hlt' := (List.getElem?_eq_some_iff.mp hj).1
        rwa [Heap.statements, List.length_map] at hlt'
      have habsurd := hi.placeOf_injective hf (p := .statement j) (q := .exit)
        hlt trivial heq
      exact Place.noConfusion habsurd
  · intro hnone
    obtain rfl : target = .exit := by
      rcases htarget with ⟨rfl, _⟩ | ⟨j, _, hj⟩
      · rfl
      · exact absurd (List.mem_of_getElem? hj) hnone
    obtain ⟨e, he, hto⟩ := Heap.outEdges_of_outArcs hout
    refine ⟨s, k, ρ v, e, hadd, hlink, hreplaced, ?_, he, ?_⟩
    · rw [hcfg, hi.vertices]
      exact Finset.mem_image_of_mem _ (Heap.mem_originals.mpr (.inr (.inr hv)))
    · rw [hto, hexit]
      rfl

/-- The returns of a function lead to EXIT exactly when it has none or does not
use the name. -/
theorem returnsLinkToExit_iff (hf : h.Fresh this l) :
    h.ReturnsLinkToExit this l ↔
      (∀ st ∈ h.statements l, st.isReturnUnlinked = false) ∨
        Statement.label "EXIT" ∉ h.statements l := by
  constructor
  · intro hreturns
    by_cases hlabel : Statement.label "EXIT" ∈ h.statements l
    · left
      intro st hst
      obtain ⟨v, hv, rfl⟩ := List.mem_map.mp hst
      by_contra hreturn
      rw [Bool.not_eq_false] at hreturn
      exact (linksToExit_iff hf hv hreturn).mp (hreturns v hv hreturn) hlabel
    · exact .inr hlabel
  · intro hcases v hv hreturn
    rcases hcases with hnone | hlabel
    · have hfalse := hnone _ (List.mem_map_of_mem hv)
      rw [hreturn] at hfalse
      exact absurd hfalse (by decide)
    · exact (linksToExit_iff hf hv hreturn).mpr hlabel

end returns

/-- A function with a label that is called `EXIT`. -/
def labelledExit : List Statement :=
  [.label "EXIT", .returnUnlinked "x"]

/-- The only return of the function goes back to its own label. -/
theorem labelledExit_not_returnsLinkToExit :
    (Heap.singleFunction labelledExit).2.Fresh 1
        (Heap.singleFunction labelledExit).1 ∧
      (labelledExit.filterMap Statement.labelIdentifier).Nodup ∧
      ¬ (Heap.singleFunction labelledExit).2.ReturnsLinkToExit 1
        (Heap.singleFunction labelledExit).1 := by
  refine ⟨Heap.singleFunction_fresh _, by decide, fun hreturns => ?_⟩
  have hmem : (2 : VertexPtr) ∈ (Heap.singleFunction labelledExit).1 := by
    decide
  have hreturn : (((Heap.singleFunction labelledExit).2.vertex
      2).statement.isReturnUnlinked) = true := by decide
  exact (linksToExit_iff (Heap.singleFunction_fresh _) hmem hreturn).mp
    (hreturns 2 hmem hreturn) (by decide)

/-- A function with two returns. -/
def twoReturns : List Statement :=
  [.ifUnlinked "c" "A" "B", .label "A", .returnUnlinked "x", .label "B", .returnUnlinked "y"]

theorem returnsLinkToExit_iff_twoReturns :
    Statement.label "EXIT" ∉ (Heap.singleFunction twoReturns).2.statements
        (Heap.singleFunction twoReturns).1 ∧
      (Heap.singleFunction twoReturns).2.ReturnsLinkToExit 1
        (Heap.singleFunction twoReturns).1 := by
  have hlabel : Statement.label "EXIT" ∉ (Heap.singleFunction twoReturns).2.statements
      (Heap.singleFunction twoReturns).1 := by
    decide
  exact ⟨hlabel, (returnsLinkToExit_iff (Heap.singleFunction_fresh _)).mpr (.inr hlabel)⟩

end CoFlo.Ports
