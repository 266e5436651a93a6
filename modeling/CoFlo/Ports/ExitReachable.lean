import CoFlo.Ports.AcyclicFlow
import CoFlo.Ports.FlowShape

/-!
# Is EXIT reached from everywhere?

The edges of `AddImpossibleEdges` and of `FixupBackEdges` are there so that
EXIT post-dominates whatever the function can come to.  A back edge is given a
way out by going back to the last decision before it, and nothing looks
whether that way leads out of the loop.  `createControlFlowGraph_exit_iff` says when
it does: from each vertex at which the search leaves no forward edge, going
over its proxy edge to the next such vertex has to come to EXIT.

Two things stand between `FixupBackEdges` and the finished graph.  A redundant
vertex may have a marked out-edge; then the loop it closes has no decision in
it, no edge leaves the loop at all, and neither graph has a way to EXIT from
there (`FixedUp.exists_trapped`).  Otherwise both edges of every redundant
vertex that is reached are unmarked, and contracting them changes nothing.
-/

namespace CoFlo.Ports

open CoFlo.Verified CoFlo.Verified.Bypass CoFlo.Verified.DepthFirstSearch
open CoFlo.Verified.Detours Relation

namespace Heap

/-- EXIT is reached along unmarked edges from everything that is reached from
ENTRY. -/
def ExitPostDominates (k : Heap) (g : GraphPtr) (entry exit : VertexPtr) :
    Prop :=
  ∀ v, ReflTransGen (k.EdgeStep g) entry v →
    ReflTransGen (k.UnmarkedStep g) v exit

/-! ## Loops without a decision -/

section loop

variable {k : Heap} (hc : k.Consistent) {order : IterationOrder}

include hc

/-- Without a way out the path comes back to the target of the back edge, and
passes no decision on the way. -/
theorem Consistent.wayOut_eq_null {r u t : VertexPtr} {p : List EdgePtr}
    (hwalk : IsWalk (k.incidence order) r p u)
    (ht : t ∈ walkVertices (k.incidence order) r p)
    (hnull : k.wayOut order t p.reverse = .ok null) :
    ∃ p₁ p₂, p = p₁ ++ p₂ ∧ IsWalk (k.incidence order) r p₁ t ∧
      IsWalk (k.incidence order) t p₂ u ∧
        ∀ e ∈ p₂,
          (k.vertex (k.edge e).source).statement.isDecisionStatement = false := by
  induction p using List.reverseRecOn generalizing u with
  | nil =>
      have hru : r = u := hwalk
      obtain rfl : t = r := by simpa [walkVertices] using ht
      exact ⟨[], [], rfl, rfl, hru, fun _ he => absurd he List.not_mem_nil⟩
  | append_singleton up d ih =>
      by_cases htu : t = u
      · subst htu
        exact ⟨up ++ [d], [], by simp, hwalk, rfl,
          fun _ he => absurd he List.not_mem_nil⟩
      obtain ⟨w, hup, hd, hdu⟩ := isWalk_append_iff.mp hwalk
      obtain ⟨hsource, hw⟩ := (hc.mem_incidence_out order w d).mp hd
      rw [List.reverse_append, List.reverse_singleton, List.singleton_append,
        wayOut] at hnull
      split_ifs at hnull with hdecision hv
      · -- The target of an edge is not `NULL`.
        cases hother : k.findDifferentOutEdge order d with
        | error fault => simp [hother, Except.map] at hnull
        | ok other =>
            have hmem := (findDifferentOutEdge_eq_ok hother).1
            have hne := hc.target_ne_null_of_mem hmem
            refine absurd ?_ hne
            simpa [hother, Except.map] using hnull
      · rw [Bool.not_eq_true] at hdecision
        obtain rfl : w = t := hsource.symm.trans hv
        refine ⟨up, [d], rfl, hup, ⟨hd, hdu⟩, fun e he => ?_⟩
        rw [List.mem_singleton.mp he]
        exact hdecision
      · rw [Bool.not_eq_true] at hdecision
        have htup : t ∈ walkVertices (k.incidence order) r up := by
          rw [walkVertices_append, List.mem_append] at ht
          refine ht.resolve_right fun hmem => htu ?_
          rw [List.map_singleton, List.mem_singleton] at hmem
          exact hmem.trans hdu
        obtain ⟨p₁, p₂, rfl, hp₁, hp₂, hnone⟩ := ih hup htup hnull
        refine ⟨p₁, p₂ ++ [d], List.append_assoc .., hp₁,
          hp₂.append ⟨hd, hdu⟩, fun e he => ?_⟩
        rcases List.mem_append.mp he with he | he
        · exact hnone e he
        · rw [List.mem_singleton.mp he]
          exact hdecision

omit hc in
/-- Every vertex of a walk is its last one or is left along it. -/
theorem eq_or_exists_source {t u v : VertexPtr} {p : List EdgePtr}
    (hwalk : IsWalk (k.incidence order) t p v)
    (hu : u ∈ walkVertices (k.incidence order) t p) :
    u = v ∨ ∃ e ∈ p, e ∈ (k.incidence order).out u := by
  induction p generalizing t with
  | nil =>
      have htv : t = v := hwalk
      obtain rfl : u = t := by simpa [walkVertices] using hu
      exact .inl htv
  | cons e p ih =>
      rcases List.mem_cons.mp hu with rfl | hu
      · exact .inr ⟨e, List.mem_cons_self, hwalk.1⟩
      · rcases ih hwalk.2 hu with heq | ⟨d, hd, hout⟩
        · exact .inl heq
        · exact .inr ⟨d, List.mem_cons_of_mem _ hd, hout⟩

end loop

section trapped

variable {k f : Heap} {g : GraphPtr} {M : Set VertexPtr}
  {entry exit : VertexPtr} (hs : FlowShape k g M entry exit)
  {order : IterationOrder}
  (hfix : FixedUp k order g (k.searchRoots order g entry) f)

include hs

theorem FlowShape.incidence_proper : (k.incidence order).Proper :=
  hs.consistent.incidence_proper order

theorem FlowShape.roots_mem :
    ∀ r ∈ k.searchRoots order g entry, r ∈ M := fun r hr =>
  hs.vertices r (searchRoots_mem hs.entry_mem r hr)

/-- A vertex with a redundant kind of statement is neither ENTRY nor EXIT. -/
theorem FlowShape.ne_of_isRedundantKind {v : VertexPtr}
    (hv : (k.vertex v).statement.isRedundantKind = true) :
    v ≠ entry ∧ v ≠ exit := by
  constructor
  · rintro rfl
    rw [hs.entry_statement] at hv
    exact absurd hv (by decide)
  · rintro rfl
    rw [hs.exit_statement] at hv
    exact absurd hv (by decide)

/-- A forward edge comes neither to ENTRY nor from EXIT. -/
theorem FlowShape.forwardEdge_ends {e : EdgePtr}
    (he : IsForwardEdge (k.incidence order) (k.searchRoots order g entry) e) :
    (k.edge e).target ≠ entry ∧ (k.edge e).source ≠ exit := by
  obtain ⟨u, _, _, hout, _⟩ := id he
  have hne := he.target_ne hs.incidence_proper hout
  obtain ⟨hsource, _⟩ := (hs.consistent.mem_incidence_out order u e).mp hout
  constructor
  · intro htarget
    refine hne ?_
    rw [← hsource, hs.enter e htarget]
    exact htarget
  · intro hexit
    refine hne ?_
    rw [← hsource, hexit]
    exact hs.leave e hexit

include hfix

/-- The out-edge of a vertex that does not branch stays its only one, when it
is a forward edge. -/
theorem FixedUp.outEdges_eq_singleton {u : VertexPtr} {e : EdgePtr}
    (hu : u ∈ M) (hentry : u ≠ entry)
    (hdecision : (k.vertex u).statement.isDecisionStatement = false)
    (hout : e ∈ (k.incidence order).out u)
    (he : IsForwardEdge (k.incidence order) (k.searchRoots order g entry) e) :
    (f.vertex u).outEdges = {e} := by
  obtain ⟨hsource, hu0⟩ := (hs.consistent.mem_incidence_out order u e).mp hout
  have hexit : u ≠ exit := hsource ▸ (hs.forwardEdge_ends he).2
  have hmem : e ∈ (k.vertex u).outEdges :=
    (hs.consistent.mem_outEdges u e).mpr ⟨hsource, hu0⟩
  have hold : (k.vertex u).outEdges = {e} := by
    refine Finset.eq_singleton_iff_unique_mem.mpr ⟨hmem, fun d hd => ?_⟩
    exact Finset.card_le_one.mp (hs.outDegree_le u hu hentry hexit hdecision)
      d hd e hmem
  rw [hfix.outEdges_eq hs.consistent, hold]
  rintro t ⟨_, d, hsingle, hback, _⟩
  rw [hold, Finset.singleton_inj] at hsingle
  exact he.not_isBackEdge hs.incidence_proper (hsingle ▸ hback)

/-- A loop without a decision is never left. -/
theorem FixedUp.mem_loop {t v : VertexPtr} {p : List EdgePtr} {b : EdgePtr}
    (ht : t ∈ M) (htentry : t ≠ entry)
    (hwalk : IsWalk (k.incidence order) t p v)
    (hp : ∀ e ∈ p, IsForwardEdge (k.incidence order)
      (k.searchRoots order g entry) e ∧
        (k.vertex (k.edge e).source).statement.isDecisionStatement = false)
    (hb : (f.vertex v).outEdges = {b}) (hbt : (f.edge b).target = t)
    {w : VertexPtr} (hw : ReflTransGen (f.EdgeStep g) t w) :
    w ∈ walkVertices (k.incidence order) t p := by
  induction hw with
  | refl => exact List.mem_cons_self
  | @tail u w _ hstep ih =>
      obtain ⟨d, hd, rfl, rfl⟩ := hstep
      have hdmem : d ∈ (f.vertex (f.edge d).source).outEdges :=
        (hfix.consistent.mem_outEdges _ d).mpr
          ⟨rfl, hfix.consistent.edges_attached g d hd⟩
      rcases eq_or_exists_source hwalk ih with heq | ⟨e, he, hout⟩
      · rw [heq, hb, Finset.mem_singleton] at hdmem
        rw [hdmem, hbt]
        exact List.mem_cons_self
      · obtain ⟨hforward, hdecision⟩ := hp e he
        obtain ⟨hsource, hu0⟩ :=
          (hs.consistent.mem_incidence_out order _ e).mp hout
        have hentry : (f.edge d).source ≠ entry := by
          intro hcon
          rw [hcon] at ih
          rcases List.mem_cons.mp ih with heq | hmem
          · exact htentry heq.symm
          · obtain ⟨x, hx, hxentry⟩ := List.mem_map.mp hmem
            exact (hs.forwardEdge_ends (hp x hx).1).1 hxentry
        obtain ⟨p₁, _, hp₁, _⟩ := hs.consistent.exists_prefix hwalk he
        have hu : (f.edge d).source ∈ M :=
          hs.consistent.mem_of_isWalk hs.encloses ht (hsource ▸ hp₁)
        rw [hfix.outEdges_eq_singleton hs hu hentry (hsource ▸ hdecision) hout
          hforward, Finset.mem_singleton] at hdmem
        obtain ⟨_, hedge, _⟩ :=
          hfix.old e (hs.consistent.lt_nextEdge (hsource ▸ hu0))
        rw [hdmem, hedge]
        exact List.mem_cons_of_mem _ (List.mem_map_of_mem he)

/-- A marked edge that is the only one out of a vertex closes a loop without a
decision. -/
theorem FixedUp.exists_loop {v : VertexPtr} {b : EdgePtr}
    (hno : ¬ k.NoWayOut order (k.searchRoots order g entry))
    (hlive : ReflTransGen (k.EdgeStep g) entry v) (hentry : v ≠ entry)
    (hb : (f.vertex v).outEdges = {b}) (hmark : (f.edge b).isBackEdge = true) :
    (k.vertex v).outEdges = {b} ∧
      IsBackEdge (k.incidence order) (k.searchRoots order g entry) b ∧
        ∃ p₁ p₂, SearchPath (k.incidence order) (k.searchRoots order g entry)
            entry (p₁ ++ p₂) v ∧
          IsWalk (k.incidence order) entry p₁ (k.edge b).target ∧
            IsWalk (k.incidence order) (k.edge b).target p₂ v ∧
              ∀ e ∈ p₂, (k.vertex
                (k.edge e).source).statement.isDecisionStatement = false := by
  have hc := hs.consistent
  have hbmem : b ∈ (f.vertex v).outEdges := by simp [hb]
  obtain ⟨hbv, hv0⟩ := (hfix.consistent.mem_outEdges v b).mp hbmem
  have hblt : b < k.nextEdge := by
    by_contra hge
    obtain ⟨s, t, _, hedge⟩ := hfix.new b (Nat.not_lt.mp hge)
      (hfix.consistent.lt_nextEdge (hbv ▸ hv0))
    rw [hedge] at hmark
    exact Bool.false_ne_true hmark
  obtain ⟨_, hedge, hiff⟩ := hfix.old b hblt
  have hsource : (k.edge b).source = v := by rw [← hbv, hedge]
  have hvM : v ∈ M := by
    obtain ⟨p, hp⟩ := hc.isWalk_of_reflTransGen order hlive
    exact hc.mem_of_isWalk hs.encloses (hs.vertices entry hs.entry_mem) hp
  have hback : IsBackEdge (k.incidence order) (k.searchRoots order g entry) b := by
    rw [hedge] at hmark
    refine (hiff.mp hmark).resolve_left ?_
    rw [hs.unmarked b ((hs.encloses.mem_edges_source b).mpr (hsource ▸ hvM))]
    exact Bool.false_ne_true
  -- A proxy edge would be a second out-edge.
  have hnoProxy : ∀ t, ¬ k.Proxy order (k.searchRoots order g entry) v t := by
    intro t hproxy
    obtain ⟨e, hle, _, hnew⟩ := hfix.proxied v t hproxy
    have hmem : e ∈ (f.vertex v).outEdges :=
      (hfix.consistent.mem_outEdges v e).mpr ⟨by rw [hnew], hv0⟩
    rw [hb, Finset.mem_singleton] at hmem
    exact Nat.not_lt.mpr hle (hmem ▸ hblt)
  have hold : (k.vertex v).outEdges = {b} := by
    rw [← hfix.outEdges_eq hc hnoProxy, hb]
  refine ⟨hold, hback, ?_⟩
  obtain ⟨u, r, p, hout, hpath, hmem⟩ := id hback
  obtain rfl : u = v :=
    ((hc.mem_incidence_out order u b).mp hout).1.symm.trans hsource
  obtain ⟨d, hd⟩ := hc.isWalk_of_reflTransGen order hlive
  obtain rfl := hpath.root_eq hd
  by_cases hself : (k.edge b).source = (k.edge b).target
  · have hwalk : IsWalk (k.incidence order) r p (k.edge b).target := by
      rw [← hself, hsource]
      obtain ⟨_, _, _, _, hleast⟩ := hpath
      exact hleast.1.1
    exact ⟨p, [], by rwa [List.append_nil], hwalk, hself.symm.trans hsource,
      fun _ he => absurd he List.not_mem_nil⟩
  · have htarget : k.ForwardTarget order (k.searchRoots order g r) b
        (k.wayOut order (k.edge b).target p.reverse) := by
      refine ⟨r, p, by rwa [hsource], ?_⟩
      rw [if_neg hself]
    have hnull : k.wayOut order (k.edge b).target p.reverse = .ok null := by
      cases hway : k.wayOut order (k.edge b).target p.reverse with
      | error fault =>
          rw [hway] at htarget
          rw [htarget.error_eq] at htarget
          exact absurd ⟨b, hback, htarget⟩ hno
      | ok t =>
          rw [hway] at htarget
          by_contra ht
          refine hnoProxy t ⟨fun ht0 => ht (congrArg _ ht0), b, hold, hback,
            htarget⟩
    have hwalk : IsWalk (k.incidence order) r p u := by
      obtain ⟨_, _, _, _, hleast⟩ := hpath
      exact hleast.1.1
    obtain ⟨p₁, p₂, rfl, hp₁, hp₂, hnone⟩ :=
      hc.wayOut_eq_null hwalk hmem hnull
    exact ⟨p₁, p₂, hpath, hp₁, hp₂, hnone⟩

/-- Then EXIT is out of reach from the start of that loop, which stays in the
graph. -/
theorem FixedUp.exists_trapped {v : VertexPtr} {b : EdgePtr}
    (hno : ¬ k.NoWayOut order (k.searchRoots order g entry))
    (hlive : ReflTransGen (k.EdgeStep g) entry v)
    (hred : f.isRedundant v = true) (hb : (f.vertex v).outEdges = {b})
    (hmark : (f.edge b).isBackEdge = true) :
    ∃ t, ReflTransGen (k.EdgeStep g) entry t ∧ f.isRedundant t = false ∧
      ¬ ReflTransGen (f.EdgeStep g) t exit := by
  have hc := hs.consistent
  have hkind : (k.vertex v).statement.isRedundantKind = true := by
    rw [isRedundant, Bool.and_eq_true, hfix.statement_eq] at hred
    exact hred.1
  obtain ⟨hentry, hexit⟩ := hs.ne_of_isRedundantKind hkind
  obtain ⟨hold, hback, p₁, p₂, hpath, hp₁, hp₂, hnone⟩ :=
    hfix.exists_loop hs hno hlive hentry hb hmark
  have hforward := hpath.isForwardEdge hs.incidence_proper
    (hc.searchUniverse order _)
  have hbmem : b ∈ (k.vertex v).outEdges := by simp [hold]
  obtain ⟨hsource, hv0⟩ := (hc.mem_outEdges v b).mp hbmem
  have hentryM := hs.vertices entry hs.entry_mem
  have htentry : (k.edge b).target ≠ entry := fun htarget =>
    hentry (hsource.symm.trans (hs.enter b htarget))
  have ht0 : (k.edge b).target ≠ null := hc.target_ne_null_of_mem hbmem
  have htM := hc.mem_of_isWalk hs.encloses hentryM hp₁
  refine ⟨(k.edge b).target, hc.reflTransGen_of_isWalk hs.encloses hentryM hp₁,
    ?_, fun hreach => ?_⟩
  · -- The back edge and the tree edge both lead there.
    rcases List.eq_nil_or_concat' p₁ with rfl | ⟨q, a, rfl⟩
    · have heq : entry = (k.edge b).target := hp₁
      exact absurd heq.symm htentry
    · obtain ⟨w, _, ha, hat⟩ := isWalk_append_iff.mp hp₁
      have hatarget : (k.edge a).target = (k.edge b).target := hat
      have hab : a ≠ b := by
        rintro rfl
        exact (hforward a (by simp)).not_isBackEdge hs.incidence_proper hback
      have hsub := (hfix.edges_subset hc (k.edge b).target).2
      have hain := hsub ((hc.mem_inEdges _ a).mpr ⟨hatarget, ht0⟩)
      have hbin := hsub ((hc.mem_inEdges _ b).mpr ⟨rfl, ht0⟩)
      have htwo := Finset.one_lt_card.mpr ⟨a, hain, b, hbin, hab⟩
      rw [isRedundant, inDegree, decide_eq_false (by omega), Bool.false_and,
        Bool.and_false]
  · have hmem := hfix.mem_loop hs htM htentry hp₂
      (fun e he => ⟨hforward e (List.mem_append_right _ he), hnone e he⟩) hb
      (by
        obtain ⟨_, hedge, _⟩ := hfix.old b (hc.lt_nextEdge (hsource ▸ hv0))
        rw [hedge]) hreach
    rcases eq_or_exists_source hp₂ hmem with heq | ⟨e, he, hout⟩
    · exact hexit heq.symm
    · obtain ⟨hexitSource, _⟩ := (hc.mem_incidence_out order _ e).mp hout
      exact (hs.forwardEdge_ends (hforward e (List.mem_append_right _ he))).2
        hexitSource

/-- The in-edge of a redundant vertex that is reached is not marked. -/
theorem FixedUp.inEdge_unmarked {v : VertexPtr} {a : EdgePtr}
    (hlive : ReflTransGen (k.EdgeStep g) entry v)
    (hred : f.isRedundant v = true) (ha : (f.vertex v).inEdges = {a}) :
    (f.edge a).isBackEdge = false := by
  have hc := hs.consistent
  have hredOld := hfix.isRedundant_of hc hred
  obtain ⟨a', _, ha', _⟩ := hc.exists_edges hredOld
  have haa : a' = a := by
    have hmem := (hfix.edges_subset hc v).2 (by rw [ha']; simp : a' ∈ _)
    rwa [ha, Finset.mem_singleton] at hmem
  subst haa
  rw [isRedundant, Bool.and_eq_true] at hredOld
  have hentry := (hs.ne_of_isRedundantKind hredOld.1).1
  have hamem : a' ∈ (k.vertex v).inEdges := by simp [ha']
  obtain ⟨htarget, hv0⟩ := (hc.mem_inEdges v a').mp hamem
  obtain ⟨d, hd⟩ := hc.isWalk_of_reflTransGen order hlive
  -- The search comes to `v` along `a'`.
  obtain ⟨r, p, hpath, hforward⟩ := exists_searchPath hs.incidence_proper
    (hc.searchUniverse order (k.searchRoots order g entry))
    ⟨entry, List.mem_cons_self, d, hd⟩
  obtain rfl := hpath.root_eq hd
  obtain ⟨_, _, _, _, hleast⟩ := hpath
  rcases List.eq_nil_or_concat' p with rfl | ⟨q, e, rfl⟩
  · have heq : r = v := hleast.1.1
    exact absurd heq.symm hentry
  · obtain ⟨w, _, _, het⟩ := isWalk_append_iff.mp hleast.1.1
    have hetarget : (k.edge e).target = v := het
    have hemem := (hc.mem_inEdges v e).mpr ⟨hetarget, hv0⟩
    rw [ha', Finset.mem_singleton] at hemem
    subst hemem
    have hattached := hc.source_ne_null_of_mem hamem
    have hvM := hc.mem_of_isWalk hs.encloses (hs.vertices r hs.entry_mem) hd
    obtain ⟨_, hedge, hiff⟩ := hfix.old e (hc.lt_nextEdge hattached)
    rw [hedge, ← Bool.not_eq_true, hiff, not_or, Bool.not_eq_true]
    exact ⟨hs.unmarked e ((hs.encloses.mem_edges_target e).mpr (htarget ▸ hvM)),
      (hforward e (by simp)).not_isBackEdge hs.incidence_proper⟩

end trapped

/-! ## From one dead end to the next -/

/-- Wherever the search has only back edges left, its proxy edges lead on, and
in the end to EXIT. -/
def LeadsToExit (k : Heap) (order : IterationOrder) (g : GraphPtr)
    (entry exit : VertexPtr) : Prop :=
  ∀ d, ReflTransGen (k.EdgeStep g) entry d →
    DeadEnd (k.ForwardStep order g (k.searchRoots order g entry)) d →
      ReflTransGen (Hop (k.ForwardStep order g (k.searchRoots order g entry))
        (k.Proxy order (k.searchRoots order g entry))) d exit

section leadsToExit

variable {k f : Heap} {g : GraphPtr} {M : Set VertexPtr}
  {entry exit : VertexPtr} (hs : k.FlowShape g M entry exit)
  {order : IterationOrder}

include hs

omit hs in
theorem ForwardStep.edgeStep {roots : List VertexPtr}
    {u w : VertexPtr} (h : k.ForwardStep order g roots u w) :
    k.EdgeStep g u w := by
  obtain ⟨e, he, hsource, htarget, _⟩ := h
  exact ⟨e, he, hsource, htarget⟩

/-- Only dead ends get a proxy edge. -/
theorem FlowShape.deadEnd_of_proxy {s t : VertexPtr}
    {roots : List VertexPtr} (hproxy : k.Proxy order roots s t) :
    DeadEnd (k.ForwardStep order g roots) s := by
  rintro w ⟨e, he, hsource, _, _, hforward⟩
  obtain ⟨_, d, hsingle, hback, _⟩ := hproxy
  have hmem : e ∈ (k.vertex s).outEdges := (hs.consistent.mem_outEdges s e).mpr
    ⟨hsource, hsource ▸ hs.consistent.edges_attached g e he⟩
  rw [hsingle, Finset.mem_singleton] at hmem
  exact hforward (hmem ▸ hback)

theorem FlowShape.deadEnd_exit :
    DeadEnd (k.ForwardStep order g (k.searchRoots order g entry)) exit := by
  rintro w ⟨e, he, hsource, _, _, hforward⟩
  have hroot : exit ∈ k.searchRoots order g entry := by
    simp [searchRoots, hs.exit_mem]
  obtain ⟨r, p, hpath, _⟩ := exists_searchPath hs.incidence_proper
    (hs.consistent.searchUniverse order (k.searchRoots order g entry))
    ⟨exit, hroot, [], rfl⟩
  obtain ⟨_, _, _, _, hleast⟩ := id hpath
  refine hforward ⟨exit, r, p, ?_, hpath, ?_⟩
  · exact (hs.consistent.mem_incidence_out order exit e).mpr
      ⟨hsource, hsource ▸ hs.consistent.edges_attached g e he⟩
  · have htarget : (k.incidence order).target e = exit := hs.leave e hsource
    rw [htarget]
    exact hleast.1.1.end_mem

/-- The forward edges lead from everything that is reached to a dead end. -/
theorem FlowShape.exists_deadEnd (order : IterationOrder) {v : VertexPtr}
    (hv : ReflTransGen (k.EdgeStep g) entry v) :
    ∃ d, ReflTransGen (k.EdgeStep g) entry d ∧
      ReflTransGen (k.ForwardStep order g (k.searchRoots order g entry)) v d ∧
        DeadEnd (k.ForwardStep order g (k.searchRoots order g entry)) d := by
  obtain ⟨rank, hrank⟩ := exists_rank (hs.consistent.incidence_proper order)
    (hs.consistent.searchUniverse order (k.searchRoots order g entry))
  refine exists_deadEnd_of_rank rank ?_ ?_ hv
  · rintro u w hu ⟨e, he, rfl, rfl, _, hback⟩
    obtain ⟨p, hp⟩ := hs.consistent.isWalk_of_reflTransGen order hu
    refine hrank _ ⟨entry, List.mem_cons_self, p, hp⟩ e ?_ hback
    exact (hs.consistent.mem_incidence_out order _ e).mpr
      ⟨rfl, hs.consistent.edges_attached g e he⟩
  · exact fun u w hu hstep => hu.tail hstep.edgeStep

/-- EXIT post-dominates after `FixupBackEdges` when the dead ends lead there. -/
theorem FixedUp.exitPostDominates_iff
    (hfix : FixedUp k order g (k.searchRoots order g entry) f) :
    f.ExitPostDominates g entry exit ↔ k.LeadsToExit order g entry exit := by
  have hstep : f.UnmarkedStep g = Either
      (k.ForwardStep order g (k.searchRoots order g entry))
      (k.Proxy order (k.searchRoots order g entry)) := by
    funext u v
    exact propext (hfix.unmarkedStep_iff hs.consistent u v)
  have hlive := hfix.reflTransGen_iff hs.consistent hs.encloses
    (hs.vertices entry hs.entry_mem)
  rw [ExitPostDominates, hstep]
  simp only [hlive]
  exact forall_reaches_iff (fun _ _ => hs.deadEnd_of_proxy)
    hs.deadEnd_exit fun v hv => hs.exists_deadEnd order hv

end leadsToExit

/-! ## Unmarked edges at redundant vertices -/

/-- The edge is unmarked, and reached from ENTRY. -/
def LiveUnmarked (f : Heap) (g : GraphPtr) (entry : VertexPtr) (e : EdgePtr) :
    Prop :=
  ReflTransGen (f.EdgeStep g) entry (f.edge e).source ∧
    (f.edge e).isBackEdge = false

theorem UnmarkedStep.edgeStep {f : Heap} {g : GraphPtr} {u w : VertexPtr}
    (h : f.UnmarkedStep g u w) : f.EdgeStep g u w := by
  obtain ⟨e, he, hsource, htarget, _⟩ := h
  exact ⟨e, he, hsource, htarget⟩

theorem unmarked_iff_liveUnmarked {f : Heap} {g : GraphPtr}
    {entry u w : VertexPtr} (hu : ReflTransGen (f.EdgeStep g) entry u) :
    ReflTransGen (f.UnmarkedStep g) u w ↔
      ReflTransGen (f.StepIn g (f.LiveUnmarked g entry)) u w := by
  refine reflTransGen_iff_of_closed
    (L := fun u => ReflTransGen (f.EdgeStep g) entry u) (fun u w hu => ?_)
    (fun u w hu hstep => hu.tail hstep.edgeStep) hu
  constructor
  · rintro ⟨e, he, rfl, htarget, hmark⟩
    exact ⟨e, he, ⟨hu, hmark⟩, rfl, htarget⟩
  · rintro ⟨e, he, ⟨_, hmark⟩, hsource, htarget⟩
    exact ⟨e, he, hsource, htarget, hmark⟩

/-- A redundant vertex is reached when its in-edge is. -/
theorem FixedUp.live_source_iff {k f : Heap} {g : GraphPtr} {M : Set VertexPtr}
    {entry exit : VertexPtr} (hs : k.FlowShape g M entry exit)
    {order : IterationOrder}
    (hfix : FixedUp k order g (k.searchRoots order g entry) f) {v : VertexPtr}
    {a b : EdgePtr} (hred : f.isRedundant v = true)
    (ha : (f.vertex v).inEdges = {a}) (hb : (f.vertex v).outEdges = {b}) :
    ReflTransGen (f.EdgeStep g) entry (f.edge a).source ↔
      ReflTransGen (f.EdgeStep g) entry v := by
  have hlive := hfix.reflTransGen_iff hs.consistent hs.encloses
    (hs.vertices entry hs.entry_mem)
  obtain ⟨htarget, _, _⟩ := hfix.consistent.edges_eq ha hb
  constructor
  · intro hreach
    have hamem : a ∈ (f.graph g).edges := by
      obtain ⟨p, hp⟩ := hs.consistent.isWalk_of_reflTransGen order
        ((hlive _).mp hreach)
      have hM := hs.consistent.mem_of_isWalk hs.encloses
        (hs.vertices entry hs.entry_mem) hp
      have hfM := hfix.encloses hs.consistent hs.encloses hs.roots_mem
      exact (hfM.mem_edges_source a).mpr hM
    exact hreach.tail ⟨a, hamem, rfl, (htarget a).mpr rfl⟩
  · intro hreach
    rcases ReflTransGen.cases_tail hreach with heq | ⟨w, hw, e, _, hew, hev⟩
    · -- ENTRY is not redundant.
      rw [isRedundant, Bool.and_eq_true, hfix.statement_eq] at hred
      exact absurd heq (hs.ne_of_isRedundantKind hred.1).1
    · rwa [← (htarget e).mp hev, hew]

/-- At a redundant vertex the in-edge is reached when the vertex is, and so is
the out-edge. -/
theorem FixedUp.passesThrough {k f : Heap} {g : GraphPtr} {M : Set VertexPtr}
    {entry exit : VertexPtr} (hs : k.FlowShape g M entry exit)
    {order : IterationOrder}
    (hfix : FixedUp k order g (k.searchRoots order g entry) f)
    (hout : ∀ v b, ReflTransGen (k.EdgeStep g) entry v →
      f.isRedundant v = true → (f.vertex v).outEdges = {b} →
        (f.edge b).isBackEdge = false) :
    f.PassesThrough (f.LiveUnmarked g entry) := by
  have hlive := hfix.reflTransGen_iff hs.consistent hs.encloses
    (hs.vertices entry hs.entry_mem)
  intro v a b hred ha hb
  obtain ⟨_, hsource, _⟩ := hfix.consistent.edges_eq ha hb
  have hbv := (hsource b).mpr rfl
  have hsame := hfix.live_source_iff hs hred ha hb
  constructor
  · rintro ⟨hreach, _⟩
    have hv := hsame.mp hreach
    exact ⟨hbv.symm ▸ hv, hout v b ((hlive v).mp hv) hred hb⟩
  · rintro ⟨hreach, _⟩
    rw [hbv] at hreach
    exact ⟨hsame.mpr hreach,
      hfix.inEdge_unmarked hs ((hlive v).mp hreach) hred ha⟩

/-- A dead end is not redundant: its only out-edge would have to be marked. -/
theorem FixedUp.isRedundant_of_deadEnd {k f : Heap} {g : GraphPtr}
    {M : Set VertexPtr} {entry exit : VertexPtr}
    (hs : k.FlowShape g M entry exit) {order : IterationOrder}
    (hfix : FixedUp k order g (k.searchRoots order g entry) f)
    (hout : ∀ v b, ReflTransGen (k.EdgeStep g) entry v →
      f.isRedundant v = true → (f.vertex v).outEdges = {b} →
        (f.edge b).isBackEdge = false) {d : VertexPtr}
    (hreach : ReflTransGen (k.EdgeStep g) entry d)
    (hd : DeadEnd (k.ForwardStep order g (k.searchRoots order g entry)) d) :
    f.isRedundant d = false := by
  rw [← Bool.not_eq_true]
  intro hred
  obtain ⟨_, b, _, hb, _⟩ := hfix.consistent.exists_edges hred
  obtain ⟨_, b', _, hb', _, hsource, hd0, _⟩ :=
    hs.consistent.exists_edges (hfix.isRedundant_of hs.consistent hred)
  obtain rfl : b' = b := by
    have hmem := (hfix.edges_subset hs.consistent d).1 (by rw [hb']; simp : b' ∈ _)
    rwa [hb, Finset.mem_singleton] at hmem
  have hmark := hout d b' hreach hred hb
  obtain ⟨_, hedge, hiff⟩ :=
    hfix.old b' (hs.consistent.lt_nextEdge (hsource ▸ hd0))
  rw [hedge, ← Bool.not_eq_true, hiff, not_or, Bool.not_eq_true] at hmark
  obtain ⟨p, hp⟩ := hs.consistent.isWalk_of_reflTransGen order hreach
  have hdM := hs.consistent.mem_of_isWalk hs.encloses
    (hs.vertices entry hs.entry_mem) hp
  exact hd _ ⟨b', (hs.encloses.mem_edges_source b').mpr (hsource ▸ hdM),
    hsource, rfl, hmark.1, hmark.2⟩

end Heap

/-! ## After the contraction -/

namespace CreateRun

variable {k : Heap} {fixupOrder removalOrder : IterationOrder} {g : GraphPtr}
  {M : Set VertexPtr} {entry exit : VertexPtr} {f c h' : Heap}
  (hr : CreateRun k fixupOrder removalOrder g entry f c h')
  (hs : k.FlowShape g M entry exit)

include hr hs

theorem notMem_removed_of_ne {v : VertexPtr} (hv : v = entry ∨ v = exit) :
    v ∉ f.redundantVertices removalOrder g := by
  intro hmem
  have hred := ((hr.mem_removed v).mp hmem).2
  rw [Heap.isRedundant, Bool.and_eq_true, hr.fixedUp.statement_eq] at hred
  obtain ⟨hentry, hexit⟩ := hs.ne_of_isRedundantKind hred.1
  exact hv.elim hentry hexit

theorem live_iff {v : VertexPtr}
    (hv : v ∉ f.redundantVertices removalOrder g) :
    ReflTransGen (h'.EdgeStep g) entry v ↔
      ReflTransGen (k.EdgeStep g) entry v := by
  rw [hr.edgeStep_iff (hr.notMem_removed_of_ne hs (.inl rfl)) hv]
  exact hr.fixedUp.reflTransGen_iff hs.consistent hs.encloses
    (hs.vertices entry hs.entry_mem) v

/-- Nothing that has been contracted is reached any more. -/
theorem notMem_removed_of_live {v : VertexPtr}
    (hv : ReflTransGen (h'.EdgeStep g) entry v) :
    v ∉ f.redundantVertices removalOrder g := by
  rcases ReflTransGen.cases_tail hv with rfl | ⟨w, _, e, he, _, rfl⟩
  · exact hr.notMem_removed_of_ne hs (.inl rfl)
  · intro hmem
    rw [hr.edges_eq] at he
    rw [hr.edge_eq] at hmem
    exact (hr.contractsTo.edges_removed hr.fixedUp.consistent _ hmem e he).2 rfl

/-- The unmarked edges of the finished graph, by the edges they were before. -/
theorem unmarked_iff {u w : VertexPtr}
    (hu : ReflTransGen (h'.EdgeStep g) entry u) :
    ReflTransGen (h'.UnmarkedStep g) u w ↔
      ReflTransGen (h'.StepIn g (f.LiveUnmarked g entry)) u w := by
  have hcontracted := hr.contractsTo.contracted hr.fixedUp.consistent
  refine reflTransGen_iff_of_closed
    (L := fun u => ReflTransGen (h'.EdgeStep g) entry u) (fun u w hu => ?_)
    (fun u w hu hstep => hu.tail hstep.edgeStep) hu
  have hlive : ReflTransGen (f.EdgeStep g) entry u :=
    (hr.edgeStep_iff (hr.notMem_removed_of_ne hs (.inl rfl))
      (hr.notMem_removed_of_live hs hu)).mp hu
  have hold : ∀ e ∈ (h'.graph g).edges,
      (f.edge e).source = (h'.edge e).source ∧
        (f.edge e).isBackEdge = (h'.edge e).isBackEdge := by
    intro e he
    rw [hr.edges_eq] at he
    obtain ⟨_, hedge⟩ := hcontracted.edge e he
    rw [hr.edge_eq, hedge]
    exact ⟨rfl, rfl⟩
  constructor
  · rintro ⟨e, he, rfl, htarget, hmark⟩
    obtain ⟨hsource, hmarkEq⟩ := hold e he
    exact ⟨e, he, ⟨hsource.symm ▸ hlive, hmarkEq.trans hmark⟩, rfl, htarget⟩
  · rintro ⟨e, he, ⟨_, hmark⟩, hsource, htarget⟩
    exact ⟨e, he, hsource, htarget, (hold e he).2.symm.trans hmark⟩

/-- Contraction keeps the way to EXIT, unless the only edge out of a redundant
vertex is marked. -/
theorem exitPostDominates_of_unmarked
    (hout : ∀ v b, ReflTransGen (k.EdgeStep g) entry v →
      f.isRedundant v = true → (f.vertex v).outEdges = {b} →
        (f.edge b).isBackEdge = false) :
    h'.ExitPostDominates g entry exit ↔ f.ExitPostDominates g entry exit := by
  have hfix := hr.fixedUp
  have hlive := hfix.reflTransGen_iff hs.consistent hs.encloses
    (hs.vertices entry hs.entry_mem)
  have hpass := hfix.passesThrough hs hout
  have hexit := hr.notMem_removed_of_ne hs (.inr rfl)
  -- The two graphs agree on the way to EXIT from any vertex that stays.
  have hagree : ∀ v, v ∉ f.redundantVertices removalOrder g →
      ReflTransGen (k.EdgeStep g) entry v →
        (ReflTransGen (h'.UnmarkedStep g) v exit ↔
          ReflTransGen (f.UnmarkedStep g) v exit) := by
    intro v hv hreach
    rw [hr.unmarked_iff hs ((hr.live_iff hs hv).mpr hreach),
      Heap.unmarked_iff_liveUnmarked ((hlive v).mpr hreach)]
    exact hr.reflTransGen_iff hpass hv hexit
  constructor
  · intro h'Exit v hv
    obtain ⟨d, hreach, hvd, hd⟩ :=
      hs.exists_deadEnd fixupOrder ((hlive v).mp hv)
    have hred := hfix.isRedundant_of_deadEnd hs hout hreach hd
    have hwalk : ReflTransGen (f.UnmarkedStep g) v d :=
      ReflTransGen.mono (fun u w hstep =>
        (hfix.unmarkedStep_iff hs.consistent u w).mpr (.inl hstep)) _ _ hvd
    refine hwalk.trans ((hagree d (hr.notMem_removed hred) hreach).mp ?_)
    exact h'Exit d ((hr.live_iff hs (hr.notMem_removed hred)).mpr hreach)
  · intro hfExit v hv
    have hv' := hr.notMem_removed_of_live hs hv
    have hreach := (hr.live_iff hs hv').mp hv
    exact (hagree v hv' hreach).mpr (hfExit v ((hlive v).mpr hreach))

/-- In the finished graph EXIT post-dominates when the dead ends of the search
lead there. -/
theorem exitPostDominates_iff
    (hno : ¬ k.NoWayOut fixupOrder (k.searchRoots fixupOrder g entry)) :
    h'.ExitPostDominates g entry exit ↔
      k.LeadsToExit fixupOrder g entry exit := by
  have hfix := hr.fixedUp
  by_cases hout : ∀ v b, ReflTransGen (k.EdgeStep g) entry v →
      f.isRedundant v = true → (f.vertex v).outEdges = {b} →
        (f.edge b).isBackEdge = false
  · rw [hr.exitPostDominates_of_unmarked hs hout]
    exact hfix.exitPostDominates_iff hs
  · push Not at hout
    obtain ⟨v, b, hlive, hred, hb, hmark⟩ := hout
    obtain ⟨t, ht, htred, htrapped⟩ := hfix.exists_trapped hs hno hlive hred hb
      (by simpa using hmark)
    have htmem := hr.notMem_removed htred
    refine iff_of_false (fun hexit => ?_) (fun hlead => ?_)
    · have hreach := hexit t ((hr.live_iff hs htmem).mpr ht)
      refine htrapped ((hr.edgeStep_iff htmem
        (hr.notMem_removed_of_ne hs (.inr rfl))).mp ?_)
      exact ReflTransGen.mono (fun _ _ => Heap.UnmarkedStep.edgeStep) _ _ hreach
    · have hreach := (hfix.exitPostDominates_iff hs).mpr hlead t
        ((hfix.reflTransGen_iff hs.consistent hs.encloses
          (hs.vertices entry hs.entry_mem) t).mpr ht)
      exact htrapped
        (ReflTransGen.mono (fun _ _ => Heap.UnmarkedStep.edgeStep) _ _ hreach)

end CreateRun

section result

variable {h : Heap} {this : FunctionPtr} {l : List VertexPtr}

/-- EXIT post-dominates what the function can come to exactly when the search
finds its ways out, and following them from dead end to dead end leads to
EXIT. -/
theorem createControlFlowGraph_exit_iff (hf : h.Fresh this l)
    (fixupOrder removalOrder : IterationOrder) :
    (h.createControlFlowGraph fixupOrder removalOrder this l).Holds
        (fun h' => h'.ExitPostDominates (h'.function this).theCfg
          (h'.function this).entryVertexDesc
          (h'.function this).exitVertexDesc) ↔
      (h.connectedFlow this l).Holds fun k =>
        ¬ k.NoWayOut fixupOrder (k.searchRoots fixupOrder
            (h.function this).theCfg h.entryPtr) ∧
          k.LeadsToExit fixupOrder (h.function this).theCfg h.entryPtr
            h.exitPtr := by
  obtain ⟨k, ρ, hrun, hk⟩ := connectedFlow_spec hf
  rcases createControlFlowGraph_spec hf hrun hk fixupOrder removalOrder with
    ⟨hno, hcreate⟩ | ⟨hno, f, c, h', hcreate, hr⟩
  · rw [hcreate, hrun, Result.holds_ok]
    exact iff_of_false Result.not_holds_error fun hcond => hcond.1 hno
  · obtain ⟨_, _, hfunction, _, _⟩ := hk.function
    rw [hcreate, hrun, Result.holds_ok, Result.holds_ok, and_iff_right hno,
      hr.function_eq, hfunction, Function.update_self]
    exact hr.exitPostDominates_iff (hk.flowShape hf) hno

/-- In `infiniteLoop` there is no way to EXIT from anywhere. -/
theorem createControlFlowGraph_exit_infiniteLoop :
    (Heap.singleFunction infiniteLoop).2.Fresh 1
        (Heap.singleFunction infiniteLoop).1 ∧
      LabelsDefined infiniteLoop ∧
        ¬ ((Heap.singleFunction infiniteLoop).2.createControlFlowGraph
          .ascending .ascending 1 (Heap.singleFunction infiniteLoop).1).Holds
            (fun h' => h'.ExitPostDominates (h'.function 1).theCfg
              (h'.function 1).entryVertexDesc
              (h'.function 1).exitVertexDesc) := by
  refine ⟨Heap.singleFunction_fresh _, by unfold LabelsDefined; decide, ?_⟩
  obtain ⟨h', hrun, hcfg, hentry, hexit, _, hunreached⟩ := infiniteLoop_flow
  rintro ⟨_, hok, hpost⟩
  obtain rfl := Except.ok.inj (hrun.symm.trans hok)
  rw [hcfg, hentry, hexit] at hpost
  refine hunreached ?_
  exact ReflTransGen.mono (fun _ _ => Heap.UnmarkedStep.edgeStep) _ _
    (hpost 3 .refl)

/-- Besides EXIT the search for back edges of `whileLoop` gets stuck at the goto, whose
proxy edge leads to the branch out of the loop. -/
theorem whileLoop_leadsToExit :
    ((Heap.singleFunction whileLoop).2.connectedFlow 1
      (Heap.singleFunction whileLoop).1).Holds fun k =>
        ¬ k.NoWayOut .ascending (k.searchRoots .ascending 1 7) ∧
          k.LeadsToExit .ascending 1 7 8 := by
  obtain ⟨k, f, hrun, -, hc, hM, hno, hfix, ⟨hentry, hmem, hon, hleave⟩, hnext, hnext',
    hedge⟩ := whileLoop_flow
  obtain ⟨k', _, hrun', hk⟩ := connectedFlow_spec (Heap.singleFunction_fresh whileLoop)
  obtain rfl := Except.ok.inj (hrun.symm.trans hrun')
  have hexit : DeadEnd (k.ForwardStep .ascending 1 (k.searchRoots .ascending 1 7)) 8 :=
    (hk.flowShape (Heap.singleFunction_fresh whileLoop)).deadEnd_exit
  have hbranch : k.ForwardStep .ascending 1 (k.searchRoots .ascending 1 7) 6 8 := by
    rcases hon 6 hmem with h | h | ⟨e, he, hsource, hmark⟩
    · exact absurd h (by decide)
    · exact absurd h (by decide)
    · have hstep := hfix.forwardStep hc he hmark
      rwa [hsource, hleave e he (.inl hsource)] at hstep
  -- From the goto over the proxy edge to the branch out of the loop, and on to EXIT.
  have hhop : Hop (k.ForwardStep .ascending 1 (k.searchRoots .ascending 1 7))
      (k.Proxy .ascending (k.searchRoots .ascending 1 7)) 10 8 := by
    obtain ⟨s, t, hproxy, he⟩ := hfix.new 11 (Nat.le_of_eq hnext) (by rw [hnext']; decide)
    rw [hedge, Edge.mk.injEq] at he
    obtain ⟨rfl, rfl, -⟩ := he
    exact ⟨6, hproxy, .single hbranch, hexit⟩
  refine ⟨k, hrun, hno, fun d hreach hdead => ?_⟩
  have hd : d ∈ (k.graph 1).vertices := by
    induction hreach with
    | refl => exact hentry
    | tail _ hstep _ =>
        obtain ⟨e, he, _, rfl⟩ := hstep
        exact (hM.mem_edges_target e).mp he
  rcases hon d hd with rfl | rfl | ⟨e, he, rfl, hmark⟩
  · exact .refl
  · exact .single hhop
  · exact absurd (hfix.forwardStep hc he hmark) (hdead _)

theorem createControlFlowGraph_exit_iff_whileLoop :
    ((Heap.singleFunction whileLoop).2.connectedFlow 1
      (Heap.singleFunction whileLoop).1).Holds (fun k =>
        ¬ k.NoWayOut .ascending (k.searchRoots .ascending 1 7) ∧
          k.LeadsToExit .ascending 1 7 8) ∧
    ((Heap.singleFunction whileLoop).2.createControlFlowGraph
        .ascending .ascending 1 (Heap.singleFunction whileLoop).1).Holds
          (fun h' => h'.ExitPostDominates (h'.function 1).theCfg
            (h'.function 1).entryVertexDesc
            (h'.function 1).exitVertexDesc) :=
  ⟨whileLoop_leadsToExit,
    (createControlFlowGraph_exit_iff (Heap.singleFunction_fresh whileLoop)
      .ascending .ascending).mpr whileLoop_leadsToExit⟩

end result

end CoFlo.Ports
