import CoFlo.Verified.DepthFirstSearch

/-!
# Least walks

Which walk a depth-first search takes to a vertex can be said without running
it.  Compare walks from one root edge by edge, in the order in which the
out-edges of the vertex they part at are listed: the search reaches a vertex
along the least of the simple walks to it, and it does so from the first root
that has a walk to it at all.  `SearchPath` is that notion.  It depends on the
graph, on the order of its out-edges and on the list of roots only;
`SearchPath.unique` says that there is at most one per vertex.
-/

namespace CoFlo.Verified.DepthFirstSearch

variable {V E : Type*} (G : Incidence V E)

/-! ## Walks -/

/-- `p` is a walk from `u` to `v`. -/
def IsWalk (u : V) : List E → V → Prop
  | [], v => u = v
  | e :: p, v => e ∈ G.out u ∧ IsWalk (G.target e) p v

/-- The vertices of a walk, its first one included. -/
def walkVertices (u : V) (p : List E) : List V :=
  u :: p.map G.target

/-- A walk that visits no vertex twice. -/
def SimpleWalk (u : V) (p : List E) (v : V) : Prop :=
  IsWalk G u p v ∧ (walkVertices G u p).Nodup

/-- `e` is listed before `f`. -/
def Before (l : List E) (e f : E) : Prop :=
  ∃ l₁ l₂, l = l₁ ++ f :: l₂ ∧ e ∈ l₁

/-- The walk `p` from `u` turns off before `q` does. -/
def LexLt (u : V) (p q : List E) : Prop :=
  ∃ w c e f p' q', p = c ++ e :: p' ∧ q = c ++ f :: q' ∧ IsWalk G u c w ∧
    Before (G.out w) e f

/-- `p` is the least simple walk from `u` to `v`. -/
def LeastWalk (u : V) (p : List E) (v : V) : Prop :=
  SimpleWalk G u p v ∧ ∀ q, SimpleWalk G u q v → ¬ LexLt G u q p

/-- The walk along which a search from `roots` comes to `v`: the least one
from the first root that reaches `v`. -/
def SearchPath (roots : List V) (r : V) (p : List E) (v : V) : Prop :=
  ∃ pre post, roots = pre ++ r :: post ∧
    (∀ q ∈ pre, ∀ d, ¬ IsWalk G q d v) ∧ LeastWalk G r p v

variable {G}

theorem IsWalk.append {u v w : V} {p q : List E} (hp : IsWalk G u p v)
    (hq : IsWalk G v q w) : IsWalk G u (p ++ q) w := by
  induction p generalizing u with
  | nil =>
      have huv : u = v := hp
      rw [huv]
      exact hq
  | cons e p ih => exact ⟨hp.1, ih hp.2⟩

theorem isWalk_append_iff {u w : V} {p q : List E} :
    IsWalk G u (p ++ q) w ↔ ∃ v, IsWalk G u p v ∧ IsWalk G v q w := by
  constructor
  · intro h
    induction p generalizing u with
    | nil => exact ⟨u, rfl, h⟩
    | cons e p ih =>
        obtain ⟨v, hp, hq⟩ := ih h.2
        exact ⟨v, ⟨h.1, hp⟩, hq⟩
  · rintro ⟨v, hp, hq⟩
    exact hp.append hq

theorem IsWalk.snoc {u v : V} {p : List E} {e : E} (hp : IsWalk G u p v)
    (he : e ∈ G.out v) : IsWalk G u (p ++ [e]) (G.target e) :=
  hp.append ⟨he, rfl⟩

/-- A walk has one end. -/
theorem IsWalk.unique {u v w : V} {p : List E} (hv : IsWalk G u p v)
    (hw : IsWalk G u p w) : v = w := by
  induction p generalizing u with
  | nil =>
      have huv : u = v := hv
      have huw : u = w := hw
      rw [← huv, ← huw]
  | cons e p ih => exact ih hv.2 hw.2

theorem IsWalk.end_mem {u v : V} {p : List E} (h : IsWalk G u p v) :
    v ∈ walkVertices G u p := by
  induction p generalizing u with
  | nil =>
      have huv : u = v := h
      rw [huv]
      exact List.mem_cons_self
  | cons e p ih => exact List.mem_cons_of_mem _ (ih h.2)

theorem walkVertices_append (u : V) (p q : List E) :
    walkVertices G u (p ++ q) = walkVertices G u p ++ q.map G.target := by
  rw [walkVertices, walkVertices, List.map_append, List.cons_append]

theorem SimpleWalk.prefix {u v w : V} {p q : List E}
    (h : SimpleWalk G u (p ++ q) w) (hp : IsWalk G u p v) :
    SimpleWalk G u p v := by
  refine ⟨hp, ?_⟩
  have hnodup := h.2
  rw [walkVertices_append, List.nodup_append] at hnodup
  exact hnodup.1

/-! ## The order of walks -/

theorem before_or_before {l : List E} {e f : E} (he : e ∈ l)
    (hf : f ∈ l) (hne : e ≠ f) : Before l e f ∨ Before l f e := by
  induction l with
  | nil => exact absurd he List.not_mem_nil
  | cons a l ih =>
      have hlift : ∀ {x y : E}, Before l x y → Before (a :: l) x y := by
        rintro x y ⟨l₁, l₂, rfl, hx⟩
        exact ⟨a :: l₁, l₂, rfl, List.mem_cons_of_mem _ hx⟩
      rcases List.mem_cons.mp he with rfl | he'
      · rcases List.mem_cons.mp hf with rfl | hf'
        · exact absurd rfl hne
        · obtain ⟨l₁, l₂, rfl⟩ := List.append_of_mem hf'
          exact .inl ⟨e :: l₁, l₂, rfl, List.mem_cons_self⟩
      · rcases List.mem_cons.mp hf with rfl | hf'
        · obtain ⟨l₁, l₂, rfl⟩ := List.append_of_mem he'
          exact .inr ⟨f :: l₁, l₂, rfl, List.mem_cons_self⟩
        · exact (ih he' hf').imp hlift hlift

theorem LexLt.cons {u : V} {e : E} (he : e ∈ G.out u) {p q : List E}
    (h : LexLt G (G.target e) p q) : LexLt G u (e :: p) (e :: q) := by
  obtain ⟨w, c, a, b, p', q', rfl, rfl, hc, hbefore⟩ := h
  exact ⟨w, e :: c, a, b, p', q', rfl, rfl, ⟨he, hc⟩, hbefore⟩

/-- Two simple walks between the same vertices, neither before the other, are
the same. -/
theorem SimpleWalk.eq_of_not_lexLt {u v : V} {p q : List E}
    (hp : SimpleWalk G u p v) (hq : SimpleWalk G u q v)
    (hpq : ¬ LexLt G u p q) (hqp : ¬ LexLt G u q p) : p = q := by
  classical
  -- A simple walk back to its first vertex is empty.
  have hloop : ∀ {u v : V} {e : E} {p : List E}, u = v →
      ¬ SimpleWalk G u (e :: p) v := by
    intro u v e p huv h
    have hmem := h.1.2.end_mem
    have hnodup := h.2
    rw [walkVertices, List.nodup_cons] at hnodup
    exact hnodup.1 (huv ▸ hmem)
  induction p generalizing u q with
  | nil =>
      cases q with
      | nil => rfl
      | cons f q => exact absurd hq (hloop hp.1)
  | cons e p ih =>
      cases q with
      | nil => exact absurd hp (hloop hq.1)
      | cons f q =>
          by_cases hef : e = f
          · subst hef
            have htail : ∀ {d : List E}, SimpleWalk G u (e :: d) v →
                SimpleWalk G (G.target e) d v := by
              intro d hd
              have hnodup := hd.2
              rw [walkVertices, List.map_cons, List.nodup_cons] at hnodup
              exact ⟨hd.1.2, hnodup.2⟩
            rw [ih (htail hp) (htail hq) (fun h => hpq (h.cons hp.1.1))
              (fun h => hqp (h.cons hp.1.1))]
          · rcases before_or_before hp.1.1 hq.1.1 hef with hb | hb
            · exact absurd ⟨u, [], e, f, p, q, rfl, rfl, rfl, hb⟩ hpq
            · exact absurd ⟨u, [], f, e, q, p, rfl, rfl, rfl, hb⟩ hqp

/-- What the first root reaches is searched from there. -/
theorem SearchPath.root_eq {r₀ r v : V} {roots : List V} {p d : List E}
    (h : SearchPath G (r₀ :: roots) r p v) (hd : IsWalk G r₀ d v) : r = r₀ := by
  obtain ⟨pre, post, hroots, hpre, _⟩ := h
  cases pre with
  | nil => exact (List.cons.inj hroots).1.symm
  | cons q pre =>
      obtain rfl := (List.cons.inj hroots).1
      exact absurd hd (hpre _ List.mem_cons_self d)

/-- There is at most one search path to a vertex. -/
theorem SearchPath.unique {roots : List V} {r r' : V} {p p' : List E} {v : V}
    (h : SearchPath G roots r p v) (h' : SearchPath G roots r' p' v) :
    r = r' ∧ p = p' := by
  obtain ⟨pre, post, hroots, hpre, hleast⟩ := h
  obtain ⟨pre', post', hroots', hpre', hleast'⟩ := h'
  have heq : pre ++ r :: post = pre' ++ r' :: post' := hroots ▸ hroots'
  have hr : r = r' := by
    rcases List.append_eq_append_iff.mp heq with ⟨d, hd, hd'⟩ | ⟨d, hd, hd'⟩
    · cases d with
      | nil => exact (List.cons.inj hd').1
      | cons a d =>
          obtain rfl := (List.cons.inj hd').1
          exact absurd hleast.1.1 (hpre' r (by simp [hd]) p)
    · cases d with
      | nil => exact (List.cons.inj hd').1.symm
      | cons a d =>
          obtain rfl := (List.cons.inj hd').1
          exact absurd hleast'.1.1 (hpre r' (by simp [hd]) p')
  subst hr
  exact ⟨rfl, hleast.1.eq_of_not_lexLt hleast'.1 (hleast'.2 p hleast.1)
    (hleast.2 p' hleast'.1)⟩

end CoFlo.Verified.DepthFirstSearch
