import Mathlib.Data.List.Basic
import Mathlib.Data.Set.Insert

/-!
# Walks over a procedure and everything it calls

Each procedure is a graph, and some of its vertices are calls.  Putting a copy
of the called procedure in the place of every call gives one graph, whose
vertices are those of the procedures under the calls that are open there
(`Inlined`).

A walk that goes through a procedure in a topological order and, at a call,
through all of the called procedure before it goes on (`Walk`), is a topological
order of that graph (`Walk.topological`).
-/

namespace CoFlo.Verified.InlinedWalk

/-- Procedures, and the calls among their vertices. -/
structure Graphs (F V : Type*) where
  vertices : F → Set V
  entry : F → V
  exit : F → V
  step : V → V → Prop
  callee : V → Option F

/-- A vertex under the calls that are open, the innermost first. -/
abbrev Node (V : Type*) := List V × V

variable {F V : Type*} (G : Graphs F V)

/-- The edges when every call is replaced by what it calls. -/
inductive Edge : Node V → Node V → Prop where
  | inside {κ : List V} {u v : V} (hu : G.callee u = none) (huv : G.step u v) :
      Edge (κ, u) (κ, v)
  | enter {κ : List V} {c : V} {g : F} (hc : G.callee c = some g) :
      Edge (κ, c) (c :: κ, G.entry g)
  | leave {κ : List V} {c v : V} {g : F} (hc : G.callee c = some g)
      (hcv : G.step c v) : Edge (c :: κ, G.exit g) (κ, v)

/-- The calls lead from one procedure into another. -/
inductive Opens (f : F) : List V → F → Prop where
  | nil : Opens f [] f
  | cons {κ : List V} {c : V} {g g' : F} (hκ : Opens f κ g)
      (hmem : c ∈ G.vertices g) (hc : G.callee c = some g') :
      Opens f (c :: κ) g'

/-- The vertices when every call in `f` is replaced by what it calls. -/
def Inlined (f : F) (n : Node V) : Prop :=
  ∃ g, Opens G f n.1 g ∧ n.2 ∈ G.vertices g

/-- A topological order of a procedure that ends with its exit. -/
structure IsOrder (g : F) (order : List V) : Prop where
  nodup : order.Nodup
  mem_iff : ∀ v, v ∈ order ↔ v ∈ G.vertices g
  after : ∀ l₁ v l₂, order = l₁ ++ v :: l₂ → ∀ u, G.step u v → u ∈ l₁
  last : ∃ l, order = l ++ [G.exit g]

/-- The walk over some vertices under the calls `κ`: after a call comes all of
what it calls. -/
inductive Walk : List V → List V → List (Node V) → Prop where
  | nil (κ : List V) : Walk κ [] []
  | plain {κ : List V} {v : V} {vs : List V} {l : List (Node V)}
      (hv : G.callee v = none) (hrest : Walk κ vs l) :
      Walk κ (v :: vs) ((κ, v) :: l)
  | call {κ : List V} {c : V} {vs : List V} {g : F} {order : List V}
      {inner l : List (Node V)} (hc : G.callee c = some g)
      (horder : IsOrder G g order) (hinner : Walk (c :: κ) order inner)
      (hrest : Walk κ vs l) : Walk κ (c :: vs) ((κ, c) :: (inner ++ l))

/-- A topological order of `f` with what it calls. -/
structure Topological (f : F) (l : List (Node V)) : Prop where
  nodup : l.Nodup
  mem_iff : ∀ n, n ∈ l ↔ Inlined G f n
  after : ∀ l₁ n l₂, l = l₁ ++ n :: l₂ → ∀ m, Edge G m n → m ∈ l₁

variable {G}

theorem IsOrder.exit_mem {g : F} {order : List V} (h : IsOrder G g order) :
    G.exit g ∈ order := by
  obtain ⟨l, hl⟩ := h.last
  rw [hl]
  exact List.mem_append_right _ (List.mem_singleton.mpr rfl)

/-! ## The calls, from the outermost -/

theorem Opens.snoc {f g g' : F} {c : V} {κ : List V} (hmem : c ∈ G.vertices f)
    (hc : G.callee c = some g) (hκ : Opens G g κ g') : Opens G f (κ ++ [c]) g' := by
  induction hκ with
  | nil => exact .cons .nil hmem hc
  | cons _ hmem' hc' ih => exact .cons ih hmem' hc'

theorem Opens.outermost {f g : F} {κ : List V} (h : Opens G f κ g) :
    (κ = [] ∧ f = g) ∨ ∃ κ' c g', κ = κ' ++ [c] ∧ c ∈ G.vertices f ∧
      G.callee c = some g' ∧ Opens G g' κ' g := by
  induction h with
  | nil => exact .inl ⟨rfl, rfl⟩
  | @cons κ c g g' _ hmem hc ih =>
      right
      rcases ih with ⟨rfl, rfl⟩ | ⟨κ', d, g₁, rfl, hd, hdc, hrest⟩
      · exact ⟨[], c, g', rfl, hmem, hc, .nil⟩
      · exact ⟨c :: κ', d, g₁, rfl, hd, hdc, .cons hrest hmem hc⟩

/-- A vertex of `f` itself, or one of what a call in `f` calls. -/
theorem inlined_iff {f : F} {n : Node V} :
    Inlined G f n ↔ (n.1 = [] ∧ n.2 ∈ G.vertices f) ∨
      ∃ κ c g, n.1 = κ ++ [c] ∧ c ∈ G.vertices f ∧ G.callee c = some g ∧
        Inlined G g (κ, n.2) := by
  constructor
  · rintro ⟨g, hopens, hmem⟩
    rcases hopens.outermost with ⟨hnil, rfl⟩ | ⟨κ, c, g', heq, hc, hcall, hrest⟩
    · exact .inl ⟨hnil, hmem⟩
    · exact .inr ⟨κ, c, g', heq, hc, hcall, g, hrest, hmem⟩
  · rintro (⟨hnil, hmem⟩ | ⟨κ, c, g, heq, hc, hcall, g', hopens, hmem⟩)
    · exact ⟨f, hnil ▸ .nil, hmem⟩
    · exact ⟨g', heq ▸ hopens.snoc hc hcall, hmem⟩

/-! ## What a walk comes to -/

theorem Walk.mem_iff {κ vs : List V} {l : List (Node V)} (h : Walk G κ vs l)
    (n : Node V) : n ∈ l ↔ (n.1 = κ ∧ n.2 ∈ vs) ∨
      ∃ κ' c g, n.1 = κ' ++ c :: κ ∧ c ∈ vs ∧ G.callee c = some g ∧
        Inlined G g (κ', n.2) := by
  induction h with
  | nil κ => simp
  | @plain κ v vs l hv _ ih =>
      rw [List.mem_cons, ih, Prod.ext_iff]
      constructor
      · rintro (⟨hκ, hn⟩ | ⟨hκ, hn⟩ | ⟨κ', c, g, hκ, hc, hcall, hin⟩)
        · exact .inl ⟨hκ, hn ▸ List.mem_cons_self⟩
        · exact .inl ⟨hκ, List.mem_cons_of_mem v hn⟩
        · exact .inr ⟨κ', c, g, hκ, List.mem_cons_of_mem v hc, hcall, hin⟩
      · rintro (⟨hκ, hn⟩ | ⟨κ', c, g, hκ, hc, hcall, hin⟩)
        · rcases List.mem_cons.mp hn with hn | hn
          · exact .inl ⟨hκ, hn⟩
          · exact .inr (.inl ⟨hκ, hn⟩)
        · rcases List.mem_cons.mp hc with rfl | hc
          · rw [hv] at hcall
            exact absurd hcall (by simp)
          · exact .inr (.inr ⟨κ', c, g, hκ, hc, hcall, hin⟩)
  | @call κ c vs g order inner l hc horder _ _ ihinner ih =>
      -- What the walk over the called procedure comes to.
      have hcallee : n ∈ inner ↔
          ∃ κ', n.1 = κ' ++ c :: κ ∧ Inlined G g (κ', n.2) := by
        rw [ihinner]
        constructor
        · rintro (⟨hκ, hn⟩ | ⟨κ', d, g', hκ, hd, hcall, hin⟩)
          · refine ⟨[], hκ, inlined_iff.mpr (.inl ⟨rfl, ?_⟩)⟩
            exact (horder.mem_iff _).mp hn
          · refine ⟨κ' ++ [d], by rw [hκ]; simp, inlined_iff.mpr (.inr ?_)⟩
            exact ⟨κ', d, g', rfl, (horder.mem_iff d).mp hd, hcall, hin⟩
        · rintro ⟨κ', hκ, hin⟩
          rcases inlined_iff.mp hin with ⟨hnil, hn⟩ | ⟨κ₁, d, g', heq, hd, hcall, hin'⟩
          · left
            dsimp only at hnil hn
            rw [hnil] at hκ
            exact ⟨hκ, (horder.mem_iff _).mpr hn⟩
          · right
            dsimp only at heq hin'
            rw [heq] at hκ
            exact ⟨κ₁, d, g', by rw [hκ]; simp, (horder.mem_iff d).mpr hd, hcall, hin'⟩
      rw [List.mem_cons, List.mem_append, hcallee, ih, Prod.ext_iff]
      constructor
      · rintro (⟨hκ, hn⟩ | ⟨κ', hκ, hin⟩ | ⟨hκ, hn⟩ | ⟨κ', d, g', hκ, hd, hcall, hin⟩)
        · exact .inl ⟨hκ, hn ▸ List.mem_cons_self⟩
        · exact .inr ⟨κ', c, g, hκ, List.mem_cons_self, hc, hin⟩
        · exact .inl ⟨hκ, List.mem_cons_of_mem c hn⟩
        · exact .inr ⟨κ', d, g', hκ, List.mem_cons_of_mem c hd, hcall, hin⟩
      · rintro (⟨hκ, hn⟩ | ⟨κ', d, g', hκ, hd, hcall, hin⟩)
        · rcases List.mem_cons.mp hn with hn | hn
          · exact .inl ⟨hκ, hn⟩
          · exact .inr (.inr (.inl ⟨hκ, hn⟩))
        · rcases List.mem_cons.mp hd with rfl | hd
          · rw [hc, Option.some.injEq] at hcall
            exact .inr (.inl ⟨κ', hκ, hcall ▸ hin⟩)
          · exact .inr (.inr (.inr ⟨κ', d, g', hκ, hd, hcall, hin⟩))

theorem ne_append_cons (κ κ' : List V) (c : V) : κ ≠ κ' ++ c :: κ := by
  intro hκ
  have hlength := congrArg List.length hκ
  simp only [List.length_append, List.length_cons] at hlength
  omega

/-- The innermost call is the vertex of the walk itself under which it is. -/
theorem Walk.mem_of_suffix {κ vs : List V} {l : List (Node V)} (h : Walk G κ vs l)
    {κ' : List V} {c v : V} (hmem : (κ' ++ c :: κ, v) ∈ l) : c ∈ vs := by
  rcases (h.mem_iff _).mp hmem with ⟨hκ, -⟩ | ⟨κ₁, d, g, hκ, hd, -⟩
  · exact absurd hκ.symm (ne_append_cons κ κ' c)
  · obtain ⟨-, heq⟩ := List.append_inj' hκ rfl
    rw [List.cons_eq_cons] at heq
    exact heq.1 ▸ hd

/-- Nothing comes twice. -/
theorem Walk.nodup {κ vs : List V} {l : List (Node V)} (h : Walk G κ vs l)
    (hvs : vs.Nodup) : l.Nodup := by
  induction h with
  | nil κ => exact List.nodup_nil
  | @plain κ v vs l _ hrest ih =>
      obtain ⟨hv, hvs⟩ := List.nodup_cons.mp hvs
      refine List.nodup_cons.mpr ⟨fun hmem => ?_, ih hvs⟩
      rcases (hrest.mem_iff _).mp hmem with ⟨-, hmem⟩ | ⟨κ', c, g, hκ, -⟩
      · exact hv hmem
      · exact ne_append_cons κ κ' c hκ
  | @call κ c vs g order inner l _ horder hinner hrest ihinner ih =>
      obtain ⟨hc, hvs⟩ := List.nodup_cons.mp hvs
      -- The walk over the called procedure is under one more call.
      have hunder : ∀ n ∈ inner, ∃ κ', n.1 = κ' ++ c :: κ := by
        intro n hn
        rcases (hinner.mem_iff n).mp hn with ⟨hκ, -⟩ | ⟨κ', d, g', hκ, -⟩
        · exact ⟨[], hκ⟩
        · exact ⟨κ' ++ [d], by rw [hκ]; simp⟩
      refine List.nodup_cons.mpr ⟨fun hmem => ?_, ?_⟩
      · rcases List.mem_append.mp hmem with hmem | hmem
        · obtain ⟨κ', hκ⟩ := hunder _ hmem
          exact ne_append_cons κ κ' c hκ
        · rcases (hrest.mem_iff _).mp hmem with ⟨-, hmem⟩ | ⟨κ', d, g', hκ, -⟩
          · exact hc hmem
          · exact ne_append_cons κ κ' d hκ
      · refine List.nodup_append.mpr ⟨ihinner horder.nodup, ih hvs, ?_⟩
        rintro n hn m hm rfl
        obtain ⟨κ', hκ⟩ := hunder n hn
        obtain ⟨κ₁, v⟩ := n
        dsimp only at hκ
        rw [hκ] at hm
        exact hc (hrest.mem_of_suffix hm)

/-! ## What comes before -/

theorem split_append {A : Type*} {a b l₁ l₂ : List A} {n : A}
    (h : a ++ b = l₁ ++ n :: l₂) :
    (∃ l', l₁ = a ++ l' ∧ b = l' ++ n :: l₂) ∨ ∃ l', a = l₁ ++ n :: l' := by
  rcases List.append_eq_append_iff.mp h with ⟨l', hl', hb⟩ | ⟨l', ha, hl'⟩
  · exact .inl ⟨l', hl', hb⟩
  · cases l' with
    | nil => exact .inl ⟨[], by simpa using ha.symm, hl'.symm⟩
    | cons m l' =>
        obtain ⟨rfl, -⟩ := List.cons_eq_cons.mp hl'
        exact .inr ⟨l', ha⟩

/-- The nodes `N` come before a walk under the calls `κ` that goes on after the
vertices `D`: those vertices, each call with the exit of what it calls, and the
innermost of the open calls. -/
structure ComesAfter (G : Graphs F V) (κ : List V) (D : Set V) (N : Set (Node V)) :
    Prop where
  plain : ∀ u ∈ D, G.callee u = none → (κ, u) ∈ N
  call : ∀ u ∈ D, ∀ g, G.callee u = some g → (u :: κ, G.exit g) ∈ N
  opened : ∀ c κ', κ = c :: κ' → (κ', c) ∈ N

theorem ComesAfter.pred {κ : List V} {D : Set V} {N : Set (Node V)}
    (h : ComesAfter G κ D N) {v : V} (hv : ∀ u, G.step u v → u ∈ D) {m : Node V}
    (hm : Edge G m (κ, v)) : m ∈ N := by
  generalize hn : (κ, v) = n at hm
  cases hm with
  | inside hu huv =>
      obtain ⟨rfl, rfl⟩ := Prod.mk.inj hn
      exact h.plain _ (hv _ huv) hu
  | enter hc =>
      obtain ⟨hκ, -⟩ := Prod.mk.inj hn
      exact h.opened _ _ hκ
  | leave hc hcv =>
      obtain ⟨rfl, rfl⟩ := Prod.mk.inj hn
      exact h.call _ (hv _ hcv) _ hc

/-- Nothing comes before the first call. -/
theorem ComesAfter.start : ComesAfter G [] ∅ ∅ where
  plain u hu := absurd hu (Set.notMem_empty u)
  call u hu := absurd hu (Set.notMem_empty u)
  opened c κ' hκ := absurd hκ (by simp)

/-- Behind the next vertex of the walk. -/
theorem ComesAfter.next {κ : List V} {D : Set V} {N N' : Set (Node V)}
    (h : ComesAfter G κ D N) (hN : N ⊆ N') {v : V}
    (hplain : G.callee v = none → (κ, v) ∈ N')
    (hcall : ∀ g, G.callee v = some g → (v :: κ, G.exit g) ∈ N') :
    ComesAfter G κ (insert v D) N' where
  plain := by
    rintro u (rfl | hu) hnone
    · exact hplain hnone
    · exact hN (h.plain u hu hnone)
  call := by
    rintro u (rfl | hu) g hg
    · exact hcall g hg
    · exact hN (h.call u hu g hg)
  opened c κ' hκ := hN (h.opened c κ' hκ)

/-- At the beginning of what is called. -/
theorem ComesAfter.enter (κ : List V) (c : V) (N : Set (Node V)) :
    ComesAfter G (c :: κ) ∅ (insert (κ, c) N) where
  plain u hu := absurd hu (Set.notMem_empty u)
  call u hu := absurd hu (Set.notMem_empty u)
  opened d κ' hκ := by
    obtain ⟨rfl, rfl⟩ := List.cons_eq_cons.mp hκ
    exact .inl rfl

/-- What leads to a vertex of the list is in `D` or stands before it. -/
def FedBy (G : Graphs F V) (D : Set V) (vs : List V) : Prop :=
  ∀ a v b, vs = a ++ v :: b → ∀ u, G.step u v → u ∈ D ∨ u ∈ a

theorem FedBy.head {D : Set V} {v : V} {vs : List V} (h : FedBy G D (v :: vs)) :
    ∀ u, G.step u v → u ∈ D := fun u hu =>
  (h [] v vs rfl u hu).resolve_right List.not_mem_nil

theorem FedBy.tail {D : Set V} {v : V} {vs : List V} (h : FedBy G D (v :: vs)) :
    FedBy G (insert v D) vs := by
  rintro a w b rfl u hu
  rcases h (v :: a) w b rfl u hu with hu | hu
  · exact .inl (.inr hu)
  · rcases List.mem_cons.mp hu with rfl | hu
    · exact .inl (.inl rfl)
    · exact .inr hu

theorem IsOrder.fedBy {g : F} {order : List V} (h : IsOrder G g order) :
    FedBy G ∅ order := fun a v b hab u hu => .inr (h.after a v b hab u hu)

/-- Everything on a walk comes after what leads to it. -/
theorem Walk.after {κ vs : List V} {l : List (Node V)} (h : Walk G κ vs l)
    {D : Set V} {N : Set (Node V)} (hN : ComesAfter G κ D N) (hvs : FedBy G D vs)
    {l₁ l₂ : List (Node V)} {n : Node V} (hl : l = l₁ ++ n :: l₂) {m : Node V}
    (hm : Edge G m n) : m ∈ N ∨ m ∈ l₁ := by
  induction h generalizing D N l₁ l₂ with
  | nil κ => simp at hl
  | @plain κ v vs l hv _ ih =>
      rcases l₁ with - | ⟨n₀, l₁⟩
      · obtain ⟨rfl, -⟩ := List.cons_eq_cons.mp hl
        exact .inl (hN.pred hvs.head hm)
      · rw [List.cons_append] at hl
        obtain ⟨rfl, htail⟩ := List.cons_eq_cons.mp hl
        have hnext : ComesAfter G κ (insert v D) (insert (κ, v) N) :=
          hN.next (Set.subset_insert _ N) (fun _ => .inl rfl) fun g hg => by
            rw [hv] at hg
            exact absurd hg (by simp)
        rcases ih hnext hvs.tail htail with (rfl | hmem) | hmem
        · exact .inr List.mem_cons_self
        · exact .inl hmem
        · exact .inr (List.mem_cons_of_mem _ hmem)
  | @call κ c vs g order inner l hc horder hinner _ ihinner ih =>
      rcases l₁ with - | ⟨n₀, l₁⟩
      · obtain ⟨rfl, -⟩ := List.cons_eq_cons.mp hl
        exact .inl (hN.pred hvs.head hm)
      · rw [List.cons_append] at hl
        obtain ⟨rfl, htail⟩ := List.cons_eq_cons.mp hl
        rcases split_append htail with ⟨l', rfl, hl'⟩ | ⟨l', hl'⟩
        · -- After the called procedure, whose exit has been come to.
          have hexit : ∀ g', G.callee c = some g' → (c :: κ, G.exit g') ∈ inner := by
            intro g' hg'
            rw [hc, Option.some.injEq] at hg'
            exact (hinner.mem_iff _).mpr (.inl ⟨rfl, hg' ▸ horder.exit_mem⟩)
          have hnext : ComesAfter G κ (insert c D)
              (insert (κ, c) N ∪ {n | n ∈ inner}) :=
            hN.next (fun _ hn => .inl (.inr hn)) (fun _ => .inl (.inl rfl))
              fun g' hg' => .inr (hexit g' hg')
          rcases ih hnext hvs.tail hl' with ((rfl | hmem) | hmem) | hmem
          · exact .inr List.mem_cons_self
          · exact .inl hmem
          · exact .inr (List.mem_cons_of_mem _ (List.mem_append_left _ hmem))
          · exact .inr (List.mem_cons_of_mem _ (List.mem_append_right _ hmem))
        · -- In the called procedure.
          rcases ihinner (.enter κ c N) horder.fedBy hl' with (rfl | hmem) | hmem
          · exact .inr List.mem_cons_self
          · exact .inl hmem
          · exact .inr (List.mem_cons_of_mem _ hmem)

/-- A walk over a procedure is a topological order of what it is when every
call is replaced. -/
theorem Walk.topological {f : F} {order : List V} {l : List (Node V)}
    (horder : IsOrder G f order) (h : Walk G [] order l) : Topological G f l where
  nodup := h.nodup horder.nodup
  mem_iff n := by
    rw [h.mem_iff, inlined_iff]
    simp only [horder.mem_iff]
  after l₁ n l₂ hl m hm := by
    have hbefore := h.after .start horder.fedBy hl hm
    exact hbefore.resolve_left (Set.notMem_empty m)

end CoFlo.Verified.InlinedWalk
