import Mathlib.Logic.Function.Basic

/-!
# Actions of a grammar

A parse tree is a production with a tree for each symbol on its right-hand side.  The
actions of a grammar run once for each node, children before parents; the action of a
production has the nodes of the children, which it addresses by their position, and
makes the node of the parent.  What nodes stand for are objects in a memory, to which
they point.

Whatever an action does to objects that were made since the first child was begun,
older objects stay as they are.  `Grammar.Sound` says what that takes of a single
action; then it holds of every parse tree (`Grammar.Sound.run_eq_ok`).
-/

namespace CoFlo.Verified.SyntaxActions

universe u v w x y

/-! ## Memory -/

/-- The objects made by `new`, by their addresses.  Zero is not an address. -/
structure Memory (O : Type u) where
  object : Nat → Option O
  allocated : Nat

namespace Memory

variable {O : Type u}

/-- A memory without objects. -/
def empty : Memory O := ⟨fun _ => none, 0⟩

/-- The memory with one more object, which is at the next address. -/
def new (m : Memory O) (o : O) : Memory O :=
  ⟨Function.update m.object (m.allocated + 1) (some o), m.allocated + 1⟩

/-- The memory after an object has been changed. -/
def write (m : Memory O) (p : Nat) (o : O) : Memory O :=
  { m with object := Function.update m.object p (some o) }

/-- `p` is an object made after the first `lo` and among the first `hi`. -/
structure Has (m : Memory O) (lo hi p : Nat) (o : O) : Prop where
  lt : lo < p
  le : p ≤ hi
  object : m.object p = some o

/-- The first `k` objects are still what they were. -/
structure Frame (k : Nat) (m m' : Memory O) : Prop where
  allocated_le : m.allocated ≤ m'.allocated
  object_eq : ∀ p ≤ k, m'.object p = m.object p

@[simp] theorem new_object_self (m : Memory O) (o : O) :
    (m.new o).object (m.allocated + 1) = some o := Function.update_self ..

theorem new_object_of_le (m : Memory O) (o : O) {p : Nat} (hp : p ≤ m.allocated) :
    (m.new o).object p = m.object p :=
  Function.update_of_ne (by omega) ..

@[simp] theorem write_object_self (m : Memory O) (p : Nat) (o : O) :
    (m.write p o).object p = some o := Function.update_self ..

theorem write_object_of_ne (m : Memory O) (o : O) {p q : Nat} (hq : q ≠ p) :
    (m.write p o).object q = m.object q :=
  Function.update_of_ne hq ..

theorem write_write (m : Memory O) (p : Nat) (o o' : O) :
    (m.write p o).write p o' = m.write p o' := by
  simp only [write, Function.update_idem]

theorem write_eq_self {m : Memory O} {p : Nat} {o : O} (h : m.object p = some o) :
    m.write p o = m := by
  simp only [write, ← h, Function.update_eq_self]

namespace Frame

variable {k : Nat} {m m' m'' : Memory O}

theorem refl (k : Nat) (m : Memory O) : Frame k m m := ⟨Nat.le_refl _, fun _ _ => rfl⟩

theorem trans (h : Frame k m m') (h' : Frame k m' m'') : Frame k m m'' where
  allocated_le := Nat.le_trans h.allocated_le h'.allocated_le
  object_eq p hp := (h'.object_eq p hp).trans (h.object_eq p hp)

theorem mono (h : Frame k m m') {j : Nat} (hj : j ≤ k) : Frame j m m' where
  allocated_le := h.allocated_le
  object_eq p hp := h.object_eq p (Nat.le_trans hp hj)

theorem new (m : Memory O) (o : O) (hk : k ≤ m.allocated) : Frame k m (m.new o) where
  allocated_le := Nat.le_succ _
  object_eq _ hp := new_object_of_le m o (Nat.le_trans hp hk)

theorem write (m : Memory O) (o : O) {p : Nat} (hk : k < p) : Frame k m (m.write p o) where
  allocated_le := Nat.le_refl _
  object_eq _ hq := write_object_of_ne m o (by omega)

end Frame

namespace Has

variable {m m' : Memory O} {lo hi p : Nat} {o : O}

theorem frame (h : m.Has lo hi p o) (hframe : Frame hi m m') : m'.Has lo hi p o where
  lt := h.lt
  le := h.le
  object := (hframe.object_eq p h.le).trans h.object

theorem mono (h : m.Has lo hi p o) {lo' hi' : Nat} (hlo : lo' ≤ lo) (hhi : hi ≤ hi') :
    m.Has lo' hi' p o :=
  ⟨Nat.lt_of_le_of_lt hlo h.lt, Nat.le_trans h.le hhi, h.object⟩

theorem ne_zero (h : m.Has lo hi p o) : p ≠ 0 := by
  have := h.lt
  omega

theorem new (m : Memory O) (o : O) (hlo : lo ≤ m.allocated) :
    (m.new o).Has lo (m.allocated + 1) (m.allocated + 1) o :=
  ⟨Nat.lt_succ_of_le hlo, Nat.le_refl _, new_object_self m o⟩

theorem write_self (h : m.Has lo hi p o) (o' : O) : (m.write p o').Has lo hi p o' :=
  ⟨h.lt, h.le, write_object_self m p o'⟩

/-- Changing an object keeps those that differ from it. -/
theorem write_of_object_ne {q : Nat} {o' : O} (h : m.Has lo hi q o)
    (hp : m.object p = some o') (hne : o ≠ o') (o'' : O) : (m.write p o'').Has lo hi q o where
  lt := h.lt
  le := h.le
  object := by
    rw [write_object_of_ne]
    · exact h.object
    · intro heq
      have hq := h.object
      rw [heq, hp] at hq
      exact hne (Option.some.inj hq).symm

end Has

end Memory

/-! ## Grammars and their parse trees -/

/-- A parse tree: a token, or a production with the trees of its right-hand side, and
the text it was made from. -/
inductive ParseTree (S : Type u) (P : Type v) where
  | token (symbol : S) (text : String)
  | node (production : P) (text : String) (children : List (ParseTree S P))

namespace ParseTree

variable {S : Type u} {P : Type v} {α : Type w}

/-- The text of a tree. -/
def text : ParseTree S P → String
  | token _ text => text
  | node _ text _ => text

mutual

/-- What `f` finds in a tree, from left to right; it does not look below a node where
it has found something. -/
def collect (f : ParseTree S P → Option (List α)) : ParseTree S P → List α
  | token s text => (f (token s text)).getD []
  | node p text ts => (f (node p text ts)).getD (collectAll f ts)

def collectAll (f : ParseTree S P → Option (List α)) : List (ParseTree S P) → List α
  | [] => []
  | t :: ts => collect f t ++ collectAll f ts

end

theorem collectAll_eq_flatMap (f : ParseTree S P → Option (List α)) (ts : List (ParseTree S P)) :
    collectAll f ts = ts.flatMap (collect f) := by
  induction ts with
  | nil => rfl
  | cons t ts ih => rw [collectAll, ih, List.flatMap_cons]

theorem collect_of_eq_some {f : ParseTree S P → Option (List α)} {t : ParseTree S P}
    {l : List α}
    (h : f t = some l) : t.collect f = l := by
  cases t <;> rw [collect, h, Option.getD_some]

theorem collect_node {f : ParseTree S P → Option (List α)} {p : P} {text : String}
    {ts : List (ParseTree S P)} (h : f (node p text ts) = none) :
    (node p text ts).collect f = ts.flatMap (collect f) := by
  rw [collect, h, Option.getD_none, collectAll_eq_flatMap]

end ParseTree

/-- Symbols and productions, and the actions: what the node of a token is, and what
the action of a production makes of the nodes of its children. -/
structure Grammar (S : Type u) (P : Type v) (N : Type w) (O : Type x) (ε : Type y) where
  isToken : S → Bool
  lhs : P → S
  rhs : P → List S
  token : String → N
  action : P → String → List N → Memory O → Except ε (N × Memory O)

namespace Grammar

variable {S : Type u} {P : Type v} {N : Type w} {O : Type x} {ε : Type y}

/-- The symbol a tree is derived from. -/
def symbol (G : Grammar S P N O ε) : ParseTree S P → S
  | .token s _ => s
  | .node p _ _ => G.lhs p

mutual

/-- Whether a tree is a parse tree of the grammar with the productions in `allowed`
only. -/
def derives [DecidableEq S] (G : Grammar S P N O ε) (allowed : P → Bool) : ParseTree S P → Bool
  | .token s _ => G.isToken s
  | .node p _ ts =>
      allowed p && decide (ts.map G.symbol = G.rhs p) && derivesAll G allowed ts

def derivesAll [DecidableEq S] (G : Grammar S P N O ε) (allowed : P → Bool) :
    List (ParseTree S P) → Bool
  | [] => true
  | t :: ts => derives G allowed t && derivesAll G allowed ts

end

mutual

/-- Runs the actions of a tree. -/
def run (G : Grammar S P N O ε) : ParseTree S P → Memory O → Except ε (N × Memory O)
  | .token _ text, m => .ok (G.token text, m)
  | .node p text ts, m =>
      match runAll G ts m with
      | .error e => .error e
      | .ok (ns, m) => G.action p text ns m

/-- Runs the actions of the children, from the first to the last. -/
def runAll (G : Grammar S P N O ε) :
    List (ParseTree S P) → Memory O → Except ε (List N × Memory O)
  | [], m => .ok ([], m)
  | t :: ts, m =>
      match run G t m with
      | .error e => .error e
      | .ok (n, m) =>
          match runAll G ts m with
          | .error e => .error e
          | .ok (ns, m) => .ok (n :: ns, m)

end

/-! ## Sound actions -/

/-- What a tree delivers: with the objects made after the first `lo` and among the
first `hi`, through the node `n`. -/
abbrev Delivery (S : Type u) (P : Type v) (N : Type w) (O : Type x) :=
  ParseTree S P → Nat → Nat → N → Memory O → Prop

/-- The children deliver one after the other. -/
inductive AllDeliver (D : Delivery S P N O) (m : Memory O) :
    Nat → List (ParseTree S P) → List N → Nat → Prop
  | nil (lo : Nat) : AllDeliver D m lo [] [] lo
  | cons {lo mid hi : Nat} {t : ParseTree S P} {ts : List (ParseTree S P)} {n : N} {ns : List N}
      (hle : lo ≤ mid) (hhead : D t lo mid n m) (htail : AllDeliver D m mid ts ns hi) :
      AllDeliver D m lo (t :: ts) (n :: ns) hi

/-- Every action delivers for its production, if the children did. -/
structure Sound [DecidableEq S] (G : Grammar S P N O ε) (allowed : P → Bool)
    (D : Delivery S P N O) : Prop where
  frame : ∀ t lo hi n m m', D t lo hi n m → Memory.Frame hi m m' → D t lo hi n m'
  token : ∀ s text m, G.isToken s = true →
    D (.token s text) m.allocated m.allocated (G.token text) m
  node : ∀ p text ts ns lo m, allowed p = true → ts.map G.symbol = G.rhs p →
    (∀ t ∈ ts, G.derives allowed t = true) → lo ≤ m.allocated →
    AllDeliver D m lo ts ns m.allocated →
    ∃ n m', G.action p text ns m = .ok (n, m') ∧ Memory.Frame lo m m' ∧
      D (.node p text ts) lo m'.allocated n m'

section sound

variable [DecidableEq S] {G : Grammar S P N O ε} {allowed : P → Bool}
  {D : Delivery S P N O}

theorem derives_node {p : P} {text : String} {ts : List (ParseTree S P)}
    (h : G.derives allowed (.node p text ts) = true) :
    allowed p = true ∧ ts.map G.symbol = G.rhs p ∧ G.derivesAll allowed ts = true := by
  rw [derives, Bool.and_eq_true, Bool.and_eq_true, decide_eq_true_eq] at h
  exact ⟨h.1.1, h.1.2, h.2⟩

theorem derivesAll_cons {t : ParseTree S P} {ts : List (ParseTree S P)}
    (h : G.derivesAll allowed (t :: ts) = true) :
    G.derives allowed t = true ∧ G.derivesAll allowed ts = true := by
  rwa [derivesAll, Bool.and_eq_true] at h

theorem derives_of_mem {ts : List (ParseTree S P)} (h : G.derivesAll allowed ts = true) :
    ∀ t ∈ ts, G.derives allowed t = true := by
  induction ts with
  | nil => exact fun t ht => absurd ht List.not_mem_nil
  | cons t ts ih =>
      obtain ⟨hhead, htail⟩ := derivesAll_cons h
      intro t' ht'
      rcases List.mem_cons.mp ht' with rfl | ht'
      · exact hhead
      · exact ih htail t' ht'

mutual

/-- The actions of a parse tree run through, leave the older objects as they are, and
deliver. -/
theorem Sound.run_eq_ok (hG : Sound G allowed D) :
    ∀ (t : ParseTree S P) (m : Memory O), G.derives allowed t = true →
      ∃ n m', G.run t m = .ok (n, m') ∧ Memory.Frame m.allocated m m' ∧
        D t m.allocated m'.allocated n m'
  | .token s text, m, ht => by
      rw [derives] at ht
      exact ⟨_, m, by rw [run], .refl _ m, hG.token s text m ht⟩
  | .node p text ts, m, ht => by
      obtain ⟨hp, hsymbols, hts⟩ := derives_node ht
      obtain ⟨ns, m₁, hrun, hframe, hall⟩ := hG.runAll_eq_ok ts m hts
      obtain ⟨n, m₂, haction, hframe', hdeliver⟩ := hG.node p text ts ns m.allocated m₁
        hp hsymbols (derives_of_mem hts) hframe.allocated_le hall
      refine ⟨n, m₂, ?_, hframe.trans hframe', hdeliver⟩
      rw [run, hrun]
      exact haction

theorem Sound.runAll_eq_ok (hG : Sound G allowed D) :
    ∀ (ts : List (ParseTree S P)) (m : Memory O), G.derivesAll allowed ts = true →
      ∃ ns m', G.runAll ts m = .ok (ns, m') ∧ Memory.Frame m.allocated m m' ∧
        AllDeliver D m' m.allocated ts ns m'.allocated
  | [], m, _ => ⟨[], m, by rw [runAll], .refl _ m, .nil _⟩
  | t :: ts, m, h => by
      obtain ⟨ht, hts⟩ := derivesAll_cons h
      obtain ⟨n, m₁, hrun, hframe, hdeliver⟩ := hG.run_eq_ok t m ht
      obtain ⟨ns, m₂, hrunAll, hframe', hall⟩ := hG.runAll_eq_ok ts m₁ hts
      refine ⟨n :: ns, m₂, ?_, hframe.trans (hframe'.mono hframe.allocated_le), ?_⟩
      · rw [runAll, hrun]
        dsimp only
        rw [hrunAll]
      · exact .cons hframe.allocated_le (hG.frame _ _ _ _ _ _ hdeliver hframe') hall

end

end sound

/-! ## The children of a node -/

section children

variable {G : Grammar S P N O ε} {D : Delivery S P N O} {m : Memory O}

theorem AllDeliver.le {lo hi : Nat} {ts : List (ParseTree S P)} {ns : List N}
    (h : AllDeliver D m lo ts ns hi) : lo ≤ hi := by
  induction h with
  | nil => exact Nat.le_refl _
  | cons hle _ _ ih => exact Nat.le_trans hle ih

/-- The child at a position, and those behind it. -/
theorem AllDeliver.get {lo hi : Nat} {ts : List (ParseTree S P)} {ns : List N}
    (h : AllDeliver D m lo ts ns hi) {k : Nat} {t : ParseTree S P} (ht : ts[k]? = some t) :
    ∃ n mid mid', ns[k]? = some n ∧ lo ≤ mid ∧ mid ≤ mid' ∧ D t mid mid' n m ∧
      AllDeliver D m mid' (ts.drop (k + 1)) (ns.drop (k + 1)) hi := by
  induction h generalizing k with
  | nil => exact absurd ht (by simp)
  | @cons lo mid hi u ts n ns hle hhead htail ih =>
      cases k with
      | zero =>
          obtain rfl : u = t := by simpa using ht
          exact ⟨n, lo, mid, rfl, Nat.le_refl _, hle, hhead, htail⟩
      | succ k =>
          obtain ⟨n', a, b, hn', ha, hab, hD, hrest⟩ := ih (by simpa using ht)
          exact ⟨n', a, b, by simpa using hn', Nat.le_trans hle ha, hab, hD,
            by simpa using hrest⟩

theorem exists_child {p : P} {ts : List (ParseTree S P)} (hsymbols : ts.map G.symbol = G.rhs p)
    {k : Nat} {s : S} (hs : (G.rhs p)[k]? = some s) :
    ∃ t, ts[k]? = some t ∧ G.symbol t = s := by
  rw [← hsymbols, List.getElem?_map] at hs
  exact Option.map_eq_some_iff.mp hs

/-- Where only one child has a symbol that is looked for. -/
theorem filter_symbol_child {p : P} {ts : List (ParseTree S P)}
    (hsymbols : ts.map G.symbol = G.rhs p) {k : Nat} {t : ParseTree S P} (ht : ts[k]? = some t)
    {q : S → Bool} (hq : q (G.symbol t) = true)
    (hbefore : ((G.rhs p).take k).all (!q ·) = true)
    (hafter : ((G.rhs p).drop (k + 1)).all (!q ·) = true) :
    ts.filter (fun t => q (G.symbol t)) = [t] := by
  obtain ⟨hk, rfl⟩ := List.getElem?_eq_some_iff.mp ht
  have hsplit : ts = ts.take k ++ ts[k] :: ts.drop (k + 1) := by simp
  have hnil : ∀ us : List (ParseTree S P), (us.map G.symbol).all (!q ·) = true →
      us.filter (fun t => q (G.symbol t)) = [] := by
    intro us hus
    rw [List.filter_eq_nil_iff]
    intro u hu
    rw [List.all_map, List.all_eq_true] at hus
    simpa using hus u hu
  rw [← hsymbols, ← List.map_take] at hbefore
  rw [← hsymbols, ← List.map_drop] at hafter
  calc ts.filter (fun t => q (G.symbol t))
      = (ts.take k).filter (fun t => q (G.symbol t)) ++
          (ts[k] :: ts.drop (k + 1)).filter (fun t => q (G.symbol t)) := by
        rw [← List.filter_append, ← hsplit]
    _ = [ts[k]] := by
        rw [List.filter_cons_of_pos (p := fun t => q (G.symbol t)) hq, hnil _ hbefore,
          hnil _ hafter, List.nil_append]

end children

/-! ## What is found in the children -/

section quiet

variable {α : Type*} [DecidableEq S] {G : Grammar S P N O ε} {allowed : P → Bool}
  {quiet : S → Bool} {f : ParseTree S P → Option (List α)}

/-- Nothing is found below the symbols in `quiet`. -/
structure Quiet (G : Grammar S P N O ε) (quiet : S → Bool)
    (f : ParseTree S P → Option (List α)) : Prop where
  eq_none : ∀ t, quiet (G.symbol t) = true → f t = none
  rhs : ∀ p, quiet (G.lhs p) = true → ∀ s ∈ G.rhs p, quiet s = true

mutual

theorem Quiet.collect_eq_nil (h : Quiet G quiet f) :
    ∀ t : ParseTree S P, G.derives allowed t = true → quiet (G.symbol t) = true →
      t.collect f = []
  | .token s text, _, hquiet => by
      rw [ParseTree.collect, h.eq_none _ hquiet]
      rfl
  | .node p text ts, ht, hquiet => by
      obtain ⟨-, hsymbols, hts⟩ := derives_node ht
      rw [ParseTree.collect, h.eq_none _ hquiet, Option.getD_none]
      apply h.collectAll_eq_nil ts hts
      rw [hsymbols]
      exact h.rhs p hquiet

theorem Quiet.collectAll_eq_nil (h : Quiet G quiet f) :
    ∀ ts : List (ParseTree S P), G.derivesAll allowed ts = true →
      (∀ s ∈ ts.map G.symbol, quiet s = true) → ParseTree.collectAll f ts = []
  | [], _, _ => by rw [ParseTree.collectAll]
  | t :: ts, hts, hquiet => by
      obtain ⟨ht, hts⟩ := derivesAll_cons hts
      rw [ParseTree.collectAll, h.collect_eq_nil t ht (hquiet _ List.mem_cons_self),
        h.collectAll_eq_nil ts hts fun s hs => hquiet s (List.mem_cons_of_mem _ hs),
        List.nil_append]

end

variable {p : P} {text : String} {ts : List (ParseTree S P)}

theorem Quiet.flatMap_collect_eq_nil (h : Quiet G quiet f)
    (hts : ∀ t ∈ ts, G.derives allowed t = true)
    (hquiet : (ts.map G.symbol).all quiet = true) : ts.flatMap (ParseTree.collect f) = [] := by
  rw [List.flatMap_eq_nil_iff]
  intro t ht
  rw [List.all_map, List.all_eq_true] at hquiet
  exact h.collect_eq_nil t (hts t ht) (hquiet t ht)

/-- The children that count are this one and some behind it. -/
theorem Quiet.flatMap_collect_append (h : Quiet G quiet f)
    (hts : ∀ t ∈ ts, G.derives allowed t = true) {k : Nat} {t : ParseTree S P}
    (ht : ts[k]? = some t)
    (hbefore : ((ts.map G.symbol).take k).all quiet = true) :
    ts.flatMap (ParseTree.collect f) =
      t.collect f ++ (ts.drop (k + 1)).flatMap (ParseTree.collect f) := by
  obtain ⟨hk, rfl⟩ := List.getElem?_eq_some_iff.mp ht
  have hsplit : ts = ts.take k ++ ts[k] :: ts.drop (k + 1) := by simp
  rw [← List.map_take] at hbefore
  calc ts.flatMap (ParseTree.collect f)
      = (ts.take k).flatMap (ParseTree.collect f) ++
          (ts[k].collect f ++ (ts.drop (k + 1)).flatMap (ParseTree.collect f)) := by
        rw [← List.flatMap_cons, ← List.flatMap_append, ← hsplit]
    _ = ts[k].collect f ++ (ts.drop (k + 1)).flatMap (ParseTree.collect f) := by
        rw [h.flatMap_collect_eq_nil (fun t ht => hts t (List.mem_of_mem_take ht)) hbefore,
          List.nil_append]

/-- Where only one child counts. -/
theorem Quiet.flatMap_collect_child (h : Quiet G quiet f)
    (hts : ∀ t ∈ ts, G.derives allowed t = true) {k : Nat} {t : ParseTree S P}
    (ht : ts[k]? = some t)
    (hbefore : ((ts.map G.symbol).take k).all quiet = true)
    (hafter : ((ts.map G.symbol).drop (k + 1)).all quiet = true) :
    ts.flatMap (ParseTree.collect f) = t.collect f := by
  rw [← List.map_drop] at hafter
  rw [h.flatMap_collect_append hts ht hbefore,
    h.flatMap_collect_eq_nil (fun t ht => hts t (List.mem_of_mem_drop ht)) hafter,
    List.append_nil]

end quiet

end Grammar

end CoFlo.Verified.SyntaxActions
