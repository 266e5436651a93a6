import CoFlo.Verified.DepthFirstSearch
import Mathlib.Data.List.Infix
import Mathlib.Data.Set.Insert

/-!
# Depth-first search with a call stack

The search goes through the graphs of several procedures.  Some edges open a
call and some return from one; the others stay in their procedure or are
closed to the search.  A stack of frames, each the call that pushed it and a
colour map, is kept beside the stack of the search: an edge that opens a call
pushes a frame with an empty map, and an edge that returns from the call on
top pops it.  Going back does not bring a frame back, so the two stacks can
come apart.

Two facts hold in spite of that.  The vertices on the stack are joined by the
edges of the path (`Threaded`), and a search that has ended has discovered the
end of every edge that leaves a discovered vertex without returning from a
call (`Closed`): a frame left behind may claim that a vertex has been
discovered only when it has been, in whatever context.
-/

namespace CoFlo.Verified.ContextSearch

open CoFlo.Verified.StepMachine
open CoFlo.Verified.DepthFirstSearch (Color)

/-- What an edge is to the search. -/
inductive Kind (V : Type*) where
  | closed
  | plain
  | call (c : V)
  | ret (c : V)
  deriving DecidableEq

/-- A directed graph with ordered out-edges of several kinds. -/
structure Incidence (V E : Type*) extends DepthFirstSearch.Incidence V E where
  kind : E → Kind V

/-- A frame of the call stack; the frame at the bottom has no call. -/
structure Frame (V : Type*) where
  call : Option V
  color : V → Color

/-- The top of a stack and the last edge of the path are heads of lists. -/
structure State (V E : Type*) where
  frames : List (Frame V)
  stack : List (V × List E)
  path : List E

variable {V E : Type*} [DecidableEq V] (G : Incidence V E)

/-- The call stack on which the end of an edge is looked up, when the edge is
let through. -/
def framesFor (frames : List (Frame V)) : Kind V → Option (List (Frame V))
  | .closed => none
  | .plain => some frames
  | .call c => some (⟨some c, fun _ => .white⟩ :: frames)
  | .ret c =>
      match frames with
      | [] => none
      | f :: frames => if f.call = some c then some frames else none

/-- Colours a vertex in the top frame. -/
def paint (v : V) (c : Color) : List (Frame V) → List (Frame V)
  | [] => []
  | f :: frames => ⟨f.call, Function.update f.color v c⟩ :: frames

/-- Whether the top frame knows nothing of a vertex. -/
def isWhite (v : V) : List (Frame V) → Bool
  | [] => false
  | f :: _ => f.color v = .white

/-- One step: examine the next out-edge of the top vertex, or finish it. -/
def step (s : State V E) : Option (State V E) :=
  match s.stack with
  | [] => none
  | (u, []) :: rest => some ⟨paint u .black s.frames, rest, s.path.tail⟩
  | (u, e :: rem) :: rest =>
      match framesFor s.frames (G.kind e) with
      | none => some { s with stack := (u, rem) :: rest }
      | some frames =>
          if isWhite (G.target e) frames then
            some ⟨paint (G.target e) .gray frames,
              (G.target e, G.out (G.target e)) :: (u, rem) :: rest, e :: s.path⟩
          else some ⟨frames, (u, rem) :: rest, s.path⟩

/-- A search that starts in the frame at the bottom. -/
def init (r : V) : State V E :=
  ⟨[⟨none, Function.update (fun _ => .white) r .gray⟩], [(r, G.out r)], []⟩

/-- What a step can do. -/
inductive Step (s : State V E) : State V E → Prop where
  | finish {u rest} (hstack : s.stack = (u, []) :: rest) :
      Step s ⟨paint u .black s.frames, rest, s.path.tail⟩
  | skip {u e rem rest} (hstack : s.stack = (u, e :: rem) :: rest)
      (hpass : framesFor s.frames (G.kind e) = none) :
      Step s ⟨s.frames, (u, rem) :: rest, s.path⟩
  | tree {u e rem rest frames} (hstack : s.stack = (u, e :: rem) :: rest)
      (hpass : framesFor s.frames (G.kind e) = some frames)
      (hwhite : isWhite (G.target e) frames = true) :
      Step s ⟨paint (G.target e) .gray frames,
        (G.target e, G.out (G.target e)) :: (u, rem) :: rest, e :: s.path⟩
  | cross {u e rem rest frames} (hstack : s.stack = (u, e :: rem) :: rest)
      (hpass : framesFor s.frames (G.kind e) = some frames)
      (hwhite : isWhite (G.target e) frames = false) :
      Step s ⟨frames, (u, rem) :: rest, s.path⟩

variable {G}

theorem Step.of_step {s t : State V E} (h : step G s = some t) : Step G s t := by
  unfold step at h
  split at h
  · exact absurd h (by simp)
  · rename_i u rest hstack
    rw [← Option.some.inj h]
    exact .finish hstack
  · rename_i u e rem rest hstack
    split at h
    · rename_i hpass
      rw [← Option.some.inj h]
      exact .skip hstack hpass
    · rename_i frames hpass
      split_ifs at h with hwhite
      · rw [← Option.some.inj h]
        exact .tree hstack hpass hwhite
      · rw [← Option.some.inj h]
        exact .cross hstack hpass (by simpa using hwhite)

theorem Step.step_eq {s t : State V E} (h : Step G s t) : step G s = some t := by
  unfold step
  cases h with
  | finish hstack => simp only [hstack]
  | skip hstack hpass => simp only [hstack, hpass]
  | tree hstack hpass hwhite => simp only [hstack, hpass, hwhite, if_true]
  | cross hstack hpass hwhite =>
      simp only [hstack, hpass, hwhite, Bool.false_eq_true, if_false]

/-- The search ends when its stack is empty. -/
theorem step_eq_none {s : State V E} : step G s = none ↔ s.stack = [] := by
  constructor
  · intro h
    unfold step at h
    split at h
    · assumption
    · exact absurd h (by simp)
    · split at h
      · exact absurd h (by simp)
      · split_ifs at h
  · intro h
    unfold step
    rw [h]

/-! ## The path -/

/-- The vertex a path from `r` has come to. -/
def tip (G : Incidence V E) (r : V) : List E → V
  | [] => r
  | e :: _ => G.target e

/-- The edges of the path lead from each vertex of the stack to the next, and
none of them is closed. -/
inductive Threaded (G : Incidence V E) (r : V) :
    List (V × List E) → List E → Prop where
  | root {rem : List E} (hrem : rem <:+ G.out r) : Threaded G r [(r, rem)] []
  | edge {u : V} {rem rem' : List E} {rest : List (V × List E)} {e : E}
      {path : List E} (h : Threaded G r ((u, rem) :: rest) path)
      (hout : e ∈ G.out u) (hkind : G.kind e ≠ .closed)
      (hrem' : rem' <:+ G.out (G.target e)) :
      Threaded G r ((G.target e, rem') :: (u, rem) :: rest) (e :: path)

/-- What is on the stack while the search goes on. -/
def Aligned (G : Incidence V E) (r : V) (s : State V E) : Prop :=
  s.stack = [] ∧ s.path = [] ∨ Threaded G r s.stack s.path

namespace Threaded

variable {r u : V} {rem rem' : List E} {rest : List (V × List E)}
  {path : List E}

omit [DecidableEq V]

theorem top (h : Threaded G r ((u, rem) :: rest) path) :
    u = tip G r path ∧ rem <:+ G.out u := by
  cases h with
  | root hrem => exact ⟨rfl, hrem⟩
  | edge _ _ _ hrem' => exact ⟨rfl, hrem'⟩

/-- The edges left of the top vertex get fewer. -/
theorem advance (h : Threaded G r ((u, rem) :: rest) path)
    (hrem : rem' <:+ rem) : Threaded G r ((u, rem') :: rest) path := by
  cases h with
  | root hout => exact .root (hrem.trans hout)
  | edge h hout hkind hsuffix => exact .edge h hout hkind (hrem.trans hsuffix)

/-- Finishing the top vertex. -/
theorem pop (h : Threaded G r ((u, rem) :: rest) path) :
    rest = [] ∧ path = [] ∨ Threaded G r rest path.tail := by
  cases h with
  | root _ => exact .inl ⟨rfl, rfl⟩
  | edge h _ _ _ => exact .inr h

theorem length_eq {stack : List (V × List E)} (h : Threaded G r stack path) :
    stack.length = path.length + 1 := by
  induction h with
  | root _ => rfl
  | edge _ _ _ _ ih => rw [List.length_cons, ih, List.length_cons]

end Threaded

theorem aligned_init (r : V) : Aligned G r (init G r) :=
  .inr (.root List.suffix_rfl)

theorem not_closed_of_framesFor {frames frames' : List (Frame V)} {k : Kind V}
    (h : framesFor frames k = some frames') : k ≠ .closed := by
  rintro rfl
  exact absurd h (by simp [framesFor])

theorem Aligned.preserved {r : V} {s t : State V E} (hs : Aligned G r s)
    (h : Step G s t) : Aligned G r t := by
  have hthread : ∀ {u rem rest}, s.stack = (u, rem) :: rest →
      Threaded G r ((u, rem) :: rest) s.path := by
    intro u rem rest hstack
    rcases hs with ⟨hnil, _⟩ | hs
    · rw [hstack] at hnil
      exact absurd hnil (by simp)
    · rw [← hstack]
      exact hs
  cases h with
  | @finish u rest hstack =>
      rcases (hthread hstack).pop with ⟨hrest, hpath⟩ | hpop
      · exact .inl ⟨hrest, by simp [hpath]⟩
      · exact .inr hpop
  | @skip u e rem rest hstack hpass =>
      exact .inr ((hthread hstack).advance (List.suffix_cons e rem))
  | @tree u e rem rest frames hstack hpass hwhite =>
      have hmem : e ∈ G.out u :=
        (hthread hstack).top.2.subset List.mem_cons_self
      exact .inr (.edge ((hthread hstack).advance (List.suffix_cons e rem)) hmem
        (not_closed_of_framesFor hpass) List.suffix_rfl)
  | @cross u e rem rest frames hstack hpass hwhite =>
      exact .inr ((hthread hstack).advance (List.suffix_cons e rem))

/-! ## The frame at the bottom -/

/-- There are frames, and the one at the bottom has no call. -/
def Grounded (frames : List (Frame V)) : Prop :=
  frames.getLast?.map Frame.call = some none

theorem grounded_paint {v : V} {c : Color} {frames : List (Frame V)}
    (h : Grounded frames) : Grounded (paint v c frames) := by
  cases frames with
  | nil => exact h
  | cons f frames =>
      cases frames with
      | nil => exact h
      | cons g frames => simpa [Grounded, paint] using h

/-- Only a frame with a call is popped. -/
theorem grounded_framesFor {k : Kind V} {frames frames' : List (Frame V)}
    (h : Grounded frames) (hpass : framesFor frames k = some frames') :
    Grounded frames' := by
  cases frames with
  | nil => exact absurd h (by simp [Grounded])
  | cons f frames =>
      cases k with
      | closed => exact absurd hpass (by simp [framesFor])
      | plain =>
          rw [← Option.some.inj hpass]
          exact h
      | call c =>
          rw [← Option.some.inj hpass]
          exact h
      | ret c =>
          simp only [framesFor, Option.ite_none_right_eq_some,
            Option.some.injEq] at hpass
          obtain ⟨hcall, rfl⟩ := hpass
          cases frames with
          | nil =>
              have hnone : f.call = none := by simpa [Grounded] using h
              rw [hnone] at hcall
              exact absurd hcall (by simp)
          | cons g frames => simpa [Grounded] using h

theorem grounded_preserved {s t : State V E} (hs : Grounded s.frames)
    (h : Step G s t) : Grounded t.frames := by
  cases h with
  | finish _ => exact grounded_paint hs
  | skip _ _ => exact hs
  | tree _ hpass _ => exact grounded_paint (grounded_framesFor hs hpass)
  | cross _ hpass _ => exact grounded_framesFor hs hpass

/-! ## The discovered vertices -/

/-- An edge on which no return depends. -/
def Opens (G : Incidence V E) (e : E) : Prop :=
  G.kind e = .plain ∨ ∃ c, G.kind e = .call c

/-- `D` are the vertices discovered so far, in whatever frame: they hold what
is coloured and what is on the stack, and each of their edges leads back to
`D` or is still to be examined. -/
structure Discovered (G : Incidence V E) (D : Set V) (s : State V E) : Prop where
  color : ∀ f ∈ s.frames, ∀ v, f.color v ≠ .white → v ∈ D
  stack : ∀ item ∈ s.stack, item.1 ∈ D
  target : ∀ v ∈ D, ∀ e ∈ G.out v, Opens G e →
    G.target e ∈ D ∨ ∃ item ∈ s.stack, item.1 = v ∧ e ∈ item.2

theorem discovered_init (r : V) : Discovered G {r} (init G r) where
  color f hf v hv := by
    rw [List.mem_singleton.mp hf] at hv
    rw [Set.mem_singleton_iff]
    by_contra hne
    refine hv ?_
    show Function.update (fun _ => Color.white) r .gray v = .white
    exact Function.update_of_ne hne _ _
  stack item hitem := by rw [List.mem_singleton.mp hitem]; rfl
  target v hv e he _ := by
    refine .inr ⟨(r, G.out r), List.mem_cons_self, hv.symm, ?_⟩
    rw [← Set.mem_singleton_iff.mp hv]
    exact he

/-- Painting colours no vertex but one. -/
theorem mem_of_paint {D : Set V} {v : V} {c : Color} {frames : List (Frame V)}
    (hD : ∀ f ∈ frames, ∀ w, f.color w ≠ .white → w ∈ D) (hv : v ∈ D) :
    ∀ f ∈ paint v c frames, ∀ w, f.color w ≠ .white → w ∈ D := by
  cases frames with
  | nil => exact hD
  | cons g frames =>
      intro f hf w hw
      rcases List.mem_cons.mp hf with rfl | hf
      · by_cases hwv : w = v
        · exact hwv ▸ hv
        · refine hD g List.mem_cons_self w ?_
          simpa [hwv] using hw
      · exact hD f (List.mem_cons_of_mem _ hf) w hw

/-- A frame that is let through to knows only what was known before. -/
theorem mem_of_framesFor {D : Set V} {k : Kind V} {frames frames' : List (Frame V)}
    (hD : ∀ f ∈ frames, ∀ w, f.color w ≠ .white → w ∈ D)
    (hpass : framesFor frames k = some frames') :
    ∀ f ∈ frames', ∀ w, f.color w ≠ .white → w ∈ D := by
  cases k with
  | closed => exact absurd hpass (by simp [framesFor])
  | plain =>
      rw [← Option.some.inj hpass]
      exact hD
  | call c =>
      rw [← Option.some.inj hpass]
      intro f hf w hw
      rcases List.mem_cons.mp hf with rfl | hf
      · exact absurd rfl hw
      · exact hD f hf w hw
  | ret c =>
      cases frames with
      | nil => exact absurd hpass (by simp [framesFor])
      | cons g frames =>
          simp only [framesFor, Option.ite_none_right_eq_some,
            Option.some.injEq] at hpass
          rw [← hpass.2]
          exact fun f hf => hD f (List.mem_cons_of_mem _ hf)

namespace Discovered

variable {D : Set V} {s : State V E}

omit [DecidableEq V] in
/-- The next edge of the top vertex has been examined; it leads to `D` or
returns from a call. -/
theorem advance (hs : Discovered G D s) {u : V} {e : E} {rem : List E}
    {rest : List (V × List E)} (hstack : s.stack = (u, e :: rem) :: rest)
    {frames : List (Frame V)}
    (hcolor : ∀ f ∈ frames, ∀ w, f.color w ≠ .white → w ∈ D) (path : List E)
    (hopens : Opens G e → G.target e ∈ D) :
    Discovered G D ⟨frames, (u, rem) :: rest, path⟩ where
  color := hcolor
  stack item hitem := by
    rcases List.mem_cons.mp hitem with rfl | hitem
    · exact hs.stack (u, e :: rem) (by simp [hstack])
    · exact hs.stack item (by simp [hstack, hitem])
  target v hv d hd hd' := by
    rcases hs.target v hv d hd hd' with hmem | ⟨item, hitem, hitemv, hrem⟩
    · exact .inl hmem
    · rw [hstack] at hitem
      rcases List.mem_cons.mp hitem with rfl | hitem
      · rcases List.mem_cons.mp hrem with rfl | hrem
        · exact .inl (hopens hd')
        · exact .inr ⟨(u, rem), List.mem_cons_self, hitemv, hrem⟩
      · exact .inr ⟨item, List.mem_cons_of_mem _ hitem, hitemv, hrem⟩

/-- A step discovers the vertex it puts on top of the stack. -/
theorem preserved (hs : Discovered G D s) {t : State V E} (h : Step G s t)
    (hgrounded : Grounded s.frames) :
    Discovered G {v | v ∈ D ∨ t.stack.head?.map Prod.fst = some v} t := by
  have hold : ∀ {u rem rest}, t.stack = (u, rem) :: rest → u ∈ D →
      {v | v ∈ D ∨ t.stack.head?.map Prod.fst = some v} = D := by
    intro u rem rest hstack hu
    ext v
    show v ∈ D ∨ t.stack.head?.map Prod.fst = some v ↔ v ∈ D
    rw [hstack]
    refine or_iff_left_of_imp fun hv => ?_
    rw [← Option.some.inj hv]
    exact hu
  cases h with
  | @finish u rest hstack =>
      have hu : u ∈ D := hs.stack (u, []) (by simp [hstack])
      have hrest : ∀ item ∈ rest, item.1 ∈ D := fun item hitem =>
        hs.stack item (by simp [hstack, hitem])
      have hD : {v | v ∈ D ∨ rest.head?.map Prod.fst = some v} = D := by
        ext v
        refine or_iff_left_of_imp fun hv => ?_
        cases rest with
        | nil => exact absurd hv (by simp)
        | cons item rest =>
            rw [← Option.some.inj hv]
            exact hrest item List.mem_cons_self
      rw [hD]
      exact
        { color := mem_of_paint hs.color hu
          stack := hrest
          target := fun v hv d hd hd' => by
            rcases hs.target v hv d hd hd' with hmem | ⟨item, hitem, hv', hrem⟩
            · exact .inl hmem
            · rw [hstack] at hitem
              rcases List.mem_cons.mp hitem with rfl | hitem
              · exact absurd hrem List.not_mem_nil
              · exact .inr ⟨item, hitem, hv', hrem⟩ }
  | @skip u e rem rest hstack hpass =>
      rw [hold rfl (hs.stack (u, e :: rem) (by simp [hstack]))]
      refine hs.advance hstack hs.color s.path fun hopens => ?_
      rcases hopens with hplain | ⟨c, hcall⟩
      · rw [hplain] at hpass
        exact absurd hpass (by simp [framesFor])
      · rw [hcall] at hpass
        exact absurd hpass (by simp [framesFor])
  | @tree u e rem rest frames hstack hpass hwhite =>
      have hD : {v | v ∈ D ∨ ((G.target e, G.out (G.target e)) :: (u, rem) ::
          rest).head?.map Prod.fst = some v} = insert (G.target e) D := by
        ext v
        simp [or_comm, eq_comm]
      rw [hD]
      have hinsert : ∀ f ∈ frames, ∀ w, f.color w ≠ .white →
          w ∈ insert (G.target e) D := fun f hf w hw =>
        Set.mem_insert_of_mem _ (mem_of_framesFor hs.color hpass f hf w hw)
      refine ⟨mem_of_paint hinsert (Set.mem_insert _ _), ?_, ?_⟩
      · intro item hitem
        rcases List.mem_cons.mp hitem with rfl | hitem
        · exact Set.mem_insert _ _
        · refine Set.mem_insert_of_mem _ ?_
          rcases List.mem_cons.mp hitem with rfl | hitem
          · exact hs.stack (u, e :: rem) (by simp [hstack])
          · exact hs.stack item (by simp [hstack, hitem])
      · intro v hv d hd hd'
        rcases Set.mem_insert_iff.mp hv with rfl | hv
        · exact .inr ⟨_, List.mem_cons_self, rfl, hd⟩
        · rcases hs.target v hv d hd hd' with hmem | ⟨item, hitem, hv', hrem⟩
          · exact .inl (Set.mem_insert_of_mem _ hmem)
          · rw [hstack] at hitem
            rcases List.mem_cons.mp hitem with rfl | hitem
            · rcases List.mem_cons.mp hrem with rfl | hrem
              · exact .inl (Set.mem_insert _ _)
              · exact .inr ⟨(u, rem), by simp, hv', hrem⟩
            · exact .inr ⟨item, by simp [hitem], hv', hrem⟩
  | @cross u e rem rest frames hstack hpass hwhite =>
      rw [hold rfl (hs.stack (u, e :: rem) (by simp [hstack]))]
      refine hs.advance hstack (mem_of_framesFor hs.color hpass) s.path fun _ => ?_
      -- The frame that is looked into has the vertex, or there is none.
      have hground := grounded_framesFor hgrounded hpass
      cases frames with
      | nil => exact absurd hground (by simp [Grounded])
      | cons f frames =>
          refine mem_of_framesFor hs.color hpass f List.mem_cons_self _ ?_
          simpa [isWhite] using hwhite

omit [DecidableEq V] in
/-- When the stack is empty, the discovered vertices are closed. -/
theorem closed (hs : Discovered G D s) (hstack : s.stack = []) {v : V}
    (hv : v ∈ D) {e : E} (he : e ∈ G.out v) (hopens : Opens G e) :
    G.target e ∈ D := by
  rcases hs.target v hv e he hopens with hmem | ⟨item, hitem, _⟩
  · exact hmem
  · rw [hstack] at hitem
    exact absurd hitem List.not_mem_nil

end Discovered

end CoFlo.Verified.ContextSearch
