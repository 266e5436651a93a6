import CoFlo.Verified.RealizablePath
import CoFlo.Verified.StackHistory

/-!
# Activations

The calls of the frames and the path of a search are both stacks with a
history, though not the same one: a frame may be left on the call stack when
the search goes back, and the edges that opened a call stay on the path when
its frame has been popped.

While the frame of a call is on the call stack and the edge that opened it on
the path, the search does what it would do if it had been started in the
called procedure: it takes the steps of that search on top of what was there
before (`Enters.after_eq`).  The two part only when the frame is popped or the
called procedure is left.
-/

namespace CoFlo.Verified.ContextSearch

open CoFlo.Verified.StepMachine CoFlo.Verified.StackHistory
open CoFlo.Verified.DepthFirstSearch (Color)

variable {V E : Type*} [DecidableEq V] (G : Incidence V E)

/-- The search from `r` after `n` steps. -/
abbrev after (r : V) (n : Nat) : State V E :=
  trajectory (step G) (init G r) n

omit [DecidableEq V] in
/-- The calls of the frames, from the top. -/
abbrev calls (s : State V E) : List (Option V) :=
  s.frames.map Frame.call

variable {G}

theorem calls_paint (v : V) (c : Color) (frames : List (Frame V)) :
    (paint v c frames).map Frame.call = frames.map Frame.call := by
  cases frames <;> rfl

/-- What an edge that is let through does to the calls. -/
def Kind.onCalls : Kind V → List (Option V) → List (Option V)
  | .call c, calls => some c :: calls
  | .ret _, calls => calls.tail
  | _, calls => calls

theorem calls_framesFor {k : Kind V} {frames frames' : List (Frame V)}
    (h : framesFor frames k = some frames') :
    frames'.map Frame.call = k.onCalls (frames.map Frame.call) := by
  cases k with
  | closed => exact absurd h (by simp [framesFor])
  | plain | call c =>
      rw [← Option.some.inj h]
      rfl
  | ret c =>
      cases frames with
      | nil => exact absurd h (by simp [framesFor])
      | cons f frames =>
          simp only [framesFor, Option.ite_none_right_eq_some,
            Option.some.injEq] at h
          rw [← h.2]
          rfl

variable (r : V)

/-- The search goes on, or it has ended. -/
theorem after_succ (n : Nat) :
    Step G (after G r n) (after G r (n + 1)) ∨
      (after G r n).stack = [] ∧ after G r (n + 1) = after G r n := by
  cases hnext : step G (after G r n) with
  | none =>
      exact .inr ⟨step_eq_none.mp hnext,
        trajectory_of_step_eq_none (Nat.le_succ n) hnext⟩
  | some t =>
      refine .inl ?_
      rw [show after G r (n + 1) = t from trajectory_succ hnext]
      exact .of_step hnext

theorem after_succ_of_step {n : Nat} {t : State V E}
    (h : Step G (after G r n) t) : after G r (n + 1) = t :=
  trajectory_succ h.step_eq

theorem aligned_after (n : Nat) : Aligned G r (after G r n) :=
  (reaches_trajectory _ n).invariant
    (fun _ _ hs h => hs.preserved (.of_step h)) (aligned_init r)

theorem grounded_after (n : Nat) : Grounded (after G r n).frames :=
  (reaches_trajectory (init G r) n).invariant (P := fun s => Grounded s.frames)
    (fun _ _ hs h => grounded_preserved hs (.of_step h))
    (show Grounded (init G r).frames from rfl)

theorem threaded_after {n : Nat} (hn : (after G r n).stack ≠ []) :
    Threaded G r (after G r n).stack (after G r n).path :=
  (aligned_after r n).resolve_left fun hnil => hn hnil.1

theorem walk_after (n : Nat) : Walk G r (after G r n).path := by
  rcases aligned_after (G := G) r n with ⟨_, hpath⟩ | hthread
  · rw [hpath]
    trivial
  · exact hthread.walk

/-- A step pushes a call, pops one, or leaves the calls alone. -/
theorem calls_step {s t : State V E} (h : Step G s t) :
    calls t = calls s ∨ calls t = (calls s).tail ∨
      ∃ a, calls t = a :: calls s := by
  have hpassed : ∀ {k : Kind V} {frames : List (Frame V)},
      framesFor s.frames k = some frames →
        frames.map Frame.call = calls s ∨
          frames.map Frame.call = (calls s).tail ∨
            ∃ a, frames.map Frame.call = a :: calls s := by
    intro k frames hpass
    rw [calls_framesFor hpass]
    cases k with
    | closed | plain => exact .inl rfl
    | call c => exact .inr (.inr ⟨_, rfl⟩)
    | ret c => exact .inr (.inl rfl)
  cases h with
  | finish hstack => exact .inl (calls_paint _ _ _)
  | skip hstack hpass => exact .inl rfl
  | tree hstack hpass hwhite =>
      simp only [calls, calls_paint]
      exact hpassed hpass
  | cross hstack hpass hwhite => exact hpassed hpass

theorem path_step {s t : State V E} (h : Step G s t) :
    t.path = s.path ∨ t.path = s.path.tail ∨ ∃ e, t.path = e :: s.path := by
  cases h with
  | finish hstack => exact .inr (.inl rfl)
  | skip hstack hpass => exact .inl rfl
  | tree hstack hpass hwhite => exact .inr (.inr ⟨_, rfl⟩)
  | cross hstack hpass hwhite => exact .inl rfl

/-- The calls of the frames along the search. -/
def callsAfter (G : Incidence V E) (r : V) (n : Nat) : List (Option V) :=
  calls (after G r n)

/-- The path along the search. -/
def pathAfter (G : Incidence V E) (r : V) (n : Nat) : List E :=
  (after G r n).path

theorem isHistory_calls : IsHistory (callsAfter G r) := by
  intro n
  rcases after_succ (G := G) r n with hstep | ⟨_, hsame⟩
  · exact calls_step hstep
  · exact .inl (congrArg calls hsame)

theorem isHistory_path : IsHistory (pathAfter G r) := by
  intro n
  rcases after_succ (G := G) r n with hstep | ⟨_, hsame⟩
  · exact path_step hstep
  · exact .inl (congrArg State.path hsame)

variable {r}

/-! ## Entering a call -/

/-- With step `b` the search takes the edge `e`, which opens the call `c`. -/
structure Enters (G : Incidence V E) (r : V) (b : Nat) (e : E) (c : V) :
    Prop where
  kind : G.kind e = .call c
  frames : (after G r (b + 1)).frames =
    ⟨some c, Function.update (fun _ => .white) (G.target e) .gray⟩ ::
      (after G r b).frames
  stack : (after G r (b + 1)).stack =
    (G.target e, G.out (G.target e)) :: (after G r (b + 1)).stack.tail
  path : (after G r (b + 1)).path = e :: (after G r b).path
  top : ∃ rem rest, (after G r b).stack =
    (tip G r (after G r b).path, e :: rem) :: rest
  mem_out : e ∈ G.out (tip G r (after G r b).path)

/-- An edge that opens a call is always taken. -/
theorem enters_of_call {b : Nat} {u : V} {e : E} {rem : List E}
    {rest : List (V × List E)} {c : V}
    (hstack : (after G r b).stack = (u, e :: rem) :: rest)
    (he : G.kind e = .call c) : Enters G r b e c := by
  have hthread := threaded_after r (n := b) (by rw [hstack]; simp)
  rw [hstack] at hthread
  have hnext : after G r (b + 1) =
      ⟨⟨some c, Function.update (fun _ => .white) (G.target e) .gray⟩ ::
        (after G r b).frames,
        (G.target e, G.out (G.target e)) :: (u, rem) :: rest,
        e :: (after G r b).path⟩ :=
    after_succ_of_step r (.tree hstack
      (show framesFor (after G r b).frames (G.kind e) =
          some (⟨some c, fun _ => .white⟩ :: (after G r b).frames) by
        rw [he]
        rfl) (by simp [isWhite]))
  have htop := hthread.top
  exact
    { kind := he
      frames := by rw [hnext]
      stack := by rw [hnext]; rfl
      path := by rw [hnext]
      top := ⟨rem, rest, by rw [hstack, htop.1]⟩
      mem_out := by
        rw [← htop.1]
        exact htop.2.subset List.mem_cons_self }

theorem Enters.pushes_calls {b : Nat} {e : E} {c : V} (h : Enters G r b e c) :
    Pushes (callsAfter G r) b (some c) (callsAfter G r b) :=
  ⟨rfl, by simp only [callsAfter, calls, h.frames, List.map_cons]⟩

theorem Enters.pushes_path {b : Nat} {e : E} {c : V} (h : Enters G r b e c) :
    Pushes (pathAfter G r) b e (pathAfter G r b) :=
  ⟨rfl, h.path⟩

/-- A frame is pushed by an edge that opens a call. -/
theorem exists_enters_of_pushes_calls {b : Nat} {a : Option V}
    {p : List (Option V)}
    (h : Pushes (callsAfter G r) b a p) :
    ∃ e c, a = some c ∧ Enters G r b e c := by
  have hbefore : calls (after G r b) = p := h.1
  have hafter : calls (after G r (b + 1)) = a :: calls (after G r b) := by
    rw [hbefore]
    exact h.2
  have hlength : ∀ {l : List (Option V)}, calls (after G r (b + 1)) = l →
      l.length ≤ (calls (after G r b)).length → False := by
    intro l hl hle
    rw [← hl, hafter, List.length_cons] at hle
    omega
  have hpassed : ∀ {u : V} {e : E} {rem : List E} {rest : List (V × List E)}
      {frames : List (Frame V)},
      (after G r b).stack = (u, e :: rem) :: rest →
        framesFor (after G r b).frames (G.kind e) = some frames →
          calls (after G r (b + 1)) = frames.map Frame.call →
            ∃ e c, a = some c ∧ Enters G r b e c := by
    intro u e rem rest frames hstack hpass hcalls
    rw [calls_framesFor hpass] at hcalls
    cases he : G.kind e with
    | call c =>
        rw [he, hafter] at hcalls
        exact ⟨e, c, (List.cons.inj hcalls).1, enters_of_call hstack he⟩
    | closed | plain =>
        rw [he] at hcalls
        exact (hlength hcalls (Nat.le_refl _)).elim
    | ret c =>
        rw [he] at hcalls
        exact (hlength hcalls (List.tail_suffix _).length_le).elim
  rcases after_succ (G := G) r b with hstep | ⟨_, hsame⟩
  · generalize ht : after G r (b + 1) = t at hstep
    cases hstep with
    | finish hstack =>
        exact (hlength (by rw [ht]; exact calls_paint _ _ _)
          (Nat.le_refl _)).elim
    | skip hstack hpass =>
        exact (hlength (by rw [ht]) (Nat.le_refl _)).elim
    | tree hstack hpass hwhite =>
        exact hpassed hstack hpass (by rw [ht]; exact calls_paint _ _ _)
    | cross hstack hpass hwhite => exact hpassed hstack hpass (by rw [ht])
  · exact (hlength (by rw [hsame]) (Nat.le_refl _)).elim

/-- The step with which an edge gets on the path. -/
theorem exists_tree_of_pushes_path {b : Nat} {e : E} {p : List E}
    (h : Pushes (pathAfter G r) b e p) :
    ∃ u rem rest frames, (after G r b).stack = (u, e :: rem) :: rest ∧
      framesFor (after G r b).frames (G.kind e) = some frames ∧
      after G r (b + 1) = ⟨paint (G.target e) .gray frames,
        (G.target e, G.out (G.target e)) :: (u, rem) :: rest,
        e :: (after G r b).path⟩ := by
  have hbefore : (after G r b).path = p := h.1
  have hafter : (after G r (b + 1)).path = e :: (after G r b).path := by
    rw [hbefore]
    exact h.2
  have hlength : ∀ {l : List E}, (after G r (b + 1)).path = l →
      l.length ≤ (after G r b).path.length → False := by
    intro l hl hle
    rw [← hl, hafter, List.length_cons] at hle
    omega
  rcases after_succ (G := G) r b with hstep | ⟨_, hsame⟩
  · generalize ht : after G r (b + 1) = t at hstep
    cases hstep with
    | finish hstack =>
        exact (hlength (by rw [ht]) (List.tail_suffix _).length_le).elim
    | skip hstack hpass => exact (hlength (by rw [ht]) (Nat.le_refl _)).elim
    | @tree u d rem rest frames hstack hpass hwhite =>
        rw [ht] at hafter
        obtain rfl : d = e := (List.cons.inj hafter).1
        exact ⟨u, rem, rest, frames, hstack, hpass, rfl⟩
    | cross hstack hpass hwhite =>
        exact (hlength (by rw [ht]) (Nat.le_refl _)).elim
  · exact (hlength (by rw [hsame]) (Nat.le_refl _)).elim

/-! ## A search on top of another -/

/-- The frame at the bottom gets a call. -/
def withCall (c : V) : List (Frame V) → List (Frame V)
  | [] => []
  | [f] => [⟨some c, f.color⟩]
  | f :: g :: frames => f :: withCall c (g :: frames)

/-- The state of a search started by the call `c`, on top of other frames,
another stack and another path. -/
def lift (c : V) (frames : List (Frame V)) (stack : List (V × List E))
    (path : List E) (s : State V E) : State V E :=
  ⟨withCall c s.frames ++ frames, s.stack ++ stack, s.path ++ path⟩

omit [DecidableEq V] in
@[simp] theorem length_withCall (c : V) (frames : List (Frame V)) :
    (withCall c frames).length = frames.length := by
  induction frames using withCall.induct with
  | case1 => rfl
  | case2 f => rfl
  | case3 f g frames ih =>
      show (withCall c (g :: frames)).length + 1 = (g :: frames).length + 1
      rw [ih]

omit [DecidableEq V] in
theorem withCall_cons (c : V) (f : Frame V) {frames : List (Frame V)}
    (h : frames ≠ []) : withCall c (f :: frames) = f :: withCall c frames := by
  cases frames with
  | nil => exact absurd rfl h
  | cons g frames => rfl

omit [DecidableEq V] in
theorem Grounded.ne_nil {frames : List (Frame V)} (h : Grounded frames) :
    frames ≠ [] := by
  rintro rfl
  exact absurd h (by simp [Grounded])

omit [DecidableEq V] in
/-- A single frame is the one at the bottom. -/
theorem Grounded.call_eq_none {f : Frame V} (h : Grounded [f]) :
    f.call = none := by
  simpa [Grounded] using h

theorem paint_withCall (c v : V) (k : Color) {frames below : List (Frame V)}
    (h : frames ≠ []) :
    paint v k (withCall c frames ++ below) =
      withCall c (paint v k frames) ++ below := by
  cases frames with
  | nil => exact absurd rfl h
  | cons f frames => cases frames <;> rfl

omit [DecidableEq V] in
theorem isWhite_withCall (c v : V) {frames below : List (Frame V)}
    (h : frames ≠ []) :
    isWhite v (withCall c frames ++ below) = isWhite v frames := by
  cases frames with
  | nil => exact absurd rfl h
  | cons f frames => cases frames <;> rfl

/-- The call at the bottom makes a difference to an edge that returns from it,
and only when no other frame is above. -/
theorem framesFor_withCall {c : V} {k : Kind V} {frames below : List (Frame V)}
    (h : Grounded frames) (hk : k = .ret c → frames.length ≠ 1) :
    framesFor (withCall c frames ++ below) k =
      (framesFor frames k).map fun fs => withCall c fs ++ below := by
  cases k with
  | closed => rfl
  | plain => rfl
  | call d =>
      show some (_ :: (withCall c frames ++ below)) =
        some (withCall c (_ :: frames) ++ below)
      rw [withCall_cons c _ h.ne_nil, List.cons_append]
  | ret d =>
      match frames with
      | [] => exact absurd rfl h.ne_nil
      | [f] =>
          have hne : c ≠ d := fun heq => hk (by rw [heq]) rfl
          simp [withCall, framesFor, h.call_eq_none, hne]
      | f :: g :: frames =>
          simp only [withCall, List.cons_append, framesFor]
          split_ifs <;> rfl

/-- The next edge of the top vertex returns from the call at the bottom, and
no other frame is above. -/
def Leaves (G : Incidence V E) (c : V) (s : State V E) : Prop :=
  s.frames.length = 1 ∧
    ∃ u e rem rest, s.stack = (u, e :: rem) :: rest ∧ G.kind e = .ret c

/-- On top of others the search takes the same steps. -/
theorem Step.lift {c : V} {s t : State V E} (h : Step G s t)
    (frames : List (Frame V)) (stack : List (V × List E)) (path : List E)
    (hgrounded : Grounded s.frames) (hpath : t.stack ≠ [] → s.stack.length =
      s.path.length + 1) (hleaves : ¬ Leaves G c s) (ht : t.stack ≠ []) :
    Step G (lift c frames stack path s) (lift c frames stack path t) := by
  have hpassed : ∀ {u : V} {e : E} {rem : List E} {rest : List (V × List E)},
      s.stack = (u, e :: rem) :: rest →
        framesFor (withCall c s.frames ++ frames) (G.kind e) =
          (framesFor s.frames (G.kind e)).map fun fs => withCall c fs ++ frames :=
    fun hstack => framesFor_withCall hgrounded fun hk hlength =>
      hleaves ⟨hlength, _, _, _, _, hstack, hk⟩
  cases h with
  | @finish u rest hstack =>
      have hne : s.path ≠ [] := by
        intro hnil
        have hlength := hpath ht
        rw [hstack, hnil, List.length_cons, List.length_nil] at hlength
        exact ht (List.eq_nil_of_length_eq_zero (Nat.succ.inj hlength))
      have hlifted : (ContextSearch.lift c frames stack path s).stack =
          (u, []) :: (rest ++ stack) := by
        simp [ContextSearch.lift, hstack]
      have hfinish := Step.finish (G := G) hlifted
      have heq : ContextSearch.lift c frames stack path
          ⟨paint u .black s.frames, rest, s.path.tail⟩ =
            ⟨paint u .black (withCall c s.frames ++ frames), rest ++ stack,
              (s.path ++ path).tail⟩ := by
        simp only [ContextSearch.lift]
        rw [paint_withCall c u .black hgrounded.ne_nil,
          List.tail_append_of_ne_nil hne]
      rw [heq]
      exact hfinish
  | @skip u e rem rest hstack hpass =>
      have hskip := hpassed hstack
      rw [hpass, Option.map_none] at hskip
      have hlifted : (ContextSearch.lift c frames stack path s).stack =
          (u, e :: rem) :: (rest ++ stack) := by
        simp [ContextSearch.lift, hstack]
      exact .skip hlifted hskip
  | @tree u e rem rest fs hstack hpass hwhite =>
      have htree := hpassed hstack
      rw [hpass, Option.map_some] at htree
      have hne : fs ≠ [] := (grounded_framesFor hgrounded hpass).ne_nil
      have heq : ContextSearch.lift c frames stack path
          ⟨paint (G.target e) .gray fs,
            (G.target e, G.out (G.target e)) :: (u, rem) :: rest, e :: s.path⟩ =
          ⟨paint (G.target e) .gray (withCall c fs ++ frames),
            (G.target e, G.out (G.target e)) :: (u, rem) :: (rest ++ stack),
            e :: (s.path ++ path)⟩ := by
        simp only [ContextSearch.lift]
        rw [paint_withCall c _ .gray hne]
        rfl
      rw [heq]
      refine Step.tree (by simp [ContextSearch.lift, hstack]) htree ?_
      rw [isWhite_withCall c _ hne]
      exact hwhite
  | @cross u e rem rest fs hstack hpass hwhite =>
      have hcross := hpassed hstack
      rw [hpass, Option.map_some] at hcross
      refine Step.cross (by simp [ContextSearch.lift, hstack]) hcross ?_
      rw [isWhite_withCall c _ (grounded_framesFor hgrounded hpass).ne_nil]
      exact hwhite

/-- The edge that returns from the call at the bottom pops its frame. -/
theorem calls_of_leaves {c : V} {frames : List (Frame V)}
    {stack : List (V × List E)} {path : List E} {s t : State V E}
    (hs : Leaves G c s) (h : Step G (lift c frames stack path s) t) :
    calls t = frames.map Frame.call := by
  obtain ⟨hlength, u, e, rem, rest, hstack, he⟩ := hs
  obtain ⟨f, hf⟩ := List.length_eq_one_iff.mp hlength
  have hframes : (lift c frames stack path s).frames =
      ⟨some c, f.color⟩ :: frames := by
    simp [lift, hf, withCall]
  have hstack' : (lift c frames stack path s).stack =
      (u, e :: rem) :: (rest ++ stack) := by
    simp [lift, hstack]
  have hpass : framesFor (lift c frames stack path s).frames (G.kind e) =
      some frames := by
    rw [hframes, he]
    simp [framesFor]
  cases h with
  | finish h =>
      rw [hstack'] at h
      exact absurd h (by simp)
  | @skip u' e' rem' rest' h hskip =>
      rw [hstack', List.cons_eq_cons, Prod.mk.injEq, List.cons_eq_cons] at h
      obtain ⟨⟨rfl, rfl, rfl⟩, rfl⟩ := h
      rw [hpass] at hskip
      exact absurd hskip (by simp)
  | @tree u' e' rem' rest' frames' h htree _ =>
      rw [hstack', List.cons_eq_cons, Prod.mk.injEq, List.cons_eq_cons] at h
      obtain ⟨⟨rfl, rfl, rfl⟩, rfl⟩ := h
      rw [hpass, Option.some.injEq] at htree
      rw [← htree]
      exact calls_paint _ _ _
  | @cross u' e' rem' rest' frames' h hcross _ =>
      rw [hstack', List.cons_eq_cons, Prod.mk.injEq, List.cons_eq_cons] at h
      obtain ⟨⟨rfl, rfl, rfl⟩, rfl⟩ := h
      rw [hpass, Option.some.injEq] at hcross
      rw [← hcross]

/-! ## The search of an activation -/

/-- After `m` steps of its own the search from the end of `e` goes on, on top
of what was there when the call was entered. -/
structure OnTop (G : Incidence V E) (r : V) (b : Nat) (e : E) (c : V) (m : Nat) :
    Prop where
  eq : after G r (b + 1 + m) = lift c (after G r b).frames
    (after G r (b + 1)).stack.tail (after G r (b + 1)).path
    (after G (G.target e) m)
  ne_nil : (after G (G.target e) m).stack ≠ []

theorem Enters.onTop_zero {b : Nat} {e : E} {c : V} (h : Enters G r b e c) :
    OnTop G r b e c 0 := by
  refine ⟨?_, List.cons_ne_nil _ _⟩
  have hstate : after G r (b + 1) = ⟨(after G r (b + 1)).frames,
    (after G r (b + 1)).stack, (after G r (b + 1)).path⟩ := rfl
  rw [Nat.add_zero, hstate, h.frames, h.stack]
  rfl

section onTop

variable {b : Nat} {e : E} {c : V} {m : Nat}

theorem OnTop.calls_eq (h : OnTop G r b e c m) :
    callsAfter G r (b + 1 + m) =
      (withCall c (after G (G.target e) m).frames).map Frame.call ++
        callsAfter G r b := by
  unfold callsAfter calls
  rw [h.eq]
  exact List.map_append

theorem OnTop.path_eq (h : OnTop G r b e c m) :
    pathAfter G r (b + 1 + m) =
      (after G (G.target e) m).path ++ pathAfter G r (b + 1) := by
  unfold pathAfter
  rw [h.eq]
  rfl

theorem OnTop.stack_eq (h : OnTop G r b e c m) :
    (after G r (b + 1 + m)).stack = (after G (G.target e) m).stack ++
      (after G r (b + 1)).stack.tail := by
  rw [h.eq]
  rfl

/-- The frame of the call is there. -/
theorem OnTop.lt_length_calls (h : OnTop G r b e c m) :
    (callsAfter G r b).length < (callsAfter G r (b + 1 + m)).length := by
  have hpos := List.length_pos_iff.mpr
    (grounded_after (G := G) (G.target e) m).ne_nil
  rw [h.calls_eq, List.length_append, List.length_map, length_withCall]
  omega

/-- The frame of the call is on top exactly when the search on top has a single
frame. -/
theorem OnTop.length_calls_eq (h : OnTop G r b e c m) :
    (callsAfter G r (b + 1 + m)).length = (callsAfter G r b).length + 1 ↔
      (after G (G.target e) m).frames.length = 1 := by
  rw [h.calls_eq, List.length_append, List.length_map, length_withCall]
  omega

/-- What the next step does: it pops the frame, or goes back from the entry of
the procedure, or is one of the search on top. -/
theorem OnTop.succ (h : OnTop G r b e c m) (henters : Enters G r b e c) :
    (Leaves G c (after G (G.target e) m) ∧
        callsAfter G r (b + 1 + (m + 1)) = callsAfter G r b) ∨
      ((after G (G.target e) (m + 1)).stack = [] ∧
        pathAfter G r (b + 1 + (m + 1)) = pathAfter G r b ∧
          callsAfter G r (b + 1 + (m + 1)) = callsAfter G r (b + 1 + m)) ∨
        (¬ Leaves G c (after G (G.target e) m) ∧
          OnTop G r b e c (m + 1)) := by
  have hne : (after G r (b + 1 + m)).stack ≠ [] := by
    rw [h.stack_eq]
    exact List.append_ne_nil_of_left_ne_nil h.ne_nil _
  have hstep : Step G (after G r (b + 1 + m)) (after G r (b + 1 + (m + 1))) :=
    (after_succ r (b + 1 + m)).resolve_right fun hend => hne hend.1
  have hlocal : Step G (after G (G.target e) m) (after G (G.target e) (m + 1)) :=
    (after_succ _ m).resolve_right fun hend => h.ne_nil hend.1
  have hlength := (threaded_after _ h.ne_nil).length_eq
  by_cases hleaves : Leaves G c (after G (G.target e) m)
  · rw [h.eq] at hstep
    exact .inl ⟨hleaves, calls_of_leaves hleaves hstep⟩
  · by_cases hend : (after G (G.target e) (m + 1)).stack = []
    · refine .inr (.inl ⟨hend, ?_⟩)
      -- The last vertex of the procedure is finished.
      obtain ⟨u, hu⟩ : ∃ u, (after G (G.target e) m).stack = [(u, [])] := by
        generalize after G (G.target e) (m + 1) = t at hlocal hend
        cases hlocal with
        | @finish u rest hstack =>
            have hrest : rest = [] := hend
            exact ⟨u, by rw [hstack, hrest]⟩
        | skip _ _ => exact absurd hend (List.cons_ne_nil _ _)
        | tree _ _ _ => exact absurd hend (List.cons_ne_nil _ _)
        | cross _ _ _ => exact absurd hend (List.cons_ne_nil _ _)
      have hpath : (after G (G.target e) m).path = [] := by
        rw [hu, List.length_singleton] at hlength
        exact List.eq_nil_of_length_eq_zero (by omega)
      have hstack : (after G r (b + 1 + m)).stack =
          (u, []) :: (after G r (b + 1)).stack.tail := by
        rw [h.stack_eq, hu]
        rfl
      have hnext := after_succ_of_step r (.finish hstack)
      constructor
      · show (after G r (b + 1 + m + 1)).path = _
        rw [hnext]
        show (pathAfter G r (b + 1 + m)).tail = _
        rw [h.path_eq, hpath, List.nil_append, pathAfter, henters.path]
        rfl
      · show calls (after G r (b + 1 + m + 1)) = _
        rw [hnext]
        exact calls_paint _ _ _
    · refine .inr (.inr ⟨hleaves, ?_, hend⟩)
      have hnext := hlocal.lift (after G r b).frames
        (after G r (b + 1)).stack.tail (after G r (b + 1)).path
        (grounded_after _ m) (fun _ => hlength) hleaves hend
      rw [← h.eq] at hnext
      exact after_succ_of_step r hnext

/-- As long as the frame is there and the edge on the path, the search on top
goes on. -/
theorem Enters.onTop (henters : Enters G r b e c)
    (hcalls : Above (callsAfter G r) (b + 1) (b + 1 + m))
    (hpath : Above (pathAfter G r) (b + 1) (b + 1 + m)) :
    OnTop G r b e c m := by
  induction m with
  | zero => exact henters.onTop_zero
  | succ m ih =>
      have hold := ih (hcalls.mono (by omega) (by omega))
        (hpath.mono (by omega) (by omega))
      have hcallsLength := hcalls.length_le
      have hpathLength := hpath.length_le
      rw [henters.pushes_calls.2, List.length_cons] at hcallsLength
      rw [henters.pushes_path.2, List.length_cons] at hpathLength
      rcases hold.succ henters with ⟨_, hpop⟩ | ⟨_, hfinish, _⟩ | ⟨_, hnext⟩
      · rw [hpop] at hcallsLength
        exact absurd hcallsLength (Nat.not_succ_le_self _)
      · rw [hfinish] at hpathLength
        exact absurd hpathLength (Nat.not_succ_le_self _)
      · exact hnext

/-- And the other way round. -/
theorem Enters.above (henters : Enters G r b e c)
    (h : ∀ i ≤ m, OnTop G r b e c i) :
    Above (callsAfter G r) (b + 1) (b + 1 + m) ∧
      Above (pathAfter G r) (b + 1) (b + 1 + m) := by
  refine ⟨⟨Nat.le_add_right _ _, fun i hbi him => ?_⟩,
    ⟨Nat.le_add_right _ _, fun i hbi him => ?_⟩⟩
  · obtain ⟨j, rfl⟩ := Nat.exists_eq_add_of_le hbi
    have hlt := (h j (by omega)).lt_length_calls
    rw [henters.pushes_calls.2, List.length_cons]
    exact hlt
  · obtain ⟨j, rfl⟩ := Nat.exists_eq_add_of_le hbi
    rw [(h j (by omega)).path_eq, List.length_append]
    exact Nat.le_add_left _ _

end onTop

end CoFlo.Verified.ContextSearch
