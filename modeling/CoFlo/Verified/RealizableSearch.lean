import CoFlo.Verified.Activation

/-!
# The path of a search is realizable

Edges that return are let through by the call of the top frame, and the top
frame need not belong to the innermost call of the path.  Whenever such an
edge is let through the two agree nevertheless (`Procedures.closes_innermost`).
The argument compares the activations of one procedure, which all run the same
search:

* an activation inside of which another one of the same procedure is entered
  never ends, since that one does the same (`Procedures.stuck`);
* where the frame of one activation has been popped from the exit of the
  procedure, every other activation comes to the exit with its own frame on
  top, so none of them leaves its frame behind.

So the frame on top, if it is not the one of the innermost call, can neither
be on the path nor have been left behind.
-/

namespace CoFlo.Verified.ContextSearch

open CoFlo.Verified.StepMachine CoFlo.Verified.StackHistory

variable {V E P : Type*} [DecidableEq V] {G : Incidence V E} {home : V → P}
  {entry exit : P → V} {callee : V → P}

/-! ## Single steps -/

/-- What an edge that is let through does to the calls. -/
theorem callsAfter_succ {r : V} {t : Nat} {u : V} {d : E} {rem : List E}
    {rest : List (V × List E)} {frames : List (Frame V)}
    (hstack : (after G r t).stack = (u, d :: rem) :: rest)
    (hpass : framesFor (after G r t).frames (G.kind d) = some frames) :
    callsAfter G r (t + 1) = (G.kind d).onCalls (callsAfter G r t) := by
  unfold callsAfter calls
  rw [← calls_framesFor hpass]
  by_cases hwhite : isWhite (G.target d) frames = true
  · rw [after_succ_of_step r (.tree hstack hpass hwhite)]
    exact calls_paint _ _ _
  · rw [after_succ_of_step r
      (.cross hstack hpass (by simpa using hwhite))]

/-- The call of the top frame lets an edge through that returns from it. -/
theorem callsAfter_eq_cons {r : V} {t : Nat} {c : V} {frames : List (Frame V)}
    (hpass : framesFor (after G r t).frames (.ret c) = some frames) :
    callsAfter G r t = some c :: frames.map Frame.call := by
  unfold callsAfter calls
  cases hframes : (after G r t).frames with
  | nil =>
      rw [hframes] at hpass
      exact absurd hpass (by simp [framesFor])
  | cons f fs =>
      rw [hframes] at hpass
      simp only [framesFor, Option.ite_none_right_eq_some,
        Option.some.injEq] at hpass
      rw [List.map_cons, hpass.1, hpass.2]

/-- The frame of a call has been pushed when the call was entered. -/
theorem exists_enters_of_callsAfter {r : V} {t : Nat} {c : V}
    {p : List (Option V)} (h : callsAfter G r t = some c :: p) :
    ∃ b e, Enters G r b e c ∧ Above (callsAfter G r) (b + 1) t ∧
      callsAfter G r b = p := by
  have hstart : ¬ some c :: p <:+ callsAfter G r 0 := by
    intro hsuffix
    have hlength := hsuffix.length_le
    have hzero : callsAfter G r 0 = [none] := rfl
    rw [hzero] at hsuffix hlength
    have hp : p = [] := List.eq_nil_of_length_eq_zero (by simpa using hlength)
    rw [hp] at hsuffix
    have heq := hsuffix.eq_of_length rfl
    exact absurd heq (by simp)
  obtain ⟨b, hb, habove⟩ := exists_pushes (t := t) (isHistory_calls r) hstart
    (by rw [h])
  obtain ⟨e, c', hc, henters⟩ := exists_enters_of_pushes_calls hb
  rw [← Option.some.inj hc] at henters
  exact ⟨b, e, henters, habove, hb.1⟩

/-- The step with which an edge of the path was taken. -/
theorem exists_pushes_of_suffix {r : V} {t : Nat} {e : E} {q : List E}
    (h : e :: q <:+ pathAfter G r t) :
    ∃ x, Pushes (pathAfter G r) x e q ∧ Above (pathAfter G r) (x + 1) t := by
  refine exists_pushes (isHistory_path r) ?_ h
  intro hsuffix
  exact absurd (List.suffix_nil.mp hsuffix) (List.cons_ne_nil e q)

/-- A search that has ended stays where it is. -/
theorem stack_after_eq_nil {r : V} {n m : Nat} (hnm : n ≤ m)
    (hn : (after G r n).stack = []) : (after G r m).stack = [] := by
  rw [show after G r m = after G r n from
    trajectory_of_step_eq_none hnm (step_eq_none.mpr hn)]
  exact hn

variable (hG : Procedures G home entry exit callee) {r : V}

/-- At time `b` a call of `g` is entered. -/
def EntersProc (G : Incidence V E) (callee : V → P) (r : V) (b : Nat) (g : P) :
    Prop :=
  ∃ e c, Enters G r b e c ∧ callee c = g

section

include hG

theorem Enters.target_eq {b : Nat} {e : E} {c : V} (h : Enters G r b e c) :
    G.target e = entry (callee c) ∧ home (G.target e) = callee c :=
  (hG.call _ e h.mem_out c h.kind).2

theorem Enters.home_exit {b : Nat} {e : E} {c : V} (h : Enters G r b e c) :
    home (exit (callee c)) = callee c := by
  obtain ⟨d, hd, hret⟩ := hG.exists_ret _ e h.mem_out c h.kind
  exact (hG.ret _ d hd c hret).2.1

/-- The edges of the exit of a called procedure. -/
theorem Enters.exit_out {b : Nat} {e : E} {c : V} (h : Enters G r b e c) :
    ∀ d ∈ G.out (exit (callee c)),
      G.kind d = .closed ∨ ∃ c', G.kind d = .ret c' := by
  obtain ⟨d, hd, hret⟩ := hG.exists_ret _ e h.mem_out c h.kind
  exact hG.leave _ d hd c hret

/-! ## Coming to the exit -/

section exit

variable {a t : Nat} {e : E} {c : V} (ha : Enters G r a e c)

include ha

/-- While no other activation of its procedure has been entered, only the frame
of the activation itself is popped at the exit. -/
theorem own_frame (hcalls : Above (callsAfter G r) (a + 1) t)
    (hfresh : ∀ x, a < x → x < t → ¬ EntersProc G callee r x (callee c))
    {d : E} (hd : d ∈ G.out (exit (callee c))) {c' : V} (hkind : G.kind d = .ret c')
    {frames : List (Frame V)}
    (hpass : framesFor (after G r t).frames (G.kind d) = some frames) :
    (callsAfter G r t).length = (callsAfter G r a).length + 1 := by
  rw [hkind] at hpass
  have htop := callsAfter_eq_cons hpass
  obtain ⟨x, e', hx, habove, hp⟩ := exists_enters_of_callsAfter htop
  have hcallee : callee c' = callee c := by
    rw [← (hG.ret _ d hd c' hkind).2.1]
    exact ha.home_exit hG
  have hxa : x ≤ a := by
    by_contra hlt
    exact hfresh x (Nat.lt_of_not_le hlt) habove.le ⟨e', c', hx, hcallee⟩
  have hlength : (callsAfter G r t).length = (callsAfter G r x).length + 1 := by
    rw [htop, hp, List.length_cons]
  rcases Nat.lt_or_eq_of_le hxa with hlt | rfl
  · have hbefore := habove.2 a hlt (Nat.le_of_lt hcalls.le)
    have hafter := hcalls.length_le
    rw [hx.pushes_calls.2, List.length_cons] at hbefore
    rw [ha.pushes_calls.2, List.length_cons] at hafter
    omega
  · exact hlength

omit hG in
/-- Popping its own frame is the end of an activation. -/
theorem not_above_of_ret {u : V} {d : E} {rem : List E}
    {rest : List (V × List E)} (hstack : (after G r t).stack = (u, d :: rem) :: rest)
    {c' : V} (hkind : G.kind d = .ret c') {frames : List (Frame V)}
    (hpass : framesFor (after G r t).frames (G.kind d) = some frames)
    (hlength : (callsAfter G r t).length = (callsAfter G r a).length + 1)
    {n : Nat} (hat : a ≤ t) (htn : t < n) :
    ¬ Above (callsAfter G r) (a + 1) n := by
  intro habove
  have hnext := habove.2 (t + 1) (Nat.succ_le_succ hat) htn
  rw [callsAfter_succ hstack hpass, hkind, ha.pushes_calls.2] at hnext
  change (_ :: callsAfter G r a).length ≤ (callsAfter G r t).tail.length at hnext
  rw [List.length_tail, List.length_cons] at hnext
  omega

/-- In the meantime no edge of the exit gets on the path. -/
theorem tip_ne_exit (hcalls : Above (callsAfter G r) (a + 1) t)
    (hpath : Above (pathAfter G r) (a + 1) t)
    (hfresh : ∀ x, a < x → x < t → ¬ EntersProc G callee r x (callee c))
    {d : E} {q : List E} (hd : d :: q <:+ pathAfter G r t)
    (hq : pathAfter G r (a + 1) <:+ q) : tip G r q ≠ exit (callee c) := by
  intro htip
  obtain ⟨x, hx, habove⟩ := exists_pushes_of_suffix hd
  have hlength := hq.length_le
  rw [ha.pushes_path.2, List.length_cons] at hlength
  have hax : a < x := ha.pushes_path.lt_of_length_lt hx hpath habove hlength
  obtain ⟨u, rem, rest, frames, hstack, hpass, _⟩ := exists_tree_of_pushes_path hx
  have hthread := threaded_after r (n := x) (by rw [hstack]; simp)
  rw [hstack] at hthread
  have hu : u = exit (callee c) := by
    rw [hthread.top.1, ← htip, ← hx.1]
    rfl
  have hout : d ∈ G.out (exit (callee c)) :=
    hu ▸ hthread.top.2.subset List.mem_cons_self
  rcases ha.exit_out hG d hout with hclosed | ⟨c', hret⟩
  · exact not_closed_of_framesFor hpass hclosed
  · have hown := own_frame hG ha (hcalls.mono hax (Nat.le_of_lt habove.le))
      (fun y hay hyx => hfresh y hay (Nat.lt_trans hyx habove.le)) hout hret hpass
    exact not_above_of_ret ha hstack hret hpass hown (Nat.le_of_lt hax)
      habove.le hcalls

/-- The exit on top of the stack got there with all its edges, and the frames
and the path have not changed since. -/
theorem exists_scan (hcalls : Above (callsAfter G r) (a + 1) t)
    (hpath : Above (pathAfter G r) (a + 1) t)
    (hfresh : ∀ x, a < x → x < t → ¬ EntersProc G callee r x (callee c))
    {rem : List E} {rest : List (V × List E)}
    (hstack : (after G r t).stack = (exit (callee c), rem) :: rest) :
    ∃ n, a + 1 + n ≤ t ∧ callsAfter G r (a + 1 + n) = callsAfter G r t ∧
      (after G r (a + 1 + n)).stack =
        (exit (callee c), G.out (exit (callee c))) :: rest := by
  obtain ⟨m, rfl⟩ := Nat.exists_eq_add_of_le hcalls.le
  induction m generalizing rem with
  | zero =>
      have hentered := ha.stack
      rw [show a + 1 + 0 = a + 1 from rfl] at hstack
      rw [hstack, List.tail_cons, List.cons_eq_cons, Prod.mk.injEq] at hentered
      refine ⟨0, Nat.le_refl _, rfl, ?_⟩
      rw [Nat.add_zero, hstack, hentered.1.2, hentered.1.1]
  | succ m ih =>
      have hcalls' := hcalls.mono (u := a + 1 + m) (by omega) (by omega)
      have hpath' := hpath.mono (u := a + 1 + m) (by omega) (by omega)
      have hfresh' : ∀ x, a < x → x < a + 1 + m →
          ¬ EntersProc G callee r x (callee c) :=
        fun x hax hx => hfresh x hax (by omega)
      have hold : ∀ {d : E},
          (after G r (a + 1 + m)).stack = (exit (callee c), d :: rem) :: rest →
          callsAfter G r (a + 1 + m) = callsAfter G r (a + 1 + (m + 1)) →
          ∃ n, a + 1 + n ≤ a + 1 + (m + 1) ∧
            callsAfter G r (a + 1 + n) = callsAfter G r (a + 1 + (m + 1)) ∧
            (after G r (a + 1 + n)).stack =
              (exit (callee c), G.out (exit (callee c))) :: rest := by
        intro d hbefore hsame
        obtain ⟨n, hn, hncalls, hnstack⟩ := ih hcalls' hpath' hfresh' hbefore
        exact ⟨n, by omega, hncalls.trans hsame, hnstack⟩
      have hstep : Step G (after G r (a + 1 + m)) (after G r (a + 1 + (m + 1))) := by
        refine (after_succ r (a + 1 + m)).resolve_right fun hend => ?_
        have hnil : (after G r (a + 1 + (m + 1))).stack = [] := by
          rw [show after G r (a + 1 + (m + 1)) = after G r (a + 1 + m) from hend.2]
          exact hend.1
        rw [hstack] at hnil
        exact List.cons_ne_nil _ _ hnil
      generalize ht : after G r (a + 1 + (m + 1)) = s at hstep hstack
      have hcallsEq : callsAfter G r (a + 1 + (m + 1)) = calls s :=
        congrArg calls ht
      cases hstep with
      | @finish u rest' hbefore =>
          -- Below the vertex that is finished the exit would be on the path.
          have hrest : rest' = (exit (callee c), rem) :: rest := hstack
          rw [hrest] at hbefore
          have hthread := threaded_after r (n := a + 1 + m) (by
            rw [hbefore]
            exact List.cons_ne_nil _ _)
          rw [hbefore] at hthread
          have hnext : pathAfter G r (a + 1 + (m + 1)) =
              (after G r (a + 1 + m)).path.tail := congrArg State.path ht
          have hbelow := hpath.suffix (isHistory_path r)
          rw [hnext] at hbelow
          generalize hp : (after G r (a + 1 + m)).path = p at hthread hbelow
          cases hthread with
          | @edge _ _ _ _ d path hthread' _ _ _ =>
              exact absurd hthread'.top.1.symm
                (tip_ne_exit hG ha hcalls' hpath' hfresh'
                  (show d :: path <:+ pathAfter G r (a + 1 + m) by
                    rw [pathAfter, hp]) hbelow)
      | @skip u d rem' rest' hbefore _ =>
          have hsplit : (u, rem') :: rest' = (exit (callee c), rem) :: rest :=
            hstack
          rw [List.cons_eq_cons, Prod.mk.injEq] at hsplit
          obtain ⟨⟨rfl, rfl⟩, rfl⟩ := hsplit
          exact hold hbefore hcallsEq.symm
      | @tree u d rem' rest' frames hbefore hpass _ =>
          have hsplit : (G.target d, G.out (G.target d)) :: (u, rem') :: rest' =
              (exit (callee c), rem) :: rest := hstack
          rw [List.cons_eq_cons, Prod.mk.injEq] at hsplit
          refine ⟨m + 1, Nat.le_refl _, rfl, ?_⟩
          rw [ht]
          show (G.target d, G.out (G.target d)) :: (u, rem') :: rest' = _
          rw [hsplit.1.1, hsplit.2]
      | @cross u d rem' rest' frames hbefore hpass _ =>
          have hsplit : (u, rem') :: rest' = (exit (callee c), rem) :: rest :=
            hstack
          rw [List.cons_eq_cons, Prod.mk.injEq] at hsplit
          obtain ⟨⟨rfl, rfl⟩, rfl⟩ := hsplit
          have hthread := threaded_after r (n := a + 1 + m) (by
            rw [hbefore]
            exact List.cons_ne_nil _ _)
          rw [hbefore] at hthread
          have hout := hthread.top.2.subset List.mem_cons_self
          rcases ha.exit_out hG d hout with hclosed | ⟨c', hret⟩
          · exact absurd hclosed (not_closed_of_framesFor hpass)
          · have hown := own_frame hG ha hcalls' hfresh' hout hret hpass
            exact absurd hcalls (not_above_of_ret ha hbefore hret hpass hown
              (by omega) (by omega))

end exit

/-- With a single frame, and all its edges, the exit `u` is on top. -/
structure Scans (G : Incidence V E) (r u : V) (n : Nat) : Prop where
  length_frames : (after G r n).frames.length = 1
  stack : ∃ rest, (after G r n).stack = (u, G.out u) :: rest

omit hG in
/-- No call is entered with an edge that is no call. -/
theorem not_enters {t : Nat} {u : V} {d : E} {rem : List E}
    {rest : List (V × List E)} (hstack : (after G r t).stack = (u, d :: rem) :: rest)
    (hd : G.kind d = .closed ∨ ∃ c, G.kind d = .ret c) (e : E) (c : V) :
    ¬ Enters G r t e c := by
  intro h
  obtain ⟨rem', rest', htop⟩ := h.top
  rw [hstack, List.cons_eq_cons, Prod.mk.injEq, List.cons_eq_cons] at htop
  have hkind := h.kind
  rw [← htop.1.2.1] at hkind
  rcases hd with hclosed | ⟨c', hret⟩
  · rw [hclosed] at hkind
    exact absurd hkind (by simp)
  · rw [hret] at hkind
    exact absurd hkind (by simp)

omit hG in
/-- The edges of the exit are passed over up to the one that returns from the
call, and that one pops the frame. -/
theorem OnTop.popped {a : Nat} {e : E} {c : V} (ha : Enters G r a e c) {u : V}
    {es : List E} {rest : List (V × List E)}
    (hes : ∀ d ∈ es, G.kind d = .closed ∨ ∃ c', G.kind d = .ret c')
    (hret : ∃ d ∈ es, G.kind d = .ret c) {m : Nat} (hm : OnTop G r a e c m)
    (hframes : (after G (G.target e) m).frames.length = 1)
    (hstack : (after G (G.target e) m).stack = (u, es) :: rest) :
    ∃ k, (∀ i ≤ k, OnTop G r a e c (m + i) ∧
        ∀ e' c', ¬ Enters G r (a + 1 + (m + i)) e' c') ∧
      callsAfter G r (a + 1 + (m + (k + 1))) = callsAfter G r a := by
  induction es generalizing m with
  | nil =>
      obtain ⟨d, hd, _⟩ := hret
      exact absurd hd List.not_mem_nil
  | cons d es ih =>
      have hstack' : (after G r (a + 1 + m)).stack = (u, d :: es) ::
          (rest ++ (after G r (a + 1)).stack.tail) := by
        rw [hm.stack_eq, hstack]
        rfl
      have hno := not_enters hstack' (hes d List.mem_cons_self)
      by_cases hd : G.kind d = .ret c
      · have hleaves : Leaves G c (after G (G.target e) m) :=
          ⟨hframes, u, d, es, rest, hstack, hd⟩
        refine ⟨0, fun i hi => ?_, ?_⟩
        · rw [Nat.le_zero.mp hi]
          exact ⟨hm, hno⟩
        · rcases hm.succ ha with ⟨_, hpop⟩ | ⟨hend, hpath, _⟩ | ⟨hnot, _⟩
          · exact hpop
          · -- An edge is examined, so no vertex is finished.
            have hlocal : Step G (after G (G.target e) m)
                (after G (G.target e) (m + 1)) :=
              (after_succ _ m).resolve_right fun hcon => hm.ne_nil hcon.1
            generalize after G (G.target e) (m + 1) = s at hlocal hend
            cases hlocal with
            | finish h =>
                rw [hstack] at h
                exact absurd h (by simp)
            | skip _ _ => exact absurd hend (List.cons_ne_nil _ _)
            | tree _ _ _ => exact absurd hend (List.cons_ne_nil _ _)
            | cross _ _ _ => exact absurd hend (List.cons_ne_nil _ _)
          · exact absurd hleaves hnot
      · have hgrounded := grounded_after (G := G) (G.target e) m
        obtain ⟨f, hf⟩ := List.length_eq_one_iff.mp hframes
        have hskip : framesFor (after G (G.target e) m).frames (G.kind d) = none := by
          rw [hf] at hgrounded ⊢
          rcases hes d List.mem_cons_self with hclosed | ⟨c', hret'⟩
          · rw [hclosed]
            rfl
          · rw [hret']
            simp [framesFor, hgrounded.call_eq_none]
        have hnext := after_succ_of_step (G.target e) (.skip hstack hskip)
        have hnot : ¬ Leaves G c (after G (G.target e) m) := by
          rintro ⟨_, u', e', rem', rest', hstack'', he'⟩
          rw [hstack, List.cons_eq_cons, Prod.mk.injEq, List.cons_eq_cons]
            at hstack''
          rw [hstack''.1.2.1] at hd
          exact hd he'
        have hsucc : OnTop G r a e c (m + 1) := by
          rcases hm.succ ha with ⟨hleaves, _⟩ | ⟨hend, _⟩ | ⟨_, hsucc⟩
          · exact absurd hleaves hnot
          · rw [hnext] at hend
            exact absurd hend (List.cons_ne_nil _ _)
          · exact hsucc
        obtain ⟨k, hk, hpop⟩ := ih
          (fun d' hd' => hes d' (List.mem_cons_of_mem _ hd'))
          (by
            obtain ⟨d', hd', hret'⟩ := hret
            rcases List.mem_cons.mp hd' with rfl | hd'
            · exact absurd hret' hd
            · exact ⟨d', hd', hret'⟩) hsucc (by rw [hnext]; exact hframes)
          (by rw [hnext])
        refine ⟨k + 1, fun i hi => ?_, ?_⟩
        · cases i with
          | zero => exact ⟨hm, hno⟩
          | succ i =>
              have hshift : m + 1 + i = m + (i + 1) := by omega
              rw [← hshift]
              exact hk i (Nat.le_of_succ_le_succ hi)
        · have hshift : m + 1 + (k + 1) = m + (k + 1 + 1) := by omega
          rw [← hshift]
          exact hpop

/-- An activation that comes to the exit with its own frame on top ends
there. -/
theorem Enters.popped_of_scans {a : Nat} {e : E} {c : V} (ha : Enters G r a e c)
    {n : Nat} (hn : OnTop G r a e c n)
    (hscans : Scans G (G.target e) (exit (callee c)) n) :
    ∃ k, (∀ i ≤ k, OnTop G r a e c (n + i) ∧
        ∀ e' c', ¬ Enters G r (a + 1 + (n + i)) e' c') ∧
      callsAfter G r (a + 1 + (n + (k + 1))) = callsAfter G r a := by
  obtain ⟨rest, hstack⟩ := hscans.stack
  exact hn.popped ha (ha.exit_out hG) (hG.exists_ret _ e ha.mem_out c ha.kind)
    hscans.length_frames hstack

/-- The exit on top, with the frame of the activation, has been so with all its
edges. -/
theorem Enters.exists_scans {a : Nat} {e : E} {c : V} (ha : Enters G r a e c)
    {m : Nat} (hm : ∀ i ≤ m, OnTop G r a e c i)
    (hfresh : ∀ x, a < x → x < a + 1 + m →
      ¬ EntersProc G callee r x (callee c))
    (hframes : (after G (G.target e) m).frames.length = 1) {rem : List E}
    {rest : List (V × List E)}
    (hstack : (after G (G.target e) m).stack = (exit (callee c), rem) :: rest) :
    ∃ n ≤ m, Scans G (G.target e) (exit (callee c)) n := by
  obtain ⟨hcalls, hpath⟩ := ha.above hm
  have hstack' : (after G r (a + 1 + m)).stack = (exit (callee c), rem) ::
      (rest ++ (after G r (a + 1)).stack.tail) := by
    rw [(hm m (Nat.le_refl m)).stack_eq, hstack]
    rfl
  obtain ⟨n, hn, hncalls, hnstack⟩ := exists_scan hG ha hcalls hpath hfresh hstack'
  have hnm : n ≤ m := by omega
  refine ⟨n, hnm, ?_, ?_⟩
  · rw [← (hm n hnm).length_calls_eq, hncalls,
      (hm m (Nat.le_refl m)).length_calls_eq]
    exact hframes
  · rw [(hm n hnm).stack_eq] at hnstack
    cases hlocal : (after G (G.target e) n).stack with
    | nil => exact absurd hlocal (hm n hnm).ne_nil
    | cons i rest' =>
        rw [hlocal, List.cons_append, List.cons_eq_cons] at hnstack
        exact ⟨rest', by rw [hnstack.1]⟩

/-! ## Recursion does not end -/

omit hG in
/-- The first call of a procedure entered after `a`. -/
theorem exists_first {a b : Nat} {g : P} (hab : a < b)
    (hb : EntersProc G callee r b g) :
    ∃ x ≤ b, a < x ∧ EntersProc G callee r x g ∧
      ∀ y, a < y → y < x → ¬ EntersProc G callee r y g := by
  classical
  have hex : ∃ x, a < x ∧ EntersProc G callee r x g := ⟨b, hab, hb⟩
  obtain ⟨hax, hx⟩ := Nat.find_spec hex
  refine ⟨Nat.find hex, Nat.find_min' hex ⟨hab, hb⟩, hax, hx, ?_⟩
  intro y hay hyx hy
  exact Nat.find_min hex hyx ⟨hay, hy⟩

/-- The first activation of the same procedure inside of an activation does what
that one has done. -/
theorem Enters.onTop_of_first {a n : Nat} {e e' : E} {c c' : V}
    (ha : Enters G r a e c) (hb : Enters G r (a + 1 + n) e' c')
    (hcallee : callee c' = callee c)
    (hfresh : ∀ x, a < x → x < a + 1 + n →
      ¬ EntersProc G callee r x (callee c))
    (hon : ∀ i ≤ n + 1, OnTop G r a e c i) {m : Nat} (hm : m ≤ n + 1) :
    OnTop G r (a + 1 + n) e' c' m := by
  have htarget : G.target e' = G.target e := by
    rw [(hb.target_eq hG).1, (ha.target_eq hG).1, hcallee]
  induction m with
  | zero => exact hb.onTop_zero
  | succ m ih =>
      rcases (ih (by omega)).succ hb with ⟨hleaves, _⟩ | ⟨hend, _⟩ | ⟨_, hnext⟩
      · -- The one outside would have been popped before.
        rw [htarget] at hleaves
        obtain ⟨hframes, u, d, rem, rest, hstack, hret⟩ := hleaves
        have hout : d ∈ G.out u := by
          have hthread := threaded_after (G.target e) (hon m (by omega)).ne_nil
          rw [hstack] at hthread
          exact hthread.top.2.subset List.mem_cons_self
        have hu : u = exit (callee c) := by
          rw [(hG.ret u d hout c' hret).1, hcallee]
        rw [hu] at hstack
        obtain ⟨n₀, hn₀, hscans⟩ := ha.exists_scans hG
          (fun i hi => hon i (by omega))
          (fun x hax hx => hfresh x hax (by omega)) hframes hstack
        obtain ⟨k, hk, hpop⟩ := ha.popped_of_scans hG (hon n₀ (by omega)) hscans
        by_cases hlate : n₀ + (k + 1) ≤ n + 1
        · have hlt := (hon _ hlate).lt_length_calls
          rw [hpop] at hlt
          exact absurd hlt (Nat.lt_irrefl _)
        · have hsplit : a + 1 + n = a + 1 + (n₀ + (n - n₀)) := by omega
          rw [hsplit] at hb
          exact absurd hb ((hk (n - n₀) (by omega)).2 e' c')
      · rw [htarget] at hend
        exact absurd hend (hon (m + 1) hm).ne_nil
      · exact hnext

/-- An activation inside of which another one of its procedure is entered does
not end. -/
theorem stuck {a b t : Nat} {e : E} {c : V} (ha : Enters G r a e c)
    (hb : EntersProc G callee r b (callee c)) (hab : a < b)
    (hcalls : Above (callsAfter G r) (a + 1) (b + 1))
    (hpath : Above (pathAfter G r) (a + 1) (b + 1)) (hat : a + 1 ≤ t) :
    Above (callsAfter G r) (a + 1) t ∧ Above (pathAfter G r) (a + 1) t := by
  induction hn : t - a using Nat.strong_induction_on generalizing a b e c with
  | _ k ih =>
      obtain ⟨x, hxb, hax, ⟨e', c', hx, hcallee⟩, hfresh⟩ := exists_first hab hb
      obtain ⟨n, rfl⟩ := Nat.exists_eq_add_of_le hax
      have hcalls' := hcalls.mono (u := a + 1 + n + 1) (by omega) (by omega)
      have hpath' := hpath.mono (u := a + 1 + n + 1) (by omega) (by omega)
      by_cases hlate : t ≤ a + 1 + n + 1
      · exact ⟨hcalls'.mono hat hlate, hpath'.mono hat hlate⟩
      · have hon : ∀ i ≤ n + 1, OnTop G r a e c i := fun i hi =>
          ha.onTop (hcalls'.mono (by omega) (by omega))
            (hpath'.mono (by omega) (by omega))
        have hon' : ∀ i ≤ n + 1, OnTop G r (a + 1 + n) e' c' i := fun i hi =>
          ha.onTop_of_first hG hx hcallee hfresh hon hi
        -- The same call is entered once more.
        have htarget : G.target e' = G.target e := by
          rw [(hx.target_eq hG).1, (ha.target_eq hG).1, hcallee]
        obtain ⟨rem, rest, htop⟩ := hx.top
        rw [(hon n (by omega)).stack_eq] at htop
        obtain ⟨u, rem', rest', hlocal⟩ : ∃ u rem' rest',
            (after G (G.target e) n).stack = (u, e' :: rem') :: rest' := by
          cases hlocal : (after G (G.target e) n).stack with
          | nil => exact absurd hlocal (hon n (by omega)).ne_nil
          | cons i rest' =>
              rw [hlocal, List.cons_append, List.cons_eq_cons] at htop
              exact ⟨_, rem, rest', by rw [htop.1]⟩
        have hagain : Enters G r (a + 1 + n + 1 + n) e' c' := by
          have hstack : (after G r (a + 1 + n + 1 + n)).stack = (u, e' :: rem') ::
              (rest' ++ (after G r (a + 1 + n + 1)).stack.tail) := by
            rw [(hon' n (by omega)).stack_eq, htarget, hlocal]
            rfl
          exact enters_of_call hstack hx.kind
        obtain ⟨hcalls'', hpath''⟩ := hx.above hon'
        have hx' := ih (t - (a + 1 + n)) (by omega) hx ⟨e', c', hagain, rfl⟩
          (by omega) hcalls'' hpath'' (by omega) rfl
        exact ⟨hcalls'.trans hx'.1, hpath'.trans hx'.2⟩

/-- So the search does not end. -/
theorem stack_ne_nil_of_enters {a b : Nat} {e : E} {c : V} (ha : Enters G r a e c)
    (hb : EntersProc G callee r b (callee c)) (hab : a < b)
    (hcalls : Above (callsAfter G r) (a + 1) (b + 1))
    (hpath : Above (pathAfter G r) (a + 1) (b + 1)) (n : Nat) :
    (after G r n).stack ≠ [] := by
  intro hnil
  -- An empty stack stays empty, so it may be looked at later.
  have hlate := stack_after_eq_nil (Nat.le_add_right n (a + 1)) hnil
  have habove := (stuck hG ha hb hab hcalls hpath (Nat.le_add_left (a + 1) n)).2.length_le
  rw [ha.pushes_path.2, List.length_cons] at habove
  rcases aligned_after (G := G) r (n + (a + 1)) with ⟨-, hpath'⟩ | hthread
  · have hpathAfter : pathAfter G r (n + (a + 1)) = [] := hpath'
    rw [hpathAfter, List.length_nil] at habove
    omega
  · rw [hlate] at hthread
    have hlength := hthread.length_eq
    exact absurd hlength (Nat.succ_ne_zero _).symm

/-! ## How activations end -/

omit hG in
/-- A frame that is left behind: the procedure is gone through to its end. -/
theorem Enters.exists_finish {a t : Nat} {e : E} {c : V} (ha : Enters G r a e c)
    (hcalls : Above (callsAfter G r) (a + 1) t)
    (hpath : ¬ Above (pathAfter G r) (a + 1) t) :
    ∃ m, a + 1 + (m + 1) ≤ t ∧ (∀ i ≤ m, OnTop G r a e c i) ∧
      (after G (G.target e) (m + 1)).stack = [] := by
  obtain ⟨f, hf, hft, hlength⟩ := Above.exists_leave hcalls.le hpath
  obtain ⟨m, rfl⟩ := Nat.exists_eq_add_of_le hf.le
  have hon : ∀ i ≤ m, OnTop G r a e c i := fun i hi =>
    ha.onTop (hcalls.mono (by omega) (by omega)) (hf.mono (by omega) (by omega))
  refine ⟨m, by omega, hon, ?_⟩
  have habove := hcalls.2 (a + 1 + m + 1) (by omega) (by omega)
  rw [ha.pushes_calls.2, List.length_cons] at habove
  rw [ha.pushes_path.2, List.length_cons] at hlength
  rcases (hon m (Nat.le_refl m)).succ ha with ⟨_, hpop⟩ | ⟨hend, _⟩ | ⟨_, hnext⟩
  · rw [show a + 1 + m + 1 = a + 1 + (m + 1) from rfl, hpop] at habove
    exact absurd habove (Nat.not_succ_le_self _)
  · exact hend
  · rw [show a + 1 + m + 1 = a + 1 + (m + 1) from rfl, hnext.path_eq,
      List.length_append, ha.pushes_path.2, List.length_cons] at hlength
    omega

omit hG in
/-- A frame that is popped while the edge of the call is on the path. -/
theorem Enters.exists_pop {a t : Nat} {e : E} {c : V} (ha : Enters G r a e c)
    (hcalls : ¬ Above (callsAfter G r) (a + 1) t)
    (hpath : Above (pathAfter G r) (a + 1) t) :
    ∃ m, a + 1 + (m + 1) ≤ t ∧ (∀ i ≤ m, OnTop G r a e c i) ∧
      Leaves G c (after G (G.target e) m) := by
  obtain ⟨f, hf, hft, hlength⟩ := Above.exists_leave hpath.le hcalls
  obtain ⟨m, rfl⟩ := Nat.exists_eq_add_of_le hf.le
  have hon : ∀ i ≤ m, OnTop G r a e c i := fun i hi =>
    ha.onTop (hf.mono (by omega) (by omega)) (hpath.mono (by omega) (by omega))
  refine ⟨m, by omega, hon, ?_⟩
  have habove := hpath.2 (a + 1 + m + 1) (by omega) (by omega)
  rw [ha.pushes_path.2, List.length_cons] at habove
  rw [ha.pushes_calls.2, List.length_cons] at hlength
  rcases (hon m (Nat.le_refl m)).succ ha with
    ⟨hleaves, _⟩ | ⟨_, hfinish, _⟩ | ⟨_, hnext⟩
  · exact hleaves
  · rw [show a + 1 + m + 1 = a + 1 + (m + 1) from rfl, hfinish] at habove
    exact absurd habove (Nat.not_succ_le_self _)
  · have hlt := hnext.lt_length_calls
    rw [show a + 1 + (m + 1) = a + 1 + m + 1 from rfl] at hlt
    omega

/-- Where one activation is popped, no other leaves its frame behind. -/
theorem not_popped_and_left {a b t : Nat} {e e' : E} {c c' : V}
    (ha : Enters G r a e c) (hb : Enters G r b e' c')
    (hcallee : callee c' = callee c) (hcalls : ¬ Above (callsAfter G r) (a + 1) t)
    (hpath : Above (pathAfter G r) (a + 1) t)
    (hcalls' : Above (callsAfter G r) (b + 1) t)
    (hpath' : ¬ Above (pathAfter G r) (b + 1) t) : False := by
  obtain ⟨m, hmt, hon, hleaves⟩ := ha.exists_pop hcalls hpath
  obtain ⟨m', hmt', hon', hend⟩ := hb.exists_finish hcalls' hpath'
  have htarget : G.target e' = G.target e := by
    rw [(hb.target_eq hG).1, (ha.target_eq hG).1, hcallee]
  obtain ⟨hframes, u, d, rem, rest, hstack, hret⟩ := hleaves
  have hout : d ∈ G.out u := by
    have hthread := threaded_after (G.target e) (hon m (Nat.le_refl m)).ne_nil
    rw [hstack] at hthread
    exact hthread.top.2.subset List.mem_cons_self
  rw [(hG.ret u d hout c hret).1] at hstack
  -- Nothing of the procedure has been entered in the meantime.
  obtain ⟨hcallsm, hpathm⟩ := ha.above hon
  have hfresh : ∀ x, a < x → x < a + 1 + m →
      ¬ EntersProc G callee r x (callee c) := by
    intro x hax hxm hx
    have hstuck := stuck hG (t := t) ha hx hax (hcallsm.mono (by omega) hxm)
      (hpathm.mono (by omega) hxm) hpath.le
    exact hcalls hstuck.1
  obtain ⟨n, hn, hscans⟩ := ha.exists_scans hG hon hfresh hframes hstack
  have hnm' : n ≤ m' := by
    by_contra hlt
    have hnil := stack_after_eq_nil (show m' + 1 ≤ n by omega) hend
    rw [htarget] at hnil
    exact (hon n hn).ne_nil hnil
  rw [← hcallee, ← htarget] at hscans
  obtain ⟨k, hk, hpop⟩ := hb.popped_of_scans hG (hon' n hnm') hscans
  have hkm' : n + k ≤ m' := by
    by_contra hlt
    have hnil := stack_after_eq_nil (show m' + 1 ≤ n + k by omega) hend
    exact (hk k (Nat.le_refl k)).1.ne_nil hnil
  have habove := hcalls'.2 (b + 1 + (n + (k + 1))) (by omega) (by omega)
  rw [hpop, hb.pushes_calls.2, List.length_cons] at habove
  exact Nat.not_succ_le_self _ habove

/-! ## The innermost call -/

/-- Whatever returns at time `t` closes the innermost open call of the path,
and its frame is the one that was pushed for it. -/
def ClosesInnermost (G : Incidence V E) (r : V) (t : Nat) : Prop :=
  ∀ u d rem rest c frames, (after G r t).stack = (u, d :: rem) :: rest →
    G.kind d = .ret c → framesFor (after G r t).frames (G.kind d) = some frames →
      ∃ b e, Enters G r b e c ∧ Above (callsAfter G r) (b + 1) t ∧
        Above (pathAfter G r) (b + 1) t ∧
        (callsAfter G r t).length = (callsAfter G r b).length + 1 ∧
        ∃ calls, openCalls G (pathAfter G r t) = pathAfter G r (b + 1) :: calls

omit hG in
theorem realizable_of_closes {t : Nat} (h : ∀ i < t, ClosesInnermost G r i)
    {p : List E} (hp : p <:+ pathAfter G r t) : Realizable G p := by
  induction p with
  | nil => trivial
  | cons d q ih =>
      refine ⟨ih ((List.suffix_cons d q).trans hp), fun c hret => ?_⟩
      obtain ⟨x, hx, habove⟩ := exists_pushes_of_suffix hp
      obtain ⟨u, rem, rest, frames, hstack, hpass, _⟩ :=
        exists_tree_of_pushes_path hx
      obtain ⟨b, e, hb, _, _, _, calls, hopen⟩ :=
        h x habove.le u d rem rest c frames hstack hret hpass
      rw [hx.1, hb.pushes_path.2] at hopen
      exact ⟨e, _, calls, hopen, hb.kind⟩

omit hG in
/-- A call that is closed on the path has no frame any more. -/
theorem mem_openCalls_of_closes {t : Nat} (h : ∀ i < t, ClosesInnermost G r i)
    {b : Nat} {e : E} {c : V} (hb : Enters G r b e c)
    (hcalls : Above (callsAfter G r) (b + 1) t)
    (hpath : Above (pathAfter G r) (b + 1) t) :
    pathAfter G r (b + 1) ∈ openCalls G (pathAfter G r t) := by
  have hsuffix := hpath.suffix (isHistory_path r)
  rw [hb.pushes_path.2] at hsuffix ⊢
  rcases mem_openCalls_or_closed hb.kind hsuffix with
    hmem | ⟨d, p, c', rest, hd, hret, hopen⟩
  · exact hmem
  · obtain ⟨x, hx, habove⟩ := exists_pushes_of_suffix hd
    obtain ⟨u, rem, stack, frames, hstack, hpass, _⟩ :=
      exists_tree_of_pushes_path hx
    obtain ⟨b', e', hb', _, hpath', hlength, calls, hopen'⟩ :=
      h x habove.le u d rem stack c' frames hstack hret hpass
    rw [hx.1, hopen, List.cons_eq_cons, hb'.pushes_path.2,
      List.cons_eq_cons] at hopen'
    have hle := (suffix_of_mem_openCalls (hopen ▸ List.mem_cons_self)).length_le
    rw [List.length_cons] at hle
    have hbx : b < x := hb.pushes_path.lt_of_length_lt hx hpath habove hle
    have hbb' : b = b' := hb.pushes_path.unique hb'.pushes_path
      (hpath.mono hbx (Nat.le_of_lt habove.le)) hpath'
      (congrArg List.length hopen'.1.2)
    subst hbb'
    exact absurd hcalls (not_above_of_ret hb hstack hret hpass hlength
      (Nat.le_of_lt hbx) habove.le)

/-- The call of the top frame is the innermost one of the path when an edge
returns from it. -/
theorem closesInnermost (hr : r = entry (home r)) (t : Nat) :
    ClosesInnermost G r t := by
  induction t using Nat.strong_induction_on with
  | _ t ih =>
      intro u d rem rest c frames hstack hret hpass
      have hpass' := hpass
      rw [hret] at hpass'
      obtain ⟨b, e, hb, hcalls, hbelow⟩ :=
        exists_enters_of_callsAfter (callsAfter_eq_cons hpass')
      have hlength : (callsAfter G r t).length =
          (callsAfter G r b).length + 1 := by
        rw [callsAfter_eq_cons hpass', hbelow, List.length_cons]
      -- The frame goes with this step.
      have hpopped := not_above_of_ret hb hstack hret hpass hlength
        (Nat.le_of_lt hcalls.le) (Nat.lt_succ_self t)
      have hne : (after G r t).stack ≠ [] := by
        rw [hstack]
        exact List.cons_ne_nil _ _
      have hthread := threaded_after r hne
      rw [hstack] at hthread
      have hout := hthread.top.2.subset (List.mem_cons_self (a := d) (l := rem))
      -- The search is in the procedure of the innermost call of its path.
      have hhome : context G home r (pathAfter G r t) = callee c := by
        have htip : home (tip G r (pathAfter G r t)) =
            context G home r (pathAfter G r t) :=
          hG.home_tip (walk_after r t) (realizable_of_closes ih List.suffix_rfl)
        rw [← htip, ← (hG.ret u d hout c hret).2.1, hthread.top.1]
        rfl
      cases hopen : openCalls G (pathAfter G r t) with
      | nil =>
          by_cases hpath : Above (pathAfter G r) (b + 1) t
          · have hmem := mem_openCalls_of_closes ih hb hcalls hpath
            rw [hopen] at hmem
            exact absurd hmem List.not_mem_nil
          · obtain ⟨m, hmt, _, hend⟩ := hb.exists_finish hcalls hpath
            have hroot : G.target e = r := by
              simp only [context, hopen] at hhome
              rw [(hb.target_eq hG).1, ← hhome, ← hr]
            rw [hroot] at hend
            exact absurd (stack_after_eq_nil (by omega) hend) hne
      | cons q calls =>
          obtain ⟨hsuffix, e₀, p₀, c₀, rfl, hcall, _⟩ := openCalls_eq_cons hopen
          obtain ⟨a, ha, hpath₀⟩ := exists_pushes_of_suffix hsuffix
          obtain ⟨u₀, rem₀, rest₀, _, hstack₀, _, _⟩ := exists_tree_of_pushes_path ha
          have ha₀ := enters_of_call hstack₀ hcall
          have hcallee : callee c₀ = callee c := by
            simp only [context, hopen] at hhome
            rw [← hhome, (ha₀.target_eq hG).2]
          by_cases hpath : Above (pathAfter G r) (b + 1) t
          · have hmem := mem_openCalls_of_closes ih hb hcalls hpath
            rw [hopen] at hmem
            rcases List.mem_cons.mp hmem with heq | hmem
            · exact ⟨b, e, hb, hcalls, hpath, hlength, calls, by rw [heq]⟩
            · -- The call is open, but another one of the procedure inside of it.
              have hlt := length_lt_of_mem_tail hopen hmem
              rw [hb.pushes_path.2, List.length_cons, List.length_cons] at hlt
              have hba : b < a := hb.pushes_path.lt_of_length_lt ha hpath hpath₀
                (by omega)
              have hstuck := stuck hG (t := t + 1) hb ⟨e₀, c₀, ha₀, hcallee⟩ hba
                (hcalls.mono (by omega) hpath₀.le)
                (hpath.mono (by omega) hpath₀.le) (Nat.le_succ_of_le hcalls.le)
              exact absurd hstuck.1 hpopped
          · -- The frame has been left behind.
            by_cases hcalls₀ : Above (callsAfter G r) (a + 1) t
            · obtain ⟨m, hmt, _, hend⟩ := hb.exists_finish hcalls hpath
              have hab : a < b := by
                have hle := hcalls₀.length_le
                rw [ha₀.pushes_calls.2, List.length_cons, hlength] at hle
                rcases Nat.lt_trichotomy a b with hlt | rfl | hlt
                · exact hlt
                · exact absurd hpath₀ hpath
                · have hba := hcalls.2 a hlt (Nat.le_of_lt hcalls₀.le)
                  rw [hb.pushes_calls.2, List.length_cons] at hba
                  omega
              obtain ⟨n, rfl⟩ := Nat.exists_eq_add_of_le hcalls₀.le
              have htarget : G.target e = G.target e₀ := by
                rw [(hb.target_eq hG).1, (ha₀.target_eq hG).1, hcallee]
              rw [htarget] at hend
              exact absurd (stack_after_eq_nil (by omega) hend)
                (ha₀.onTop hcalls₀ hpath₀).ne_nil
            · exact (not_popped_and_left hG ha₀ hb hcallee.symm hcalls₀ hpath₀
                hcalls hpath).elim

/-- The path of the search is realizable at any time. -/
theorem realizable_after (hr : r = entry (home r)) (t : Nat) :
    Realizable G (after G r t).path :=
  realizable_of_closes (fun i _ => closesInnermost hG hr i) List.suffix_rfl

end

end CoFlo.Verified.ContextSearch
