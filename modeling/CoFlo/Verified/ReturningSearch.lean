import CoFlo.Verified.FrameWork
import CoFlo.Verified.RealizableSearch

/-!
# Searches that come to an end

A search with a call stack need not end: a frame that is left behind when a
procedure never returns knows nothing of the vertices of its caller, and
recursion pushes frames without end.  It does end when there is no recursion
and every procedure that is called can come to its exit (`exists_end`).

The two facts depend on each other.  As long as the procedures called return,
no frame is left behind, so the top frame is that of a call on the path
(`top_call`), and the vertices discovered in it are in procedures below the
called one; the costs of `FrameWork` then bound the search.  And a search that
ends has followed every plain edge of its own procedure, so it has come to the
exit with its own frame on top (`comes_of_reaches`), from where it returns.
The induction is on the level of the procedures (`Layered.returning`).
-/

namespace CoFlo.Verified.ContextSearch

open CoFlo.Verified.StepMachine CoFlo.Verified.StackHistory Relation
open CoFlo.Verified.DepthFirstSearch (Color)

variable {V E P : Type*} [DecidableEq V] {G : Incidence V E} {home : V → P}
  {entry exit : P → V} {callee : V → P}

/-- The search from the entry of a procedure comes to its exit with its own
frame. -/
def Returning (G : Incidence V E) (entry exit : P → V) (g : P) : Prop :=
  ∃ n, Scans G (entry g) (exit g) n

/-- Along an edge that stays in its procedure. -/
def PlainStep (G : Incidence V E) (u v : V) : Prop :=
  ∃ e ∈ G.out u, G.kind e = .plain ∧ G.target e = v

/-- The vertices `I` have what they lead to among them, and their calls go down
in `level`. -/
structure Layered (G : Incidence V E) (home : V → P) (callee : V → P)
    (I : V → Prop) (level : P → Nat) : Prop where
  plain : ∀ u, ∀ e ∈ G.out u, G.kind e = .plain → I u → I (G.target e)
  call : ∀ u, ∀ e ∈ G.out u, ∀ c, G.kind e = .call c → I u → I (G.target e)
  ret : ∀ u, ∀ e ∈ G.out u, ∀ c, G.kind e = .ret c → I c → I (G.target e)
  lower : ∀ u, ∀ e ∈ G.out u, ∀ c, G.kind e = .call c → I u →
    level (callee c) < level (home u)

/-- The level of the procedure a frame was pushed for. -/
def frameLevel (home callee : V → P) (level : P → Nat) (r : V) :
    Option V → Nat
  | none => level (home r)
  | some c => level (callee c)

/-! ## The bottom frame -/

theorem getLast?_framesFor {k : Kind V} {frames frames' : List (Frame V)}
    (hgrounded : Grounded frames) (hpass : framesFor frames k = some frames') :
    frames'.getLast? = frames.getLast? := by
  cases frames with
  | nil => exact absurd hgrounded (by simp [Grounded])
  | cons f frames =>
      cases k with
      | closed => exact absurd hpass (by simp [framesFor])
      | plain => rw [← Option.some.inj hpass]
      | call c =>
          rw [← Option.some.inj hpass]
          rfl
      | ret c =>
          simp only [framesFor, Option.ite_none_right_eq_some,
            Option.some.injEq] at hpass
          obtain ⟨hcall, rfl⟩ := hpass
          cases frames with
          | nil =>
              rw [hgrounded.call_eq_none] at hcall
              exact absurd hcall (by simp)
          | cons g frames => rfl

theorem getLast?_paint {v : V} {k : Color} {frames : List (Frame V)}
    (hlength : frames.length ≠ 1) :
    (paint v k frames).getLast? = frames.getLast? := by
  cases frames with
  | nil => rfl
  | cons f frames =>
      cases frames with
      | nil => exact absurd rfl hlength
      | cons g frames => rfl

/-- Only the frame at the bottom has no call. -/
theorem eq_nil_of_callsAfter {r : V} {n : Nat} {p : List (Option V)}
    (h : callsAfter G r n = none :: p) : p = [] := by
  by_contra hp
  have hstart : ¬ none :: p <:+ callsAfter G r 0 := by
    intro hsuffix
    have hlength := hsuffix.length_le
    have hpos := List.length_pos_iff.mpr hp
    have hzero : callsAfter G r 0 = [none] := rfl
    rw [hzero, List.length_singleton, List.length_cons] at hlength
    omega
  obtain ⟨b, hb, _⟩ := exists_pushes (t := n) (isHistory_calls r) hstart (by rw [h])
  obtain ⟨e, c, hc, _⟩ := exists_enters_of_pushes_calls hb
  exact absurd hc (by simp)

/-! ## What is on the stack -/

/-- The vertex on top got there with all its edges. -/
theorem exists_discovery {r u : V} {n : Nat} {rem : List E}
    {rest : List (V × List E)} (hstack : (after G r n).stack = (u, rem) :: rest) :
    ∃ m ≤ n, (after G r m).path = (after G r n).path ∧
      ∃ rest', (after G r m).stack = (u, G.out u) :: rest' := by
  have hthread := threaded_after r (n := n) (by rw [hstack]; simp)
  rw [hstack] at hthread
  have htip := hthread.top.1
  cases hpath : (after G r n).path with
  | nil =>
      rw [hpath] at htip
      refine ⟨0, Nat.zero_le n, rfl, [], ?_⟩
      rw [htip]
      rfl
  | cons e q =>
      rw [hpath] at htip
      have hsuffix : e :: q <:+ pathAfter G r n := by
        show e :: q <:+ (after G r n).path
        rw [hpath]
      obtain ⟨x, hx, habove⟩ := exists_pushes_of_suffix hsuffix
      obtain ⟨v, rem', rest', _, _, _, hnext⟩ := exists_tree_of_pushes_path hx
      refine ⟨x + 1, habove.le, hx.2, (v, rem') :: rest', ?_⟩
      rw [hnext, htip]
      rfl

/-- The vertex `u`, come to by `path`, is on the stack with the edge `e` left. -/
def Waits (u : V) (e : E) (path : List E) (rest : List (V × List E))
    (s : State V E) : Prop :=
  ∃ above steps rem, s.stack = above ++ (u, rem) :: rest ∧ e ∈ rem ∧
    s.path = steps ++ path ∧ above.length = steps.length

/-- An edge is left until it is examined. -/
theorem Waits.preserved {u : V} {e : E} {path : List E}
    {rest : List (V × List E)} {s t : State V E} (hs : Waits u e path rest s)
    (h : Step G s t) (hnot : ∀ rem, s.path = path → s.stack ≠ (u, e :: rem) :: rest) :
    Waits u e path rest t := by
  obtain ⟨above, steps, rem, hstack, hmem, hpath, hlength⟩ := hs
  cases above with
  | nil =>
      obtain rfl : steps = [] := List.eq_nil_of_length_eq_zero hlength.symm
      rw [List.nil_append] at hstack hpath
      have hnext : ∀ {w : V} {d : E} {rem' : List E} {rest' : List (V × List E)},
          s.stack = (w, d :: rem') :: rest' →
            (w, rem') :: rest' = (u, rem') :: rest ∧ e ∈ rem' := by
        intro w d rem' rest' htop
        rw [hstack, List.cons_eq_cons, Prod.mk.injEq] at htop
        obtain ⟨⟨rfl, rfl⟩, rfl⟩ := htop
        refine ⟨rfl, (List.mem_cons.mp hmem).resolve_left ?_⟩
        rintro rfl
        exact hnot rem' hpath hstack
      cases h with
      | @finish w rest' htop =>
          rw [hstack, List.cons_eq_cons, Prod.mk.injEq] at htop
          rw [htop.1.2] at hmem
          exact absurd hmem List.not_mem_nil
      | @skip w d rem' rest' htop _ =>
          exact ⟨[], [], rem', (hnext htop).1, (hnext htop).2, hpath, rfl⟩
      | @cross w d rem' rest' _ htop _ _ =>
          exact ⟨[], [], rem', (hnext htop).1, (hnext htop).2, hpath, rfl⟩
      | @tree w d rem' rest' _ htop _ _ =>
          exact ⟨[(G.target d, G.out (G.target d))], [d], rem',
            congrArg _ (hnext htop).1, (hnext htop).2, congrArg _ hpath, rfl⟩
  | cons item above =>
      cases steps with
      | nil => exact absurd hlength (Nat.succ_ne_zero _)
      | cons d steps =>
          have hlength' : above.length = steps.length := Nat.succ.inj hlength
          have htail : ∀ {w : V} {rem' : List E} {rest' : List (V × List E)},
              s.stack = (w, rem') :: rest' → rest' = above ++ (u, rem) :: rest := by
            intro w rem' rest' htop
            rw [hstack, List.cons_append, List.cons_eq_cons] at htop
            exact htop.2.symm
          cases h with
          | @finish w rest' htop =>
              exact ⟨above, steps, rem, htail htop, hmem, congrArg List.tail hpath,
                hlength'⟩
          | @skip w d' rem' rest' htop _ =>
              exact ⟨(w, rem') :: above, d :: steps, rem, congrArg _ (htail htop),
                hmem, hpath, hlength⟩
          | @cross w d' rem' rest' _ htop _ _ =>
              exact ⟨(w, rem') :: above, d :: steps, rem, congrArg _ (htail htop),
                hmem, hpath, hlength⟩
          | @tree w d' rem' rest' _ htop _ _ =>
              exact ⟨(G.target d', G.out (G.target d')) :: (w, rem') :: above,
                d' :: d :: steps, rem, congrArg (_ :: _ :: ·) (htail htop), hmem,
                congrArg _ hpath, congrArg Nat.succ hlength⟩

/-- Every edge of a vertex on top is examined before the search ends. -/
theorem exists_examined {r u : V} {n N : Nat} {rem : List E}
    {rest : List (V × List E)} (hstack : (after G r n).stack = (u, rem) :: rest)
    (hend : (after G r N).stack = []) {e : E} (he : e ∈ rem) :
    ∃ m rem', (after G r m).path = (after G r n).path ∧
      (after G r m).stack = (u, e :: rem') :: rest := by
  by_contra hnever
  have hwaits : ∀ k, Waits u e (after G r n).path rest (after G r (n + k)) := by
    intro k
    induction k with
    | zero => exact ⟨[], [], rem, hstack, he, rfl, rfl⟩
    | succ k ih =>
        have hstep : Step G (after G r (n + k)) (after G r (n + k + 1)) := by
          refine (after_succ r (n + k)).resolve_right fun hnil => ?_
          obtain ⟨above, _, _, hold, -⟩ := ih
          rw [hnil.1] at hold
          exact absurd hold.symm (by simp)
        exact ih.preserved hstep fun rem' hpath htop =>
          hnever ⟨n + k, rem', hpath, htop⟩
  obtain ⟨above, _, _, hlate, -⟩ := hwaits N
  rw [stack_after_eq_nil (Nat.le_add_left N n) hend] at hlate
  exact absurd hlate.symm (by simp)

/-! ## While what is called returns -/

section returning

variable (hG : Procedures G home entry exit callee) {r : V}

include hG

/-- The frame of a call that returns is not left behind. -/
theorem Enters.above_path {a t : Nat} {e : E} {c : V} (ha : Enters G r a e c)
    (hreturning : Returning G entry exit (callee c))
    (hcalls : Above (callsAfter G r) (a + 1) t) :
    Above (pathAfter G r) (a + 1) t := by
  by_contra hpath
  obtain ⟨m, hmt, hon, hend⟩ := ha.exists_finish hcalls hpath
  obtain ⟨n, hscans⟩ := hreturning
  rw [← (ha.target_eq hG).1] at hscans
  have hnm : n ≤ m := by
    by_contra hlt
    obtain ⟨rest, hstack⟩ := hscans.stack
    rw [stack_after_eq_nil (show m + 1 ≤ n by omega) hend] at hstack
    exact absurd hstack.symm (List.cons_ne_nil _ _)
  -- The frame is popped before the procedure has been gone through.
  obtain ⟨k, hk, hpop⟩ := ha.popped_of_scans hG (hon n hnm) hscans
  have hkm : n + k ≤ m := by
    by_contra hlt
    have hnil := stack_after_eq_nil (show m + 1 ≤ n + k by omega) hend
    exact (hk k (Nat.le_refl k)).1.ne_nil hnil
  have habove := hcalls.2 (a + 1 + (n + (k + 1))) (by omega) (by omega)
  rw [hpop, ha.pushes_calls.2, List.length_cons] at habove
  exact Nat.not_succ_le_self _ habove

variable (hreturning : ∀ a e c, Enters G r a e c → Returning G entry exit (callee c))

include hreturning

/-- The top frame is that of a call on the path, and the search is one of the
called procedure that still has its first frame. -/
theorem top_call {t : Nat} {c : V} {p : List (Option V)}
    (h : callsAfter G r t = some c :: p) :
    ∃ a e m, t = a + 1 + m ∧ Enters G r a e c ∧ OnTop G r a e c m ∧
      Above (callsAfter G r) (a + 1) t ∧ Above (pathAfter G r) (a + 1) t := by
  obtain ⟨a, e, ha, hcalls, _⟩ := exists_enters_of_callsAfter h
  have hpath := ha.above_path hG (hreturning a e c ha) hcalls
  obtain ⟨m, rfl⟩ := Nat.exists_eq_add_of_le hcalls.le
  exact ⟨a, e, m, rfl, ha, ha.onTop hcalls hpath, hcalls, hpath⟩

/-- Without an open call only the frame at the bottom is there. -/
theorem length_frames_of_openCalls (hr : r = entry (home r)) {n : Nat}
    (hopen : openCalls G (after G r n).path = []) :
    (after G r n).frames.length = 1 := by
  have hlength : (callsAfter G r n).length = (after G r n).frames.length :=
    List.length_map _
  rw [← hlength]
  cases hcalls : callsAfter G r n with
  | nil =>
      rw [hcalls] at hlength
      have hnil := List.eq_nil_of_length_eq_zero hlength.symm
      exact absurd hnil (grounded_after r n).ne_nil
  | cons top p =>
      cases top with
      | none =>
          rw [eq_nil_of_callsAfter hcalls]
          rfl
      | some c =>
          obtain ⟨a, e, m, rfl, ha, _, habove, hpath⟩ := top_call hG hreturning hcalls
          have hmem := mem_openCalls_of_closes
            (fun i _ => closesInnermost hG hr i) ha habove hpath
          rw [pathAfter, pathAfter, hopen] at hmem
          exact absurd hmem List.not_mem_nil

end returning

/-! ## Levels -/

section layered

variable {I : V → Prop} {level : P → Nat} (hL : Layered G home callee I level)
  (hG : Procedures G home entry exit callee) {r : V}

omit [DecidableEq V] in
theorem tip_append (e : E) (p q : List E) :
    tip G r (p ++ e :: q) = tip G (G.target e) p := by
  cases p <;> rfl

include hL hG

omit [DecidableEq V] in
/-- Each call that is open on a path takes it down a level. -/
theorem Layered.walk (hI : I r) {path : List E} (hwalk : Walk G r path)
    (hreal : Realizable G path) :
    I (tip G r path) ∧
      (openCalls G path).length + level (home (tip G r path)) ≤ level (home r) := by
  refine hG.walk_induction
    (C := fun p => I (tip G r p) ∧
      (openCalls G p).length + level (home (tip G r p)) ≤ level (home r))
    ⟨hI, by simp [openCalls, tip]⟩ (fun p e he hkind hp => ?_)
    (fun p e he c hkind hp => ?_) (fun p e he c hkind q rest hrest hopen htip hq => ?_)
    hwalk hreal
  · refine ⟨hL.plain _ e he hkind hp.1, ?_⟩
    rw [openCalls_other (by simp [hkind]) (by simp [hkind])]
    show _ + level (home (G.target e)) ≤ _
    rw [hG.plain _ e he hkind]
    exact hp.2
  · refine ⟨hL.call _ e he c hkind hp.1, ?_⟩
    have hlower := hL.lower _ e he c hkind hp.1
    have hlevel := hp.2
    rw [openCalls_call hkind, List.length_cons]
    show _ + level (home (G.target e)) ≤ _
    rw [(hG.call _ e he c hkind).2.2]
    omega
  · refine ⟨hL.ret _ e he c hkind (htip ▸ hq.1), ?_⟩
    have hlevel := hq.2
    rw [openCalls_ret hkind, hrest, ← hopen]
    show _ + level (home (G.target e)) ≤ _
    rw [(hG.ret _ e he c hkind).2.2, ← htip]
    exact hlevel

variable (hI : I r) (hr : r = entry (home r))

include hI hr

theorem Layered.tip_after (n : Nat) :
    I (tip G r (after G r n).path) ∧ (openCalls G (after G r n).path).length +
      level (home (tip G r (after G r n).path)) ≤ level (home r) :=
  hL.walk hG hI (walk_after r n) (realizable_after hG hr n)

/-- In its own procedure the path has no open call. -/
theorem Layered.openCalls_eq_nil {n : Nat}
    (hhome : home (tip G r (after G r n).path) = home r) :
    openCalls G (after G r n).path = [] := by
  have hlevel := (hL.tip_after hG hI hr n).2
  rw [hhome] at hlevel
  exact List.eq_nil_of_length_eq_zero (by omega)

variable (hreturning : ∀ a e c, Enters G r a e c → Returning G entry exit (callee c))

include hreturning

/-- What is discovered is not above the procedure of the top frame. -/
theorem Layered.level_le {n : Nat} {f : Frame V} {frames : List (Frame V)}
    (hframes : (after G r n).frames = f :: frames) :
    level (home (tip G r (after G r n).path)) ≤
      frameLevel home callee level r f.call := by
  have hcalls : callsAfter G r n = f.call :: frames.map Frame.call := by
    rw [callsAfter, calls, hframes, List.map_cons]
  cases hcall : f.call with
  | none =>
      have hlevel := (hL.tip_after hG hI hr n).2
      show _ ≤ level (home r)
      omega
  | some c =>
      rw [hcall] at hcalls
      obtain ⟨a, e, m, rfl, ha, hon, -⟩ := top_call hG hreturning hcalls
      have hcaller := (hL.tip_after hG hI hr a).1
      obtain ⟨htarget, hhome⟩ := ha.target_eq hG
      have hcallee := hL.tip_after hG (r := G.target e)
        (hL.call _ e ha.mem_out c ha.kind hcaller) (by rw [hhome, htarget]) m
      have hpath : (after G r (a + 1 + m)).path =
          (after G (G.target e) m).path ++ e :: (after G r a).path := by
        have heq := hon.path_eq
        rw [ha.pushes_path.2] at heq
        exact heq
      rw [hpath, tip_append]
      show _ ≤ level (callee c)
      rw [← hhome]
      omega

/-- So the search ends. -/
theorem Layered.exists_end {M : Finset V} (hM : ∀ u, ∀ e ∈ G.out u, G.target e ∈ M)
    {degree : Nat} (hdegree : ∀ v, (G.out v).length ≤ degree) :
    ∃ n, (after G r n).stack = [] := by
  have hends : Terminates (step G) (init G r) := by
    refine terminates_of_measure (P := fun s => ∃ n, after G r n = s)
      (cost G (frameLevel home callee level r) M degree) ?_ ⟨0, rfl⟩
    rintro s t ⟨n, rfl⟩ hst
    refine ⟨⟨n + 1, trajectory_succ hst⟩, (Step.of_step hst).cost_lt hdegree ?_⟩
    intro u e rem rest f frames hstack hpass hcolor
    have hnext := after_succ_of_step r (.tree hstack hpass (by simp [isWhite, hcolor]))
    have hthread := threaded_after r (n := n) (by rw [hstack]; simp)
    rw [hstack] at hthread
    have hout := hthread.top.2.subset (List.mem_cons_self (a := e) (l := rem))
    refine ⟨hM u e hout, fun d hd c hkind => ?_⟩
    have hin := (hL.tip_after hG hI hr (n + 1)).1
    have hle := hL.level_le hG hI hr hreturning (n := n + 1)
      (congrArg State.frames hnext)
    rw [hnext] at hin hle
    exact Nat.lt_of_lt_of_le (hL.lower _ d hd c hkind hin) hle
  obtain ⟨t, ht, hend⟩ := hends
  obtain ⟨n, rfl⟩ := ht.exists_trajectory
  exact ⟨n, step_eq_none.mp hend⟩

/-! ## Coming to the exit -/

omit hI hr hreturning hL hG in
/-- The search discovers `v` without an open call. -/
def Discovers (G : Incidence V E) (r v : V) (n : Nat) : Prop :=
  (∃ rest, (after G r n).stack = (v, G.out v) :: rest) ∧
    openCalls G (after G r n).path = []

omit hI hL in
theorem Discovers.scans {v : V} {n : Nat} (h : Discovers G r v n) :
    Scans G r v n :=
  ⟨length_frames_of_openCalls hG hreturning hr h.2, h.1⟩

omit hreturning in
/-- What the frame at the bottom knows of its own procedure has been discovered
without an open call. -/
theorem Layered.discovers_of_bottom (n : Nat) {v : V} (hhome : home v = home r)
    (hbottom : ∃ f ∈ (after G r n).frames.getLast?, f.color v ≠ .white) :
    ∃ m, Discovers G r v m := by
  induction n with
  | zero =>
      obtain ⟨f, hf, hcolor⟩ := hbottom
      obtain rfl := Option.some.inj hf
      by_cases hv : v = r
      · exact ⟨0, ⟨[], by rw [hv]; rfl⟩, rfl⟩
      · refine absurd ?_ hcolor
        show Function.update (fun _ => Color.white) r .gray v = .white
        exact Function.update_of_ne hv _ _
  | succ n ih =>
      rcases after_succ (G := G) r n with hstep | ⟨_, hsame⟩
      · generalize ht : after G r (n + 1) = t at hstep hbottom
        have hlast : ∀ {frames : List (Frame V)} {w : V} {k : Color},
            (∃ f ∈ (paint w k frames).getLast?, f.color v ≠ .white) →
              frames.getLast? = (after G r n).frames.getLast? →
                (frames.length = 1 ∧ v = w) ∨
                  ∃ f ∈ (after G r n).frames.getLast?, f.color v ≠ .white := by
          intro frames w k hpainted hframes
          by_cases hlength : frames.length = 1
          · obtain ⟨f, rfl⟩ := List.length_eq_one_iff.mp hlength
            by_cases hv : v = w
            · exact .inl ⟨hlength, hv⟩
            · obtain ⟨f', hf', hcolor⟩ := hpainted
              obtain rfl := Option.some.inj hf'
              refine .inr ⟨f, by rw [← hframes]; rfl, ?_⟩
              simpa [hv] using hcolor
          · rw [getLast?_paint hlength, hframes] at hpainted
            exact .inr hpainted
        cases hstep with
        | @finish u rest hstack =>
            rcases hlast hbottom rfl with ⟨_, rfl⟩ | hold
            · have hthread := threaded_after r (n := n) (by rw [hstack]; simp)
              rw [hstack] at hthread
              have hopen := hL.openCalls_eq_nil hG hI hr
                (show home (tip G r (after G r n).path) = home r by
                  rw [← hthread.top.1, hhome])
              obtain ⟨m, _, hpath, hdiscovery⟩ := exists_discovery hstack
              exact ⟨m, hdiscovery, by rw [hpath, hopen]⟩
            · exact ih hold
        | skip _ _ => exact ih hbottom
        | @cross u e rem rest frames hstack hpass _ =>
            have hframes := getLast?_framesFor (grounded_after r n) hpass
            obtain ⟨f, hf, hcolor⟩ := hbottom
            exact ih ⟨f, hframes ▸ hf, hcolor⟩
        | @tree u e rem rest frames hstack hpass hwhite =>
            have hframes := getLast?_framesFor (grounded_after r n) hpass
            rcases hlast hbottom hframes with ⟨_, rfl⟩ | hold
            · refine ⟨n + 1, ⟨(u, rem) :: rest, by rw [ht]⟩, ?_⟩
              refine hL.openCalls_eq_nil hG hI hr ?_
              rw [ht]
              exact hhome
            · exact ih hold
      · rw [show after G r (n + 1) = after G r n from hsame] at hbottom
        exact ih hbottom

/-- A search that ends has come along all plain edges from its start. -/
theorem Layered.discovers_of_reaches {N : Nat} (hend : (after G r N).stack = [])
    {v : V} (hv : ReflTransGen (PlainStep G) r v) :
    home v = home r ∧ ∃ m, Discovers G r v m := by
  induction hv with
  | refl => exact ⟨rfl, 0, ⟨[], rfl⟩, rfl⟩
  | @tail u w _ hstep ih =>
      obtain ⟨e, he, hkind, rfl⟩ := hstep
      obtain ⟨hhome, m, ⟨rest, hstack⟩, hopen⟩ := ih
      have hhome' : home (G.target e) = home r := by rw [hG.plain u e he hkind, hhome]
      refine ⟨hhome', ?_⟩
      -- The edge is examined with the frame at the bottom on top.
      obtain ⟨k, rem, hpath, hstack'⟩ := exists_examined hstack hend he
      have hopen' : openCalls G (after G r k).path = [] := by rw [hpath, hopen]
      have hlength := length_frames_of_openCalls hG hreturning hr hopen'
      obtain ⟨f, hf⟩ := List.length_eq_one_iff.mp hlength
      have hpass : framesFor (after G r k).frames (G.kind e) = some [f] := by
        rw [hkind, hf]
        rfl
      by_cases hcolor : f.color (G.target e) = .white
      · have hnext := after_succ_of_step r
          (.tree hstack' hpass (by simp [isWhite, hcolor]))
        refine ⟨k + 1, ⟨_, by rw [hnext]⟩, ?_⟩
        rw [hnext]
        show openCalls G (e :: (after G r k).path) = []
        rw [openCalls_other (by simp [hkind]) (by simp [hkind]), hopen']
      · exact hL.discovers_of_bottom hG hI hr k hhome' ⟨f, by rw [hf]; rfl, hcolor⟩

end layered

section ends

variable {I : V → Prop} {level : P → Nat} (hL : Layered G home callee I level)
  (hG : Procedures G home entry exit callee) {M : Finset V}
  (hM : ∀ u, ∀ e ∈ G.out u, G.target e ∈ M) {degree : Nat}
  (hdegree : ∀ v, (G.out v).length ≤ degree)
  (hexits : ∀ u, ∀ e ∈ G.out u, ∀ c, G.kind e = .call c → I u →
    ReflTransGen (PlainStep G) (entry (callee c)) (exit (callee c)))

include hL hG hM hdegree hexits

/-- What is called returns. -/
theorem Layered.returning {u : V} {e : E} (he : e ∈ G.out u) {c : V}
    (hkind : G.kind e = .call c) (hu : I u) :
    Returning G entry exit (callee c) := by
  induction hl : level (callee c) using Nat.strong_induction_on
    generalizing u e c with
  | _ l ih =>
      obtain ⟨-, htarget, hhome⟩ := hG.call u e he c hkind
      have hI : I (entry (callee c)) := htarget ▸ hL.call u e he c hkind hu
      rw [htarget] at hhome
      have hr : entry (callee c) = entry (home (entry (callee c))) := by rw [hhome]
      have hreturning : ∀ a d c', Enters G (entry (callee c)) a d c' →
          Returning G entry exit (callee c') := by
        intro a d c' ha
        obtain ⟨hin, hlevel⟩ := hL.tip_after hG hI hr a
        have hlower := hL.lower _ d ha.mem_out c' ha.kind hin
        rw [hhome] at hlevel
        exact ih (level (callee c')) (by omega) ha.mem_out ha.kind hin rfl
      obtain ⟨N, hend⟩ := hL.exists_end hG hI hr hreturning hM hdegree
      obtain ⟨-, m, hm⟩ := hL.discovers_of_reaches hG hI hr hreturning hend
        (hexits u e he c hkind hu)
      exact ⟨m, hm.scans hG hr hreturning⟩

/-- Without recursion, and when every procedure that is called can come to its
exit, the search ends. -/
theorem Layered.ends {r : V} (hI : I r) (hr : r = entry (home r)) :
    ∃ n, (after G r n).stack = [] := by
  refine hL.exists_end hG hI hr (fun a e c ha => ?_) hM hdegree
  exact hL.returning hG hM hdegree hexits ha.mem_out ha.kind
    (hL.tip_after hG hI hr a).1

end ends

end CoFlo.Verified.ContextSearch
