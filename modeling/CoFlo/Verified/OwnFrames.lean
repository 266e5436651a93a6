import CoFlo.Verified.Activation

/-!
# Frames that follow the path

The frames of a search follow its path when they are the frames of the calls
that are open on it.  A step that takes an edge of the path off, or pops a
frame without going on, can part the two: the vertices on the stack that
belong to the frame which is missing then, or which is one too many, are
stranded (`stranded`), and an edge of theirs would be looked up in the frame of
another call.  As long as no edge is left in a stranded vertex every edge is
examined with the frames of its path (`Kept.followsPath`).
-/

namespace CoFlo.Verified.ContextSearch

variable {V E : Type*} [DecidableEq V] (G : Incidence V E)

omit [DecidableEq V] in
/-- The call which the last edge of a path opens. -/
def callOf : List E → Option V
  | [] => none
  | e :: _ =>
      match G.kind e with
      | .call c => some c
      | _ => none

/-- The frames are those of the open calls, above the one at the bottom. -/
def FollowsPath (s : State V E) : Prop :=
  calls s = (openCalls G s.path).map (callOf G) ++ [none]

/-- What has been put on the stack since the innermost open call was opened. -/
def innermostItems (stack : List (V × List E)) (path : List E) :
    List (V × List E) :=
  match openCalls G path with
  | [] => []
  | q :: _ => stack.take (path.length - q.length + 1)

/-- What the next step leaves on the stack without its frame on top: everything
when a procedure is left while its frame is there, and what belongs to the
innermost call when the search goes back over an edge that returns from it, or
takes such an edge to a vertex it has been to. -/
def stranded (s : State V E) : List (V × List E) :=
  match s.stack with
  | [] => []
  | (_, []) :: rest =>
      match s.path with
      | [] => []
      | e :: path =>
          match G.kind e with
          | .call c => if (calls s).head? = some (some c) then rest else []
          | .ret _ => innermostItems G rest path
          | _ => []
  | (u, e :: rem) :: rest =>
      match G.kind e with
      | .ret c =>
          if (framesFor s.frames (.ret c)).any (fun frames => !isWhite (G.target e) frames)
          then innermostItems G ((u, rem) :: rest) s.path
          else []
      | _ => []

/-- No edge is left to be examined. -/
def Exhausted (items : List (V × List E)) : Prop :=
  ∀ i ∈ items, i.2 = []

omit [DecidableEq V] in
theorem Exhausted.mono {items items' : List (V × List E)} (h : Exhausted items)
    (hsubset : items' ⊆ items) : Exhausted items' :=
  fun i hi => h i (hsubset hi)

instance [DecidableEq E] (items : List (V × List E)) : Decidable (Exhausted items) :=
  inferInstanceAs (Decidable (∀ i ∈ items, i.2 = []))

/-- The frames are missing of the innermost open calls `left` only, and nothing
is left to be examined inside of these; or nothing is left at all. -/
def Kept (s : State V E) : Prop :=
  Exhausted s.stack ∨ ∃ left right, openCalls G s.path = left ++ right ∧
    calls s = right.map (callOf G) ++ [none] ∧
      ∀ q ∈ left, Exhausted (s.stack.take (s.path.length - q.length + 1))

variable {G}

omit [DecidableEq V] in
/-- The frames of what remains to be examined. -/
theorem Kept.followsPath {s : State V E} (hs : Kept G s) {u : V} {e : E}
    {rem : List E} {rest : List (V × List E)}
    (hstack : s.stack = (u, e :: rem) :: rest) : FollowsPath G s := by
  rcases hs with hs | ⟨left, right, hopen, hcalls, hleft⟩
  · have htop := hs (u, e :: rem) (by rw [hstack]; exact List.mem_cons_self)
    exact absurd htop (List.cons_ne_nil _ _)
  · cases left with
    | nil =>
        unfold FollowsPath
        rw [hcalls, hopen, List.nil_append]
    | cons q left =>
        have htop := hleft q List.mem_cons_self (u, e :: rem) (by
          rw [hstack, List.take_succ_cons]
          exact List.mem_cons_self)
        exact absurd htop (List.cons_ne_nil _ _)

/-! ## One step -/

omit [DecidableEq V] in
/-- When the top vertex is finished the others are one further up. -/
theorem exhausted_take_of_tail {u : V} {rest : List (V × List E)} {n m : Nat}
    (h : Exhausted (((u, []) :: rest).take (n + 1))) (hm : m ≤ n) :
    Exhausted (rest.take m) := by
  refine h.mono fun i hi => ?_
  rw [List.take_succ_cons]
  exact List.mem_cons_of_mem _ ((List.take_subset_take_left rest hm) hi)

/-- The top vertex is finished. -/
theorem Kept.finish {r : V} {s : State V E} (hs : Kept G s)
    (haligned : Aligned G r s) {u : V} {rest : List (V × List E)}
    (hstack : s.stack = (u, []) :: rest) (hstranded : Exhausted (stranded G s)) :
    Kept G ⟨paint u .black s.frames, rest, s.path.tail⟩ := by
  have hcalls' : calls (⟨paint u .black s.frames, rest, s.path.tail⟩ : State V E) =
      calls s := calls_paint _ _ _
  rcases hs with hs | ⟨left, right, hopen, hcalls, hleft⟩
  · left
    rw [hstack] at hs
    exact hs.mono (List.subset_cons_self _ _)
  · rw [hstack] at hleft
    cases hpath : s.path with
    | nil =>
        -- The search ends.
        left
        rcases haligned with ⟨hnil, -⟩ | hthread
        · rw [hstack] at hnil
          exact absurd hnil (List.cons_ne_nil _ _)
        · have hlength := hthread.length_eq
          rw [hstack, hpath, List.length_cons, List.length_nil] at hlength
          have hrest : rest = [] := List.eq_nil_of_length_eq_zero (by omega)
          rw [hrest]
          exact fun i hi => absurd hi List.not_mem_nil
    | cons e path =>
        rw [hpath] at hopen hleft
        simp only [stranded, hstack, hpath] at hstranded
        -- What is left of a call that stays open.
        have hkeep : ∀ q ∈ left, q ∈ openCalls G path →
            Exhausted (rest.take (path.length - q.length + 1)) := by
          intro q hq hmem
          have hle := (suffix_of_mem_openCalls hmem).length_le
          refine exhausted_take_of_tail (hleft q hq) ?_
          rw [List.length_cons]
          omega
        cases he : G.kind e with
        | call c =>
            rw [openCalls_call he] at hopen
            rw [he] at hstranded
            cases left with
            | nil =>
                -- Its frame is on top.
                left
                have htop : (calls s).head? = some (some c) := by
                  rw [hcalls, ← List.nil_append right, ← hopen]
                  simp [callOf, he]
                simpa only [htop, if_true] using hstranded
            | cons q left =>
                rw [List.cons_append, List.cons_eq_cons] at hopen
                refine .inr ⟨left, right, hopen.2, hcalls'.trans hcalls, fun q' hq' =>
                  hkeep q' (List.mem_cons_of_mem _ hq') ?_⟩
                rw [hopen.2]
                exact List.mem_append_left _ hq'
        | ret c =>
            rw [openCalls_ret he] at hopen
            simp only [he] at hstranded
            cases hopen' : openCalls G path with
            | nil =>
                rw [hopen', List.tail_nil] at hopen
                obtain ⟨hnil, hnil'⟩ := List.append_eq_nil_iff.mp hopen.symm
                rw [hnil'] at hcalls
                exact .inr ⟨[], [], hopen', hcalls'.trans hcalls,
                  fun q hq => absurd hq List.not_mem_nil⟩
            | cons q calls =>
                rw [hopen', List.tail_cons] at hopen
                simp only [innermostItems, hopen'] at hstranded
                refine .inr ⟨q :: left, right, hopen'.trans (by rw [hopen, List.cons_append]),
                  hcalls'.trans hcalls, fun q' hq' => ?_⟩
                rcases List.mem_cons.mp hq' with rfl | hq'
                · exact hstranded
                · refine hkeep q' hq' ?_
                  rw [hopen', hopen]
                  exact List.mem_cons_of_mem _ (List.mem_append_left _ hq')
        | closed | plain =>
            rw [openCalls_other (by simp [he]) (by simp [he])] at hopen
            refine .inr ⟨left, right, hopen, hcalls'.trans hcalls, fun q hq =>
              hkeep q hq ?_⟩
            rw [hopen]
            exact List.mem_append_left _ hq

/-- What the frames are when an edge is let through. -/
theorem FollowsPath.framesFor {s : State V E} (hs : FollowsPath G s) {e : E}
    {frames : List (Frame V)} (hpass : framesFor s.frames (G.kind e) = some frames) :
    frames.map Frame.call =
      (openCalls G (e :: s.path)).map (callOf G) ++ [none] := by
  unfold FollowsPath at hs
  rw [calls_framesFor hpass]
  unfold calls at hs
  rw [hs]
  cases he : G.kind e with
  | call c =>
      rw [openCalls_call he]
      simp [Kind.onCalls, callOf, he]
  | ret c =>
      rw [openCalls_ret he]
      cases hopen : openCalls G s.path with
      | nil =>
          -- The frame at the bottom has no call.
          rw [hopen] at hs
          rw [he] at hpass
          cases hframes : s.frames with
          | nil =>
              rw [hframes] at hs
              exact absurd hs (by simp)
          | cons f fs =>
              rw [hframes] at hs hpass
              simp only [ContextSearch.framesFor, Option.ite_none_right_eq_some] at hpass
              simp [hpass.1] at hs
      | cons q calls => simp [Kind.onCalls]
  | closed | plain =>
      rw [openCalls_other (by simp [he]) (by simp [he])]
      rfl

omit [DecidableEq V] in
/-- An edge has been examined and does not lead on. -/
theorem Kept.advance {s : State V E} {u : V} {rem : List E}
    {rest : List (V × List E)} {frames : List (Frame V)}
    (h : frames.map Frame.call = (openCalls G s.path).map (callOf G) ++ [none]) :
    Kept G ⟨frames, (u, rem) :: rest, s.path⟩ :=
  .inr ⟨[], openCalls G s.path, rfl, h, fun _ hq => absurd hq List.not_mem_nil⟩

/-- A step that strands no edge. -/
theorem Kept.step {r : V} {s t : State V E} (hs : Kept G s)
    (haligned : Aligned G r s) (hstranded : Exhausted (stranded G s))
    (h : Step G s t) : Kept G t := by
  cases h with
  | finish hstack => exact hs.finish haligned hstack hstranded
  | skip hstack hpass => exact .advance (hs.followsPath hstack)
  | @tree u e rem rest frames hstack hpass hwhite =>
      refine .inr ⟨[], openCalls G (e :: s.path), rfl, ?_,
        fun q hq => absurd hq List.not_mem_nil⟩
      exact (calls_paint _ _ _).trans ((hs.followsPath hstack).framesFor hpass)
  | @cross u e rem rest frames hstack hpass hwhite =>
      have hcalls := (hs.followsPath hstack).framesFor hpass
      cases he : G.kind e with
      | closed =>
          rw [he] at hpass
          exact absurd hpass (by simp [ContextSearch.framesFor])
      | plain =>
          rw [openCalls_other (by simp [he]) (by simp [he])] at hcalls
          exact .advance hcalls
      | call c =>
          -- The vertex is white in the new frame.
          rw [he] at hpass
          rw [← Option.some.inj hpass] at hwhite
          exact absurd hwhite (by simp [isWhite])
      | ret c =>
          rw [openCalls_ret he] at hcalls
          rw [he] at hpass
          simp only [stranded, hstack, he, hpass, hwhite, Option.any_some, Bool.not_false,
            if_true, innermostItems] at hstranded
          cases hopen : openCalls G s.path with
          | nil =>
              rw [hopen] at hcalls
              exact .inr ⟨[], [], hopen, hcalls, fun q hq => absurd hq List.not_mem_nil⟩
          | cons q calls =>
              rw [hopen] at hcalls hstranded
              refine .inr ⟨[q], calls, hopen, hcalls, fun q' hq' => ?_⟩
              rw [List.mem_singleton.mp hq']
              exact hstranded

end CoFlo.Verified.ContextSearch
