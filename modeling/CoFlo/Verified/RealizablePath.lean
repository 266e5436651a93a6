import CoFlo.Verified.ContextSearch

/-!
# Realizable paths

A path through several procedures is read as a word of brackets: an edge of
the kind `call` opens a call and one of the kind `ret` closes the call that
was opened last.  A path is realizable when each `ret` closes the call it
returns from.  The vertex such a path has come to is in the procedure of the
innermost call that is still open (`Procedures.home_tip`).
-/

namespace CoFlo.Verified.ContextSearch

variable {V E : Type*} (G : Incidence V E)

/-- The calls still open on a path, innermost first.  A call is given by the
path up to the edge that opened it. -/
def openCalls : List E → List (List E)
  | [] => []
  | e :: path =>
      match G.kind e with
      | .call _ => (e :: path) :: openCalls path
      | .ret _ => (openCalls path).tail
      | _ => openCalls path

/-- Every edge that returns closes the call it returns from. -/
def Realizable : List E → Prop
  | [] => True
  | e :: path => Realizable path ∧ ∀ c, G.kind e = .ret c →
      ∃ d q rest, openCalls G path = (d :: q) :: rest ∧ G.kind d = .call c

/-- Each edge of a path leaves the vertex the path has come to, and is not
closed. -/
def Walk (r : V) : List E → Prop
  | [] => True
  | e :: path =>
      Walk r path ∧ e ∈ G.out (tip G r path) ∧ G.kind e ≠ .closed

variable {G}

theorem Realizable.of_suffix {p q : List E} (hp : Realizable G p)
    (hq : q <:+ p) : Realizable G q := by
  induction p with
  | nil =>
      rw [List.suffix_nil.mp hq]
      exact hp
  | cons e p ih =>
      rcases List.suffix_cons_iff.mp hq with rfl | hq
      · exact hp
      · exact ih hp.1 hq

theorem Walk.of_suffix {r : V} {p q : List E} (hp : Walk G r p)
    (hq : q <:+ p) : Walk G r q := by
  induction p with
  | nil =>
      rw [List.suffix_nil.mp hq]
      exact hp
  | cons e p ih =>
      rcases List.suffix_cons_iff.mp hq with rfl | hq
      · exact hp
      · exact ih hp.1 hq

theorem Threaded.walk {r : V} {stack : List (V × List E)} {path : List E}
    (h : Threaded G r stack path) : Walk G r path := by
  induction h with
  | root _ => trivial
  | edge h hout hkind _ ih => exact ⟨ih, h.top.1 ▸ hout, hkind⟩

/-! ## The open calls -/

theorem openCalls_call {e : E} {c : V} (he : G.kind e = .call c)
    (path : List E) :
    openCalls G (e :: path) = (e :: path) :: openCalls G path := by
  simp only [openCalls, he]

theorem openCalls_ret {e : E} {c : V} (he : G.kind e = .ret c)
    (path : List E) :
    openCalls G (e :: path) = (openCalls G path).tail := by
  simp only [openCalls, he]

theorem openCalls_other {e : E} (hcall : ∀ c, G.kind e ≠ .call c)
    (hret : ∀ c, G.kind e ≠ .ret c) (path : List E) :
    openCalls G (e :: path) = openCalls G path := by
  cases he : G.kind e with
  | call c => exact absurd he (hcall c)
  | ret c => exact absurd he (hret c)
  | closed | plain => simp only [openCalls, he]

/-- The innermost open call was opened on the path, and the others were open
then. -/
theorem openCalls_eq_cons {p q : List E} {rest : List (List E)}
    (h : openCalls G p = q :: rest) :
    q <:+ p ∧ ∃ d q' c, q = d :: q' ∧ G.kind d = .call c ∧
      rest = openCalls G q' := by
  induction hn : p.length using Nat.strong_induction_on generalizing p q rest with
  | _ n ih =>
      cases p with
      | nil => exact absurd h (by simp [openCalls])
      | cons e p =>
          have hlt : p.length < n := by
            rw [← hn, List.length_cons]
            exact Nat.lt_succ_self _
          cases he : G.kind e with
          | call c =>
              rw [openCalls_call he, List.cons_eq_cons] at h
              exact ⟨h.1 ▸ List.suffix_rfl, e, p, c, h.1.symm, he, h.2.symm⟩
          | ret c =>
              rw [openCalls_ret he] at h
              cases hopen : openCalls G p with
              | nil =>
                  rw [hopen] at h
                  exact absurd h (by simp)
              | cons q₀ rest₀ =>
                  obtain ⟨hq₀, d₀, p₀, c₀, rfl, _, hrest₀⟩ := ih _ hlt hopen rfl
                  rw [hopen, List.tail_cons, hrest₀] at h
                  have hle := hq₀.length_le
                  rw [List.length_cons] at hle
                  have hp₀ : p₀.length < n := by omega
                  obtain ⟨hq, hcase⟩ := ih _ hp₀ h rfl
                  refine ⟨?_, hcase⟩
                  exact ((hq.trans (List.suffix_cons d₀ p₀)).trans hq₀).trans
                    (List.suffix_cons e p)
          | closed | plain =>
              rw [openCalls_other (by simp [he]) (by simp [he])] at h
              obtain ⟨hq, hcase⟩ := ih _ hlt h rfl
              exact ⟨hq.trans (List.suffix_cons e p), hcase⟩

theorem suffix_of_mem_openCalls {p q : List E} (hq : q ∈ openCalls G p) :
    q <:+ p := by
  induction p with
  | nil => exact absurd hq List.not_mem_nil
  | cons e p ih =>
      cases he : G.kind e with
      | call c =>
          rw [openCalls_call he] at hq
          rcases List.mem_cons.mp hq with rfl | hq
          · exact List.suffix_rfl
          · exact (ih hq).trans (List.suffix_cons e p)
      | ret c =>
          rw [openCalls_ret he] at hq
          exact (ih (List.mem_of_mem_tail hq)).trans (List.suffix_cons e p)
      | closed | plain =>
          rw [openCalls_other (by simp [he]) (by simp [he])] at hq
          exact (ih hq).trans (List.suffix_cons e p)

/-- The innermost open call was opened last. -/
theorem length_lt_of_mem_tail {p q q' : List E} {rest : List (List E)}
    (h : openCalls G p = q :: rest) (hq' : q' ∈ rest) :
    q'.length < q.length := by
  obtain ⟨_, d, q₁, c, rfl, _, rfl⟩ := openCalls_eq_cons h
  have hle := (suffix_of_mem_openCalls hq').length_le
  rw [List.length_cons]
  omega

/-- A call on the path is open, or an edge that returns has closed it. -/
theorem mem_openCalls_or_closed {p q : List E} {d : E} {c : V}
    (hd : G.kind d = .call c) (hq : d :: q <:+ p) :
    d :: q ∈ openCalls G p ∨ ∃ e p' c' rest, e :: p' <:+ p ∧
      G.kind e = .ret c' ∧ openCalls G p' = (d :: q) :: rest := by
  induction p with
  | nil => exact absurd (List.suffix_nil.mp hq) (List.cons_ne_nil d q)
  | cons e p ih =>
      rcases List.suffix_cons_iff.mp hq with heq | hq
      · rw [← heq, openCalls_call hd]
        exact .inl List.mem_cons_self
      · rcases ih hq with hmem | ⟨e', p', c', rest, hsuffix, hret, hopen⟩
        · cases he : G.kind e with
          | call c =>
              rw [openCalls_call he]
              exact .inl (List.mem_cons_of_mem _ hmem)
          | ret c' =>
              rw [openCalls_ret he]
              cases hopen : openCalls G p with
              | nil =>
                  rw [hopen] at hmem
                  exact absurd hmem List.not_mem_nil
              | cons q₀ rest =>
                  rw [hopen] at hmem
                  rcases List.mem_cons.mp hmem with rfl | hmem
                  · exact .inr ⟨e, p, c', rest, List.suffix_rfl, he, hopen⟩
                  · exact .inl hmem
          | closed | plain =>
              rw [openCalls_other (by simp [he]) (by simp [he])]
              exact .inl hmem
        · exact .inr ⟨e', p', c', rest, hsuffix.trans (List.suffix_cons e p),
            hret, hopen⟩

/-! ## Procedures -/

/-- How calls and returns join the procedures: a call leads from its vertex to
the entry of the callee, whose exit has an edge that returns from it.  The exit
of a procedure has no edges but such. -/
structure Procedures {P : Type*} (G : Incidence V E) (home : V → P)
    (entry exit : P → V) (callee : V → P) : Prop where
  plain : ∀ u, ∀ e ∈ G.out u, G.kind e = .plain → home (G.target e) = home u
  call : ∀ u, ∀ e ∈ G.out u, ∀ c, G.kind e = .call c →
    u = c ∧ G.target e = entry (callee c) ∧ home (G.target e) = callee c
  ret : ∀ u, ∀ e ∈ G.out u, ∀ c, G.kind e = .ret c →
    u = exit (callee c) ∧ home u = callee c ∧ home (G.target e) = home c
  leave : ∀ u, ∀ e ∈ G.out u, ∀ c, G.kind e = .ret c → ∀ d ∈ G.out u,
    G.kind d = .closed ∨ ∃ c', G.kind d = .ret c'
  exists_ret : ∀ u, ∀ e ∈ G.out u, ∀ c, G.kind e = .call c →
    ∃ d ∈ G.out (exit (callee c)), G.kind d = .ret c

/-- The procedure of the innermost open call, or of the start. -/
def context {P : Type*} (G : Incidence V E) (home : V → P) (r : V)
    (path : List E) : P :=
  match openCalls G path with
  | (d :: _) :: _ => home (G.target d)
  | _ => home r

/-- A realizable path has come to a vertex of the procedure of its innermost
open call. -/
theorem Procedures.home_tip {P : Type*} {home : V → P} {entry exit : P → V}
    {callee : V → P} (hG : Procedures G home entry exit callee) {r : V}
    {path : List E} (hwalk : Walk G r path) (hreal : Realizable G path) :
    home (tip G r path) = context G home r path := by
  induction hn : path.length using Nat.strong_induction_on generalizing path with
  | _ n ih =>
      cases path with
      | nil => rfl
      | cons e p =>
          have hlt : p.length < n := by
            rw [← hn, List.length_cons]
            exact Nat.lt_succ_self _
          have hold := ih _ hlt hwalk.1 hreal.1 rfl
          show home (G.target e) = _
          unfold context
          cases he : G.kind e with
          | call c => rw [openCalls_call he]
          | ret c =>
              obtain ⟨d, q, rest, hopen, hd⟩ := hreal.2 c he
              obtain ⟨hsuffix, d', q', c', heq, _, hrest⟩ := openCalls_eq_cons hopen
              rw [List.cons_eq_cons] at heq
              obtain ⟨rfl, rfl⟩ := heq
              have hq := (List.suffix_cons d q).trans hsuffix
              have hle := hsuffix.length_le
              rw [List.length_cons] at hle
              have hqlt : q.length < n := by omega
              have hdwalk := (hwalk.1.of_suffix hsuffix).2.1
              -- The call was made from the vertex it returns to the function of.
              have hc := (hG.call _ d hdwalk c hd).1
              have hhome := ih _ hqlt (hwalk.1.of_suffix hq)
                (hreal.1.of_suffix hq) rfl
              rw [openCalls_ret he, hopen, List.tail_cons, hrest,
                (hG.ret _ e hwalk.2.1 c he).2.2, ← hc, hhome]
              rfl
          | plain =>
              rw [openCalls_other (by simp [he]) (by simp [he]),
                hG.plain _ e hwalk.2.1 he, hold]
              rfl
          | closed => exact absurd he hwalk.2.2

/-- Induction along a realizable path: where it returns, what was shown of the
path up to the call may be used. -/
theorem Procedures.walk_induction {P : Type*} {home : V → P}
    {entry exit : P → V} {callee : V → P}
    (hG : Procedures G home entry exit callee) {C : List E → Prop} {r : V}
    (hnil : C [])
    (hplain : ∀ p, ∀ e ∈ G.out (tip G r p), G.kind e = .plain → C p →
      C (e :: p))
    (hcall : ∀ p, ∀ e ∈ G.out (tip G r p), ∀ c, G.kind e = .call c → C p →
      C (e :: p))
    (hret : ∀ p, ∀ e ∈ G.out (tip G r p), ∀ c, G.kind e = .ret c →
      ∀ q rest, (openCalls G p).tail = rest → openCalls G q = rest →
        tip G r q = c → C q → C (e :: p))
    {path : List E} (hwalk : Walk G r path) (hreal : Realizable G path) :
    C path := by
  induction hn : path.length using Nat.strong_induction_on generalizing path with
  | _ n ih =>
      cases path with
      | nil => exact hnil
      | cons e p =>
          have hlt : p.length < n := by
            rw [← hn, List.length_cons]
            exact Nat.lt_succ_self _
          have hbefore := ih _ hlt hwalk.1 hreal.1 rfl
          cases he : G.kind e with
          | plain => exact hplain p e hwalk.2.1 he hbefore
          | call c => exact hcall p e hwalk.2.1 c he hbefore
          | closed => exact absurd he hwalk.2.2
          | ret c =>
              -- The call was made where the path had come to then.
              obtain ⟨d, q, rest, hopen, hd⟩ := hreal.2 c he
              obtain ⟨hsuffix, d', q', c', heq, _, hrest⟩ :=
                openCalls_eq_cons hopen
              obtain ⟨rfl, rfl⟩ := List.cons.inj heq
              have hle := hsuffix.length_le
              rw [List.length_cons] at hle
              have hq : q <:+ p := (List.suffix_cons d q).trans hsuffix
              have hqlt : q.length < n := by omega
              have hdout := (hwalk.1.of_suffix hsuffix).2.1
              exact hret p e hwalk.2.1 c he q rest (by rw [hopen, List.tail_cons])
                hrest.symm (hG.call _ d hdout c hd).1
                (ih _ hqlt (hwalk.1.of_suffix hq) (hreal.1.of_suffix hq) rfl)

/-- What holds at the start, and is carried along plain edges, into what is
called and from a call to where it returns, holds where a realizable path has
come to. -/
theorem Procedures.invariant {P : Type*} {home : V → P} {entry exit : P → V}
    {callee : V → P} (hG : Procedures G home entry exit callee) {I : V → Prop}
    {r : V} (hstart : I r)
    (hplain : ∀ u, ∀ e ∈ G.out u, G.kind e = .plain → I u → I (G.target e))
    (hcall : ∀ u, ∀ e ∈ G.out u, ∀ c, G.kind e = .call c → I u →
      I (G.target e))
    (hret : ∀ u, ∀ e ∈ G.out u, ∀ c, G.kind e = .ret c → I c → I (G.target e))
    {path : List E} (hwalk : Walk G r path) (hreal : Realizable G path) :
    I (tip G r path) := by
  refine hG.walk_induction (C := fun p => I (tip G r p)) hstart
    (fun p e he hkind hp => hplain _ e he hkind hp)
    (fun p e he c hkind hp => hcall _ e he c hkind hp)
    (fun p e he c hkind q rest _ _ htip hq => ?_) hwalk hreal
  rw [htip] at hq
  exact hret _ e he c hkind hq

end CoFlo.Verified.ContextSearch
