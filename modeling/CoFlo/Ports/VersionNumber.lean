import CoFlo.Ports.Characters
import Mathlib.Data.List.Lex
import Mathlib.Data.Int.Order.Basic
import Mathlib.Order.Lattice

/-!
# Version numbers

A `VersionNumber` keeps its string and the numbers in it.  `Set` reads them with
a stream, and puts them behind those which are there (`sameComparisons_set_iff`);
a number that does not fit into an `int` ends the reading.  `operator==` asks
whether the numbers of the one are at the start of the other's, and looks for
them past the end of a shorter list (`comparesNumerically_iff`).
-/

namespace CoFlo.Ports

/-! ## The algorithms of the standard library -/

section algorithms

variable {α : Type*}

/-- `std::equal`, with the end of the first range only.  `none` is a read past
the end of the second. -/
def stdEqual [DecidableEq α] : List α → List α → Option Bool
  | [], _ => some true
  | _ :: _, [] => none
  | a :: l, b :: m => if a = b then stdEqual l m else some false

/-- `std::lexicographical_compare`. -/
def lexicographicalCompare [LT α] [DecidableLT α] : List α → List α → Bool
  | _, [] => false
  | [], _ :: _ => true
  | a :: l, b :: m =>
      if a < b then true
      else if b < a then false
      else lexicographicalCompare l m

theorem lexicographicalCompare_iff [LinearOrder α] {l m : List α} :
    lexicographicalCompare l m = true ↔ l < m := by
  fun_induction lexicographicalCompare l m with
  | case1 l => simp
  | case2 b m => simp
  | case3 a l b m hlt => simp [List.cons_lt_cons_iff, hlt]
  | case4 a l b m hlt hgt =>
      have hne : a ≠ b := (ne_of_lt hgt).symm
      simp [List.cons_lt_cons_iff, hlt, hne]
  | case5 a l b m hlt hgt ih =>
      obtain rfl : a = b := le_antisymm (not_lt.mp hgt) (not_lt.mp hlt)
      rw [ih]
      simp

end algorithms

/-! ## The parser -/

/-- The largest `int`. -/
def intMax : Nat := 2147483647

/-- `parser >> digit`: the new value of `digit`, and what is left of the stream
if it is still good.  Where nothing can be read `digit` keeps its value; where
there is no number it becomes zero, and where the number does not fit the
nearest that does. -/
def extractInt (digit : Int) (s : List Char) : Int × Option (List Char) :=
  match s.dropWhile isSpace with
  | [] => (digit, none)
  | c :: s =>
      let unsigned := if c = '+' ∨ c = '-' then s else c :: s
      let digits := unsigned.takeWhile Char.isDigit
      let rest := unsigned.dropWhile Char.isDigit
      let magnitude := Nat.ofDigitChars 10 digits 0
      if digits = [] then (0, none)
      else if c = '-' then
        if intMax + 1 < magnitude then (-(intMax + 1), none)
        else (-magnitude, if rest = [] then none else some rest)
      else if intMax < magnitude then (intMax, none)
      else (magnitude, if rest = [] then none else some rest)

/-- The loop of `Set`.  A round that goes on takes a number and the character
behind it out of the stream, so there are at most as many rounds as characters
and one more. -/
def readDigits : Nat → Int → List Char → List Int
  | 0, _, _ => []
  | fuel + 1, digit, s =>
      match extractInt digit s with
      | (digit, none) => [digit]
      | (digit, some rest) => digit :: readDigits fuel digit rest.tail

/-- `VersionNumber`. -/
structure VersionNumber where
  versionString : String
  versionDigits : List Int
  deriving DecidableEq, Repr

namespace VersionNumber

/-- `VersionNumber()`. -/
def new : VersionNumber := ⟨"", []⟩

/-- `Set`; `memory` is what the uninitialized `digit` has in it. -/
def set (memory : Int) (v : VersionNumber) (versionString : String) : VersionNumber :=
  { versionString
    versionDigits := v.versionDigits ++
      readDigits (versionString.length + 1) memory versionString.toList }

/-- `VersionNumber(const std::string &)`. -/
def ofString (memory : Int) (versionString : String) : VersionNumber :=
  new.set memory versionString

/-- `DeepCopy`, the copy constructor and the assignment. -/
def deepCopy (_ other : VersionNumber) : VersionNumber :=
  { versionString := other.versionString, versionDigits := other.versionDigits }

/-- `operator==`. -/
def equal (v other : VersionNumber) : Option Bool :=
  stdEqual v.versionDigits other.versionDigits

/-- `operator<`. -/
def less (v other : VersionNumber) : Bool :=
  lexicographicalCompare v.versionDigits other.versionDigits

/-- The objects a program can have. -/
inductive Reachable : VersionNumber → Prop
  | new : Reachable .new
  | ofString (memory : Int) (s : String) : Reachable (.ofString memory s)
  | copy {v : VersionNumber} (hv : Reachable v) : Reachable (deepCopy .new v)
  | assign {v w : VersionNumber} (hv : Reachable v) (hw : Reachable w) :
      Reachable (v.deepCopy w)
  | set {v : VersionNumber} (hv : Reachable v) (memory : Int) (s : String) :
      Reachable (v.set memory s)

end VersionNumber

/-! ## Strings of the documented form -/

/-- A string `N.N...N`, by the texts of its components. -/
structure VersionText where
  components : List (List Char)
  ne_nil : components ≠ []
  digits : ∀ c ∈ components, Digits c

namespace VersionText

/-- The string. -/
def text (a : VersionText) : String := .ofList (List.intercalate ['.'] a.components)

/-- The values of the components. -/
def values (a : VersionText) : List Nat :=
  a.components.map fun digits => Nat.ofDigitChars 10 digits 0

end VersionText

/-- What is stored of a list of values: all up to the first that does not fit. -/
def stored : List Nat → List Int
  | [] => []
  | n :: ns => if n ≤ intMax then n :: stored ns else [(intMax : Int)]

theorem stored_cons (n : Nat) (ns : List Nat) :
    stored (n :: ns) = if n ≤ intMax then (n : Int) :: stored ns else [(intMax : Int)] := rfl

theorem extractInt_digits {digits rest : List Char} (hdigits : Digits digits) (digit : Int)
    (hrest : ∀ c ∈ rest.head?, c.isDigit = false) :
    extractInt digit (digits ++ rest) =
      if Nat.ofDigitChars 10 digits 0 ≤ intMax then
        ((Nat.ofDigitChars 10 digits 0 : Int), if rest = [] then none else some rest)
      else ((intMax : Int), none) := by
  obtain ⟨hne, hall⟩ := hdigits
  have htake : (digits ++ rest).takeWhile Char.isDigit = digits := by
    rw [List.takeWhile_append_of_pos hall]
    cases rest with
    | nil => simp
    | cons c rest => simp [hrest c rfl]
  have hdrop : (digits ++ rest).dropWhile Char.isDigit = rest := by
    rw [List.dropWhile_append_of_pos hall]
    cases rest with
    | nil => rfl
    | cons c rest => simp [hrest c rfl]
  obtain ⟨d, ds, rfl⟩ := List.exists_cons_of_ne_nil hne
  have hd := hall d List.mem_cons_self
  have hspace := isSpace_eq_false_of_isDigit hd
  have hplus : d ≠ '+' := fun heq => absurd (heq ▸ hd) (by decide)
  have hminus : d ≠ '-' := fun heq => absurd (heq ▸ hd) (by decide)
  unfold extractInt
  rw [List.cons_append, List.dropWhile_cons_of_neg (by rw [hspace]; decide)]
  simp only [hplus, hminus, or_self, if_false, ← List.cons_append, htake, hdrop, reduceCtorEq]
  by_cases hle : Nat.ofDigitChars 10 (d :: ds) 0 ≤ intMax
  · rw [if_neg (Nat.not_lt.mpr hle), if_pos hle]
  · rw [if_pos (Nat.not_le.mp hle), if_neg hle]

/-- The loop reads the components one by one. -/
theorem readDigits_intercalate {cs : List (List Char)} (hne : cs ≠ [])
    (hcs : ∀ c ∈ cs, Digits c) {fuel : Nat} (hfuel : cs.length ≤ fuel) (digit : Int) :
    readDigits fuel digit (List.intercalate ['.'] cs) =
      stored (cs.map fun digits => Nat.ofDigitChars 10 digits 0) := by
  induction cs generalizing fuel digit with
  | nil => exact absurd rfl hne
  | cons c cs ih =>
      obtain ⟨fuel, rfl⟩ : ∃ n, fuel = n + 1 := by
        cases fuel with
        | zero => simp at hfuel
        | succ n => exact ⟨n, rfl⟩
      have hc := hcs c List.mem_cons_self
      rw [List.length_cons, Nat.add_le_add_iff_right] at hfuel
      cases cs with
      | nil =>
          have hsingle : List.intercalate ['.'] [c] = c ++ [] := by simp
          rw [hsingle, readDigits, extractInt_digits hc digit (by simp), if_pos rfl,
            List.map_singleton, stored_cons]
          split_ifs <;> rfl
      | cons e cs =>
          have hcons : List.intercalate ['.'] (c :: e :: cs) =
              c ++ '.' :: List.intercalate ['.'] (e :: cs) := by
            simp [List.intercalate_cons_cons]
          rw [hcons, readDigits, extractInt_digits hc digit (by simp),
            if_neg (List.cons_ne_nil _ _), List.map_cons, stored_cons]
          split_ifs
          · exact congrArg _ (ih (List.cons_ne_nil _ _)
              (fun d hd => hcs d (List.mem_cons_of_mem _ hd)) hfuel _)
          · rfl

theorem length_le_intercalate (cs : List (List Char)) :
    cs.length ≤ (List.intercalate ['.'] cs).length + 1 := by
  induction cs with
  | nil => exact Nat.zero_le _
  | cons c cs ih =>
      cases cs with
      | nil => exact Nat.le_add_left 1 _
      | cons e cs =>
          rw [List.intercalate_cons_cons, List.length_append, List.length_append,
            List.length_cons, List.length_singleton]
          omega

theorem versionDigits_ofString (memory : Int) (a : VersionText) :
    (VersionNumber.ofString memory a.text).versionDigits = stored a.values := by
  show [] ++ readDigits _ memory a.text.toList = _
  rw [List.nil_append, VersionText.text, String.toList_ofList]
  exact readDigits_intercalate a.ne_nil a.digits
    (by simpa using length_le_intercalate a.components) memory

/-! ## Comparisons -/

/-- The comparisons of `v` and `w` are those of the lists of values. -/
structure ComparesNumerically (v w : VersionNumber) (a b : List Nat) : Prop where
  less : v.less w = true ↔ a < b
  equal : v.equal w = some (decide (a = b))
  symmetric : w.equal v = v.equal w
  exactlyOne : [v.less w, v.equal w == some true, w.less v].count true = 1

/-- The two are the same, or the first place at which they are not is a place in
both of them, there is no number before it that does not fit, and at most one of
the two numbers there comes up to the largest `int`. -/
def Distinguished (a b : List Nat) : Prop :=
  a = b ∨ ∃ pre x y as bs, a = pre ++ x :: as ∧ b = pre ++ y :: bs ∧ x ≠ y ∧
    (∀ n ∈ pre, n ≤ intMax) ∧ min x y < intMax

theorem Distinguished.cons {a b : List Nat} (h : Distinguished a b) {x : Nat}
    (hx : x ≤ intMax) : Distinguished (x :: a) (x :: b) := by
  rcases h with rfl | ⟨pre, y, z, as, bs, rfl, rfl, hne, hpre, hmin⟩
  · exact .inl rfl
  · refine .inr ⟨x :: pre, y, z, as, bs, rfl, rfl, hne, fun n hn => ?_, hmin⟩
    rcases List.mem_cons.mp hn with rfl | hn
    · exact hx
    · exact hpre n hn

theorem stored_append {pre : List Nat} (hpre : ∀ n ∈ pre, n ≤ intMax) (a : List Nat) :
    stored (pre ++ a) = pre.map Nat.cast ++ stored a := by
  induction pre with
  | nil => rfl
  | cons n pre ih =>
      rw [List.cons_append, stored_cons, if_pos (hpre n List.mem_cons_self),
        ih fun m hm => hpre m (List.mem_cons_of_mem _ hm)]
      rfl

theorem exists_stored_cons (x : Nat) (a : List Nat) :
    ∃ l : List Int, stored (x :: a) = ((min x intMax : Nat) : Int) :: l := by
  rw [stored_cons]
  split_ifs with hx
  · exact ⟨stored a, by rw [Nat.min_eq_left hx]⟩
  · exact ⟨[], by rw [Nat.min_eq_right (Nat.le_of_not_le hx)]⟩

theorem stdEqual_self {α : Type*} [DecidableEq α] (l : List α) : stdEqual l l = some true := by
  induction l with
  | nil => rfl
  | cons a l ih => rw [stdEqual, if_pos rfl, ih]

theorem stdEqual_append {α : Type*} [DecidableEq α] (p l m : List α) :
    stdEqual (p ++ l) (p ++ m) = stdEqual l m := by
  induction p with
  | nil => rfl
  | cons a p ih => rw [List.cons_append, List.cons_append, stdEqual, if_pos rfl, ih]

/-- What `operator==` answers tells where the numbers are distinguished. -/
theorem distinguished_of_stdEqual {a b : List Nat}
    (h : stdEqual (stored a) (stored b) = some (decide (a = b))) : Distinguished a b := by
  induction a generalizing b with
  | nil =>
      left
      simpa [stored, stdEqual, eq_comm] using h
  | cons x a ih =>
      cases b with
      | nil =>
          obtain ⟨l, hl⟩ := exists_stored_cons x a
          rw [hl] at h
          exact absurd h (by simp [stored, stdEqual])
      | cons y b =>
          by_cases hxy : x = y
          · subst hxy
            by_cases hx : x ≤ intMax
            · rw [stored_cons, stored_cons, if_pos hx, if_pos hx, stdEqual, if_pos rfl] at h
              refine (ih ?_).cons hx
              rw [h]
              simp
            · rw [stored_cons, stored_cons, if_neg hx, if_neg hx, stdEqual_self] at h
              left
              simpa using h
          · right
            refine ⟨[], x, y, a, b, rfl, rfl, hxy, by simp, ?_⟩
            by_contra hmin
            have hdecide : decide (x :: a = y :: b) = false := by simp [hxy]
            rw [hdecide, stored_cons, stored_cons] at h
            -- both lists start with the largest `int`, and one of them ends there
            by_cases hx : x ≤ intMax
            · obtain rfl : x = intMax := by omega
              rw [if_pos hx, if_neg (by omega), stdEqual, if_pos rfl] at h
              cases hs : stored a <;> simp [hs, stdEqual] at h
            · rw [if_neg hx] at h
              split_ifs at h with hy
              · obtain rfl : y = intMax := by omega
                simp [stdEqual] at h
              · simp [stdEqual] at h

theorem append_lt_append {α : Type*} [LinearOrder α] (p : List α) {l m : List α} :
    p ++ l < p ++ m ↔ l < m := by
  induction p with
  | nil => rfl
  | cons a p ih =>
      rw [List.cons_append, List.cons_append, List.cons_lt_cons_iff, ih]
      simp

/-- Where they are distinguished the comparisons are right. -/
theorem comparesNumerically_of_distinguished {v w : VersionNumber} {a b : List Nat}
    (hv : v.versionDigits = stored a) (hw : w.versionDigits = stored b)
    (h : Distinguished a b) : ComparesNumerically v w a b := by
  have hless : ∀ {v w : VersionNumber}, v.less w = true ↔ v.versionDigits < w.versionDigits :=
    lexicographicalCompare_iff
  have hnot : ∀ {v w : VersionNumber}, v.less w = false ↔
      ¬ v.versionDigits < w.versionDigits := fun {v w} => by
    rw [← hless, Bool.not_eq_true]
  rcases h with rfl | ⟨pre, x, y, as, bs, rfl, rfl, hne, hpre, hmin⟩
  · have hequal : v.equal w = some true := by
      rw [VersionNumber.equal, hv, hw, stdEqual_self]
    have hequal' : w.equal v = some true := by
      rw [VersionNumber.equal, hv, hw, stdEqual_self]
    have hlt : v.less w = false := by rw [hnot, hv, hw]; exact lt_irrefl _
    have hgt : w.less v = false := by rw [hnot, hv, hw]; exact lt_irrefl _
    exact
      { less := by simp [hlt]
        equal := by simp [hequal]
        symmetric := by rw [hequal, hequal']
        exactlyOne := by rw [hlt, hequal, hgt]; rfl }
  · obtain ⟨l, hl⟩ := exists_stored_cons x as
    obtain ⟨m, hm⟩ := exists_stored_cons y bs
    rw [stored_append hpre, hl] at hv
    rw [stored_append hpre, hm] at hw
    have hdiff : ((min x intMax : Nat) : Int) ≠ ((min y intMax : Nat) : Int) := by omega
    have hequal : v.equal w = some false := by
      rw [VersionNumber.equal, hv, hw, stdEqual_append, stdEqual, if_neg hdiff]
    have hequal' : w.equal v = some false := by
      rw [VersionNumber.equal, hv, hw, stdEqual_append, stdEqual, if_neg hdiff.symm]
    have hlt : v.less w = true ↔ x < y := by
      rw [hless, hv, hw, append_lt_append, List.cons_lt_cons_iff]
      omega
    have hgt : w.less v = true ↔ y < x := by
      rw [hless, hv, hw, append_lt_append, List.cons_lt_cons_iff]
      omega
    exact
      { less := by
          rw [hlt, append_lt_append, List.cons_lt_cons_iff]
          omega
        equal := by
          rw [hequal]
          simp [hne]
        symmetric := by rw [hequal, hequal']
        exactlyOne := by
          rcases Nat.lt_or_gt_of_ne hne with hxy | hxy
          · have hgt' : w.less v = false := by
              rw [← Bool.not_eq_true, hgt]
              omega
            rw [hlt.mpr hxy, hequal, hgt']
            rfl
          · have hlt' : v.less w = false := by
              rw [← Bool.not_eq_true, hlt]
              omega
            rw [hgt.mpr hxy, hequal, hlt']
            rfl }

/-- **Versions are compared by their numbers exactly when these are
distinguished.** -/
theorem comparesNumerically_iff (a b : VersionText) (memory memory' : Int) :
    ComparesNumerically (.ofString memory a.text) (.ofString memory' b.text)
        a.values b.values ↔ Distinguished a.values b.values := by
  have ha := versionDigits_ofString memory a
  have hb := versionDigits_ofString memory' b
  constructor
  · intro h
    have hequal := h.equal
    rw [VersionNumber.equal, ha, hb] at hequal
    exact distinguished_of_stdEqual hequal
  · exact comparesNumerically_of_distinguished ha hb

/-- `4.5` and `4.5.0`. -/
def shortVersion : VersionText := ⟨[['4'], ['5']], by decide,
  by simpa using ⟨digits_singleton (by decide), digits_singleton (by decide)⟩⟩

def longVersion : VersionText :=
  ⟨[['4'], ['5'], ['0']], by decide, by
    simpa using ⟨digits_singleton (by decide), digits_singleton (by decide),
      digits_singleton (by decide)⟩⟩

/-- The shorter one is equal to the longer, which is compared with what is behind
the end of the shorter. -/
theorem shortVersion_not_comparesNumerically :
    shortVersion.text = "4.5" ∧ longVersion.text = "4.5.0" ∧
      (VersionNumber.ofString 0 "4.5").equal (.ofString 0 "4.5.0") = some true ∧
      (VersionNumber.ofString 0 "4.5.0").equal (.ofString 0 "4.5") = none ∧
      ¬ ComparesNumerically (.ofString 0 shortVersion.text) (.ofString 0 longVersion.text)
        shortVersion.values longVersion.values := by
  refine ⟨by decide +kernel, by decide +kernel, by decide +kernel, by decide +kernel, ?_⟩
  intro h
  have hequal := h.symmetric
  exact absurd hequal (by decide +kernel)

/-! ## What is left of earlier strings -/

namespace VersionNumber

/-- The two compare alike with every object, on either side. -/
def SameComparisons (v w : VersionNumber) : Prop :=
  ∀ u, Reachable u → v.less u = w.less u ∧ u.less v = u.less w ∧
    v.equal u = w.equal u ∧ u.equal v = u.equal w

/-- There is always an object that tells two lists of numbers apart. -/
theorem sameComparisons_iff {v w : VersionNumber} (hw : Reachable w) :
    SameComparisons v w ↔ v.versionDigits = w.versionDigits := by
  constructor
  · intro h
    obtain ⟨hless, hgreater, -⟩ := h w hw
    have hself : w.less w = false := by
      rw [← Bool.not_eq_true, less, lexicographicalCompare_iff]
      exact lt_irrefl _
    rw [hself, ← Bool.not_eq_true, less, lexicographicalCompare_iff] at hless hgreater
    exact le_antisymm (not_lt.mp hgreater) (not_lt.mp hless)
  · intro h u _
    unfold less equal
    rw [h]
    exact ⟨rfl, rfl, rfl, rfl⟩

theorem readDigits_ne_nil (fuel : Nat) (digit : Int) (s : List Char) :
    readDigits (fuel + 1) digit s ≠ [] := by
  rw [readDigits]
  split <;> exact List.cons_ne_nil _ _

theorem set_versionDigits_ne (memory : Int) (v : VersionNumber) (s : String) :
    (v.set memory s).versionDigits ≠ v.versionDigits := by
  intro h
  exact readDigits_ne_nil _ _ _ (List.append_right_eq_self.mp h)

/-- Only an object that has not been given a string has no numbers. -/
theorem Reachable.eq_new_iff {v : VersionNumber} (hv : Reachable v) :
    v = .new ↔ v.versionDigits = [] := by
  constructor
  · rintro rfl
    rfl
  · intro h
    have hset : ∀ memory (v : VersionNumber) s, (v.set memory s).versionDigits ≠ [] :=
      fun memory v s hnil =>
        readDigits_ne_nil _ _ _ (List.append_eq_nil_iff.mp hnil).2
    induction hv with
    | new => rfl
    | ofString memory s => exact absurd h (hset memory .new s)
    | copy _ ih => exact ih h
    | assign _ _ _ ih => exact ih h
    | set _ memory s => exact absurd h (hset memory _ s)

end VersionNumber

namespace ToolBase

/-- `GetVersion`: what it returns, and `m_version_number` after the call.
`extract` is the first capture of the regular expression, on a line that matches
it; `lines` is what the tool prints. -/
def getVersion (extract : String → Option String) (lines : List String) (memory : Int)
    (versionNumber : VersionNumber) : VersionNumber × VersionNumber :=
  match lines.findSome? extract with
  | some text =>
      let versionNumber := versionNumber.set memory text
      (versionNumber, versionNumber)
  | none => (.new, versionNumber)

/-- `m_version_number` when `GetVersion` has been called so many times. -/
def versionNumber (extract : String → Option String) (lines : List String)
    (memory : Nat → Int) : Nat → VersionNumber
  | 0 => .new
  | n + 1 => (getVersion extract lines (memory n)
      (versionNumber extract lines memory n)).2

/-- What the calls of `GetVersion` return, one after the other. -/
def reportedVersion (extract : String → Option String) (lines : List String)
    (memory : Nat → Int) (n : Nat) : VersionNumber :=
  (getVersion extract lines (memory n) (versionNumber extract lines memory n)).1

theorem sameComparisons_reportedVersion_iff (extract : String → Option String)
    (lines : List String) (memory : Nat → Int) :
    (∀ n m, (reportedVersion extract lines memory n).SameComparisons
      (reportedVersion extract lines memory m)) ↔ lines.findSome? extract = none := by
  constructor
  · intro h
    cases hline : lines.findSome? extract with
    | none => rfl
    | some text =>
        have hfirst : reportedVersion extract lines memory 0 = .ofString (memory 0) text := by
          simp [reportedVersion, versionNumber, getVersion, hline, VersionNumber.ofString]
        have hsecond : reportedVersion extract lines memory 1 =
            (VersionNumber.ofString (memory 0) text).set (memory 1) text := by
          simp [reportedVersion, versionNumber, getVersion, hline, VersionNumber.ofString]
        have hsame := h 1 0
        rw [hfirst, hsecond, VersionNumber.sameComparisons_iff (.ofString _ _)] at hsame
        exact absurd hsame (VersionNumber.set_versionDigits_ne _ _ _)
  · intro hline n m
    have hnew : ∀ n, reportedVersion extract lines memory n = .new := by
      intro n
      simp [reportedVersion, getVersion, hline]
    rw [hnew, hnew]
    exact fun u _ => ⟨rfl, rfl, rfl, rfl⟩

end ToolBase

/-- **After `Set` an object compares like a new one exactly when it had not been
given a string before; and `GetVersion` always returns the same exactly when it
finds no version.** -/
theorem sameComparisons_set_iff (v : VersionNumber) (hv : VersionNumber.Reachable v)
    (s : VersionText) (memory memory' : Int) (extract : String → Option String)
    (lines : List String) (memories : Nat → Int) :
    ((v.set memory s.text).SameComparisons (.ofString memory' s.text) ↔ v = .new) ∧
    ((∀ n m, (ToolBase.reportedVersion extract lines memories n).SameComparisons
        (ToolBase.reportedVersion extract lines memories m)) ↔
          lines.findSome? extract = none) := by
  refine ⟨?_, ToolBase.sameComparisons_reportedVersion_iff extract lines memories⟩
  have hnew := versionDigits_ofString memory s
  have hset : (v.set memory s.text).versionDigits = v.versionDigits ++ stored s.values := by
    rw [← hnew]
    rfl
  rw [VersionNumber.sameComparisons_iff (.ofString _ _), hv.eq_new_iff, hset,
    versionDigits_ofString, List.append_left_eq_self]

/-- An object without a string before, and a tool that reports no version. -/
theorem sameComparisons_set_iff_newVersion :
    (VersionNumber.new.set 0 longVersion.text).SameComparisons
        (.ofString 0 longVersion.text) ∧
      ["gcc"].findSome? (fun line => if line = "4.5" then some line else none) = none ∧
      ∀ n m, (ToolBase.reportedVersion (fun line => if line = "4.5" then some line else none)
          ["gcc"] (fun _ => 0) n).SameComparisons
        (ToolBase.reportedVersion (fun line => if line = "4.5" then some line else none)
          ["gcc"] (fun _ => 0) m) := by
  have hnone : ["gcc"].findSome?
      (fun line => if line = "4.5" then some line else none) = none := by
    decide
  obtain ⟨hset, hget⟩ := sameComparisons_set_iff .new .new longVersion 0 0
    (fun line => if line = "4.5" then some line else none) ["gcc"] fun _ => 0
  exact ⟨hset.mpr rfl, hnone, hget.mpr hnone⟩

/-- The second time that `GetVersion` finds `4.5` it is not before `4.5.0`. -/
theorem secondVersion_not_sameComparisons :
    ((VersionNumber.ofString 0 "4.5").less (.ofString 0 "4.5.0") = true ∧
      ((VersionNumber.ofString 0 "4.5").set 0 "4.5").less (.ofString 0 "4.5.0") = false) ∧
    ¬ ((VersionNumber.ofString 0 "4.5").set 0 shortVersion.text).SameComparisons
        (.ofString 0 shortVersion.text) ∧
    ¬ (ToolBase.reportedVersion some ["4.5"] (fun _ => 0) 1).SameComparisons
        (ToolBase.reportedVersion some ["4.5"] (fun _ => 0) 0) := by
  refine ⟨by decide +kernel, fun h => ?_, fun h => ?_⟩
  · rw [VersionNumber.sameComparisons_iff (.ofString _ _)] at h
    exact absurd h (by decide +kernel)
  · have hreachable : VersionNumber.Reachable
        (ToolBase.reportedVersion some ["4.5"] (fun _ => 0) 0) := .ofString 0 "4.5"
    rw [VersionNumber.sameComparisons_iff hreachable] at h
    exact absurd h (by decide +kernel)

end CoFlo.Ports
