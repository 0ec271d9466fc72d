import Mathlib.Tactic.Common

/-!
# shape_verilog

`shape_verilog` rewrites each line of a netlist that has a capital Y: the name of the gate up to a
digit or a `g`, the output behind the Y and the inputs between parentheses, each found by a scan
without a test of the line's end. A run is `none` where a scan reads behind the character `'\0'` at
the end of the line. It stays in the line if and only if the parts are there, in this order
(`shapeLine_iff`, `shapeVerilog_iff`).
-/

namespace Msyn.ShapeVerilog

/-- `str[address]`. -/
def charAt (str : List Char) (address : Nat) : Option Char :=
  if address = str.length then some (Char.ofNat 0) else str[address]?

/-! ## The scans

A scan takes the number `n` of positions that are left at least; without any the next read is
outside. -/

/-- `while (str[address] != c) { patch_writing << str[address]; address++; }`, with what was read. -/
def copyTo (str : List Char) (c : Char) : Nat → Nat → Option (Nat × List Char)
  | 0, _ => none
  | n + 1, address => do
    let x ← charAt str address
    if x = c then some (address, [])
    else do
      let (address, out) ← copyTo str c n (address + 1)
      some (address, x :: out)

/-- `'0'` to `'9'` and `'g'`. -/
def endsName (x : Char) : Bool := ('0' ≤ x && x ≤ '9') || x = 'g'

def isCapital (x : Char) : Bool := 'A' ≤ x && x ≤ 'Z'

/-- The name of the gate in small letters, with the address after it and `assign_flag`. -/
def gateName (str : List Char) : Nat → Nat → Option (Nat × List Char × Int)
  | 0, _ => none
  | n + 1, address => do
    let x ← charAt str address
    if endsName x then some (address, [], -1)
    else if isCapital x then
      if x = 'B' then do
        let (address, out, flag) ← gateName str n (address + 3 + 1)
        some (address, ['b', 'u', 'f'] ++ out, flag)
      else if x = 'Z' then some (address, [], 0)
      else if x = 'C' then some (address, [], 1)
      else do
        let (address, out, flag) ← gateName str n (address + 1)
        some (address, Char.ofNat (x.toNat + 'a'.toNat - 'A'.toNat) :: out, flag)
    else do
      let (address, out, flag) ← gateName str n (address + 1)
      some (address, x :: out, flag)

/-- The inputs of the gate: what stands in parentheses before the Y. -/
def arguments (str : List Char) (yAddress : Nat) : Nat → Nat → Option (List Char)
  | 0, _ => none
  | n + 1, address => do
    let (address, _) ← copyTo str '(' (str.length + 1) address
    if yAddress ≤ address then some []
    else do
      let (address, out) ← copyTo str ')' (str.length + 1) (address + 1)
      let rest ← arguments str yAddress n address
      some ([',', ' '] ++ out ++ rest)

/-- A line with a Y at `yAddress`. -/
def shapeGate (str : List Char) (yAddress : Nat) : Option (List Char) := do
  let (address, name, flag) ← gateName str (str.length + 1) 0
  if flag = -1 then do
    let (_, output) ← copyTo str ')' (str.length + 1) (yAddress + 2)
    let (address, _) ← copyTo str '.' (str.length + 1) address
    let inputs ← arguments str yAddress (str.length + 1) address
    some (name ++ [' ', '('] ++ output ++ inputs ++ [')', ';', '\n'])
  else do
    let (_, output) ← copyTo str ')' (str.length + 1) (yAddress + 2)
    some (name ++ "assign ".toList ++ output ++ " = ".toList ++ (toString flag).toList ++
      [';', '\n'])

def shapeLine (str : List Char) : Option (List Char) :=
  match str.findIdx? (· = 'Y') with
  | some yAddress => shapeGate str yAddress
  | none => some (str ++ ['\n'])

/-- The lines that `getline` reads. -/
def getlines : List Char → List (List Char)
  | [] => []
  | c :: text =>
    if c = '\n' then [] :: getlines text
    else
      match getlines text with
      | [] => [[c]]
      | str :: lines => (c :: str) :: lines

/-- `shape_verilog`: what is written for a text. -/
def shapeVerilog (text : List Char) : Option (List Char) :=
  (getlines text).foldlM (fun out str => (shapeLine str).map (out ++ ·)) []

example : shapeVerilog "NAND2 g1 (.A(x), .B(w), .Y(z));\nZERO g2 (.Y(u));".toList =
    some "nand (z, x, w);\nassign u = 0;\n".toList := by decide

/-! ## What a line must have -/

/-- The positions that the name of the gate is read at: three characters after a B are left out. -/
inductive NameAt (str : List Char) : Nat → Nat → Prop
  | here {i : Nat} : NameAt str i i
  | next {i j : Nat} {x : Char} : str[i]? = some x → endsName x = false → x ≠ 'Z' → x ≠ 'C' →
      NameAt str (if x = 'B' then i + 3 + 1 else i + 1) j → NameAt str i j

/-- The name ends at `i` with `x`. -/
def NameEnds (str : List Char) (i : Nat) (x : Char) : Prop :=
  NameAt str 0 i ∧ str[i]? = some x ∧ (endsName x = true ∨ x = 'Z' ∨ x = 'C')

/-- From `i` on there is a parenthesis that opens behind the Y; if one before the Y is still open
there, it is closed in between. -/
def Opens (str : List Char) (y i : Nat) : Prop :=
  ∃ k, i ≤ k ∧ y ≤ k ∧ str[k]? = some '(' ∧ ∀ p, i ≤ p → p < y → str[p]? = some '(' →
    (∀ q, p < q → q < y → str[q]? ≠ some ')') → ∃ q, y < q ∧ q < k ∧ str[q]? = some ')'

/-- The parts of a line with its first Y at `y`. -/
structure WellShaped (str : List Char) (y : Nat) : Prop where
  output : ∃ k, y + 2 ≤ k ∧ str[k]? = some ')'
  name : ∃ i x, NameEnds str i x
  inputs : ∀ i x, NameEnds str i x → endsName x = true →
    ∃ d, i ≤ d ∧ str[d]? = some '.' ∧ (∀ j, i ≤ j → j < d → str[j]? ≠ some '.') ∧ Opens str y d

/-! ## The scans -/

section
variable {str : List Char}

theorem charAt_lt {i : Nat} (hi : i < str.length) : charAt str i = str[i]? := by
  rw [charAt, if_neg (by omega)]

theorem charAt_outside {i : Nat} (hi : str.length < i) : charAt str i = none := by
  rw [charAt, if_neg (by omega), List.getElem?_eq_none (by omega)]

theorem charAt_eq {i : Nat} {x : Char} (hx : x ≠ Char.ofNat 0) :
    charAt str i = some x ↔ str[i]? = some x := by
  unfold charAt
  split
  · rename_i hi
    rw [hi, List.getElem?_eq_none (Nat.le_refl _)]
    simp [hx.symm]
  · rfl

theorem lt_of_getElem? {i : Nat} {x : Char} (h : str[i]? = some x) : i < str.length :=
  (List.getElem?_eq_some_iff.1 h).1

section
variable {c : Char} (hc : c ≠ Char.ofNat 0)
include hc

theorem copyTo_spec {n a b : Nat} {out : List Char} (h : copyTo str c n a = some (b, out)) :
    a ≤ b ∧ str[b]? = some c ∧ ∀ i, a ≤ i → i < b → str[i]? ≠ some c := by
  induction n generalizing a out with
  | zero => cases h
  | succ n ih =>
    obtain ⟨x, hx, h⟩ := Option.bind_eq_some_iff.1 h
    split at h
    · rename_i hxc
      cases h
      exact ⟨(Nat.le_refl _), (charAt_eq hc).1 (hxc ▸ hx), fun i h1 h2 => by omega⟩
    · rename_i hxc
      obtain ⟨⟨b', out'⟩, h1, h2⟩ := Option.bind_eq_some_iff.1 h
      cases h2
      obtain ⟨h3, h4, h5⟩ := ih h1
      refine ⟨by omega, h4, fun i h6 h7 hi => ?_⟩
      by_cases hia : i = a
      · rw [← hia, (charAt_eq hc).2 hi] at hx
        exact hxc (Option.some.inj hx).symm
      · exact h5 i (by omega) h7 hi

omit hc in
theorem copyTo_exists {n a k : Nat} (hn : str.length < a + n) (hak : a ≤ k)
    (hk : str[k]? = some c) : ∃ b out, copyTo str c n a = some (b, out) ∧ b ≤ k := by
  have hlt := lt_of_getElem? hk
  induction n generalizing a with
  | zero => omega
  | succ n ih =>
    obtain ⟨x, hx⟩ : ∃ x, str[a]? = some x := ⟨_, List.getElem?_eq_getElem (by omega)⟩
    unfold copyTo
    rw [charAt_lt (by omega), hx]
    simp only [bind, Option.bind_some]
    split
    · exact ⟨a, [], rfl, hak⟩
    · rename_i hxc
      have hne : a ≠ k := by
        rintro rfl
        rw [hx] at hk
        exact hxc (Option.some.inj hk)
      obtain ⟨b, out, h1, h2⟩ := ih (a := a + 1) (by omega) (by omega)
      exact ⟨b, x :: out, by rw [h1]; rfl, h2⟩

end

/-! ## The name -/

/-- The name ends at one place. -/
theorem NameEnds.unique {i j : Nat} {x y : Char} (hi : NameEnds str i x) (hj : NameEnds str j y) :
    i = j ∧ x = y := by
  have key : ∀ {a i j : Nat}, NameAt str a i → NameAt str a j →
      (∃ x, str[i]? = some x ∧ (endsName x = true ∨ x = 'Z' ∨ x = 'C')) →
      (∃ x, str[j]? = some x ∧ (endsName x = true ∨ x = 'Z' ∨ x = 'C')) → i = j := by
    intro a i j h
    induction h with
    | here =>
      intro h' hx _
      cases h' with
      | here => rfl
      | next h1 h2 h3 h4 _ =>
        obtain ⟨x, hx1, hx2⟩ := hx
        rw [h1] at hx1
        cases hx1
        simp [h2, h3, h4] at hx2
    | next h1 h2 h3 h4 _ ih =>
      intro h' hx hy
      cases h' with
      | here =>
        obtain ⟨y, hy1, hy2⟩ := hy
        rw [h1] at hy1
        cases hy1
        simp [h2, h3, h4] at hy2
      | next g1 _ _ _ g5 =>
        rw [h1] at g1
        cases g1
        exact ih g5 hx hy
  obtain ⟨h1, h2, h3⟩ := hi
  obtain ⟨g1, g2, g3⟩ := hj
  have hij := key h1 g1 ⟨x, h2, h3⟩ ⟨y, g2, g3⟩
  subst hij
  rw [h2] at g2
  exact ⟨rfl, Option.some.inj g2⟩

theorem gateName_outside {n a : Nat} (ha : str.length ≤ a) : gateName str n a = none := by
  have hbehind : ∀ {n a : Nat}, str.length < a → gateName str n a = none := by
    intro n a ha
    cases n with
    | zero => rfl
    | succ n =>
      unfold gateName
      rw [charAt_outside ha]
      rfl
  by_cases hlt : str.length < a
  · exact hbehind hlt
  cases n with
  | zero => rfl
  | succ n =>
    -- the character at the end is written, and the next one read
    have he : a = str.length := by omega
    have h0 : endsName (Char.ofNat 0) = false := by decide
    have h1 : isCapital (Char.ofNat 0) = false := by decide
    unfold gateName
    rw [charAt, if_pos he]
    simp only [bind, Option.bind_some, h0, h1, Bool.false_eq_true, if_false,
      hbehind (show str.length < a + 1 by omega), Option.bind_none]

/-- The scan of the name ends where the name does. -/
theorem gateName_spec {n a i : Nat} {out : List Char} {flag : Int}
    (h : gateName str n a = some (i, out, flag)) : ∃ x, NameAt str a i ∧ str[i]? = some x ∧
      ((endsName x = true ∧ flag = -1) ∨ (endsName x = false ∧ (x = 'Z' ∨ x = 'C') ∧ flag ≠ -1)) := by
  induction n generalizing a out with
  | zero => cases h
  | succ n ih =>
    have ha : a < str.length := by
      by_contra hge
      rw [gateName_outside (by omega)] at h
      cases h
    obtain ⟨x, hx⟩ : ∃ x, str[a]? = some x := ⟨_, List.getElem?_eq_getElem ha⟩
    unfold gateName at h
    rw [charAt_lt ha, hx] at h
    simp only [bind, Option.bind_some] at h
    split at h
    · rename_i hends
      cases h
      exact ⟨x, .here, hx, .inl ⟨hends, rfl⟩⟩
    rename_i hends
    have hends : endsName x = false := by simpa using hends
    -- the name goes on
    have hnext : ∀ {b : Nat} {out : List Char}, (b = if x = 'B' then a + 3 + 1 else a + 1) →
        x ≠ 'Z' → x ≠ 'C' → gateName str n b = some (i, out, flag) →
        ∃ x, NameAt str a i ∧ str[i]? = some x ∧ ((endsName x = true ∧ flag = -1) ∨
          (endsName x = false ∧ (x = 'Z' ∨ x = 'C') ∧ flag ≠ -1)) := by
      intro b out hb hz hc h
      obtain ⟨y, h1, h2⟩ := ih h
      exact ⟨y, .next hx hends hz hc (hb ▸ h1), h2⟩
    split at h
    · split at h
      · rename_i hB
        obtain ⟨⟨i', out', flag'⟩, h1, h2⟩ := Option.bind_eq_some_iff.1 h
        cases h2
        exact hnext (by rw [if_pos hB]) (by rw [hB]; decide) (by rw [hB]; decide) h1
      rename_i hB
      split at h
      · rename_i hZ
        cases h
        exact ⟨x, .here, hx, .inr ⟨hends, .inl hZ, by decide⟩⟩
      rename_i hZ
      split at h
      · rename_i hC
        cases h
        exact ⟨x, .here, hx, .inr ⟨hends, .inr hC, by decide⟩⟩
      rename_i hC
      obtain ⟨⟨i', out', flag'⟩, h1, h2⟩ := Option.bind_eq_some_iff.1 h
      cases h2
      exact hnext (by rw [if_neg hB]) hZ hC h1
    · rename_i hcap
      have hne : ∀ y, isCapital y = true → x ≠ y := by
        rintro y hy rfl
        exact hcap hy
      obtain ⟨⟨i', out', flag'⟩, h1, h2⟩ := Option.bind_eq_some_iff.1 h
      cases h2
      exact hnext (by rw [if_neg (hne 'B' (by decide))]) (hne 'Z' (by decide)) (hne 'C' (by decide)) h1

theorem gateName_exists {n a i : Nat} {x : Char} (hn : str.length < a + n) (h : NameAt str a i)
    (hx : str[i]? = some x) (hend : endsName x = true ∨ x = 'Z' ∨ x = 'C') :
    ∃ r, gateName str n a = some r := by
  induction h generalizing n with
  | @here a =>
    have ha := lt_of_getElem? hx
    obtain ⟨n, rfl⟩ : ∃ m, n = m + 1 := ⟨n - 1, by omega⟩
    unfold gateName
    rw [charAt_lt ha, hx]
    simp only [bind, Option.bind_some]
    rcases hend with h | rfl | rfl
    · rw [if_pos h]
      exact ⟨_, rfl⟩
    · exact ⟨_, rfl⟩
    · exact ⟨_, rfl⟩
  | @next a j y hy h1 h2 h3 _ ih =>
    have ha := lt_of_getElem? hy
    obtain ⟨n, rfl⟩ : ∃ m, n = m + 1 := ⟨n - 1, by omega⟩
    obtain ⟨r, hr⟩ := ih (n := n) (by split <;> omega) hx
    unfold gateName
    rw [charAt_lt ha, hy]
    simp only [bind, Option.bind_some, h1, Bool.false_eq_true, if_false]
    by_cases hB : y = 'B'
    · rw [if_pos hB] at hr
      have hcap : isCapital y = true := by rw [hB]; decide
      rw [if_pos hcap, if_pos hB, hr]
      exact ⟨_, rfl⟩
    · rw [if_neg hB] at hr
      rw [if_neg hB, if_neg h2, if_neg h3, hr]
      split
      · exact ⟨_, rfl⟩
      · exact ⟨_, rfl⟩

/-! ## The inputs -/

theorem open_ne : '(' ≠ Char.ofNat 0 := by decide

theorem close_ne : ')' ≠ Char.ofNat 0 := by decide

theorem dot_ne : '.' ≠ Char.ofNat 0 := by decide

theorem arguments_opens {y n a : Nat} {out : List Char} (hy : str[y]? = some 'Y')
    (h : arguments str y n a = some out) : Opens str y a := by
  induction n generalizing a out with
  | zero => cases h
  | succ n ih =>
    obtain ⟨⟨b, t⟩, h1, h⟩ := Option.bind_eq_some_iff.1 h
    obtain ⟨b1, b2, b3⟩ := copyTo_spec open_ne h1
    simp only at h
    split at h
    · rename_i hyb
      exact ⟨b, b1, hyb, b2, fun p p1 p2 hp _ => absurd hp (b3 p p1 (by omega))⟩
    rename_i hyb
    obtain ⟨⟨q, t'⟩, h2, h⟩ := Option.bind_eq_some_iff.1 h
    obtain ⟨q1, q2, q3⟩ := copyTo_spec close_ne h2
    obtain ⟨rest, h3, -⟩ := Option.bind_eq_some_iff.1 h
    obtain ⟨k, k1, k2, k3, k4⟩ := ih h3
    refine ⟨k, by omega, k2, k3, fun p p1 p2 hp hfree => ?_⟩
    by_cases hpq : q ≤ p
    · exact k4 p hpq p2 hp hfree
    -- the parenthesis at `p` is closed at `q`
    have hbp : b ≤ p := by
      by_contra hlt
      exact b3 p p1 (by omega) hp
    have hyq : y < q := by
      by_contra hle
      have hne : q ≠ y := by
        rintro rfl
        rw [hy] at q2
        cases q2
      exact hfree q (by omega) (by omega) q2
    have hqk : q ≠ k := by
      rintro rfl
      rw [q2] at k3
      cases k3
    exact ⟨q, hyq, by omega, q2⟩

theorem arguments_exists {y n a : Nat} (hn : str.length < a + n)
    (hclose : ∃ k, y + 2 ≤ k ∧ str[k]? = some ')') (h : Opens str y a) :
    ∃ out, arguments str y n a = some out := by
  induction n generalizing a with
  | zero =>
    obtain ⟨k, k1, -, k3, -⟩ := h
    have := lt_of_getElem? k3
    omega
  | succ n ih =>
    obtain ⟨k, k1, k2, k3, k4⟩ := h
    obtain ⟨b, t, h1, hbk⟩ := copyTo_exists (n := str.length + 1) (by omega) k1 k3
    obtain ⟨b1, b2, b3⟩ := copyTo_spec open_ne h1
    unfold arguments
    simp only [bind, h1, Option.bind_some]
    split
    · exact ⟨_, rfl⟩
    rename_i hyb
    obtain ⟨e, e1, e2⟩ := hclose
    obtain ⟨q, t', h2, -⟩ := copyTo_exists (n := str.length + 1) (a := b + 1) (by omega)
      (show b + 1 ≤ e by omega) e2
    obtain ⟨q1, q2, q3⟩ := copyTo_spec close_ne h2
    have hqk : q ≤ k := by
      by_cases hqy : q < y
      · omega
      -- then the parenthesis at `b` is open at the Y
      obtain ⟨q', r1, r2, r3⟩ := k4 b b1 (by omega) b2 fun r h3 h4 => q3 r (by omega) (by omega)
      by_contra hlt
      exact q3 q' (by omega) (by omega) r3
    obtain ⟨out, h3⟩ := ih (a := q) (by omega) ⟨k, hqk, k2, k3, fun p p1 => k4 p (by omega)⟩
    exact ⟨_, by rw [h2, Option.bind_some]; simp only [h3]; rfl⟩

end

/-! ## Lines and texts -/

/-- **A line with a Y** is shaped without a read behind it if and only if it has its parts. -/
theorem shapeGate_iff {str : List Char} {y : Nat} (hy : str[y]? = some 'Y') :
    (∃ out, shapeGate str y = some out) ↔ WellShaped str y := by
  constructor
  · rintro ⟨out, h⟩
    obtain ⟨⟨i, name, flag⟩, h1, h⟩ := Option.bind_eq_some_iff.1 h
    obtain ⟨x, x1, x2, x3⟩ := gateName_spec h1
    have hends : NameEnds str i x := ⟨x1, x2, x3.imp And.left fun h => h.2.1⟩
    simp only at h
    split at h
    · obtain ⟨⟨k, t⟩, h2, h⟩ := Option.bind_eq_some_iff.1 h
      obtain ⟨⟨d, t'⟩, h3, h⟩ := Option.bind_eq_some_iff.1 h
      obtain ⟨inputs, h4, -⟩ := Option.bind_eq_some_iff.1 h
      obtain ⟨d1, d2, d3⟩ := copyTo_spec dot_ne h3
      obtain ⟨k1, k2, -⟩ := copyTo_spec close_ne h2
      refine ⟨⟨k, k1, k2⟩, ⟨i, x, hends⟩, fun j x' hj _ => ?_⟩
      obtain ⟨rfl, -⟩ := hends.unique hj
      exact ⟨d, d1, d2, d3, arguments_opens hy h4⟩
    · rename_i hflag
      obtain ⟨⟨k, t⟩, h2, h⟩ := Option.bind_eq_some_iff.1 h
      obtain ⟨k1, k2, -⟩ := copyTo_spec close_ne h2
      refine ⟨⟨k, k1, k2⟩, ⟨i, x, hends⟩, fun j x' hj hx' => ?_⟩
      obtain ⟨-, rfl⟩ := hends.unique hj
      rcases x3 with ⟨-, h3⟩ | ⟨h3, -⟩
      · exact absurd h3 hflag
      · rw [hx'] at h3
        cases h3
  · intro h
    obtain ⟨e, e1, e2⟩ := h.output
    obtain ⟨i, x, hends⟩ := h.name
    obtain ⟨⟨i', name, flag⟩, h1⟩ := gateName_exists (n := str.length + 1) (by omega) hends.1
      hends.2.1 hends.2.2
    obtain ⟨x', x1, x2, x3⟩ := gateName_spec h1
    obtain ⟨k, output, h2, -⟩ := copyTo_exists (n := str.length + 1) (by omega) e1 e2
    unfold shapeGate
    simp only [bind, h1, Option.bind_some, h2]
    split
    · rename_i hflag
      have hx' : endsName x' = true := (x3.resolve_right fun h3 => h3.2.2 hflag).1
      obtain ⟨d, d1, d2, d3, hopens⟩ := h.inputs i' x' ⟨x1, x2, .inl hx'⟩ hx'
      obtain ⟨d', t, h3, -⟩ := copyTo_exists (n := str.length + 1) (by omega) d1 d2
      obtain ⟨g1, g2, g3⟩ := copyTo_spec dot_ne h3
      have hdd : d' = d := by
        by_contra hne
        rcases Nat.lt_or_gt_of_ne hne with hlt | hlt
        · exact d3 d' g1 hlt g2
        · exact g3 d d1 hlt d2
      obtain ⟨inputs, h4⟩ := arguments_exists (n := str.length + 1) (by omega) ⟨e, e1, e2⟩ hopens
      subst hdd
      simp only [h3, Option.bind_some, h4]
      exact ⟨_, rfl⟩
    · exact ⟨_, rfl⟩

/-- The first Y of a line. -/
def FirstY (str : List Char) (y : Nat) : Prop :=
  str[y]? = some 'Y' ∧ ∀ i < y, str[i]? ≠ some 'Y'

theorem findIdx?_firstY {str : List Char} {y : Nat} (h : str.findIdx? (· = 'Y') = some y) :
    FirstY str y := by
  obtain ⟨h1, h2, h3⟩ := List.findIdx?_eq_some_iff_getElem.1 h
  refine ⟨by simpa [List.getElem?_eq_getElem h1] using h2, fun i hi hY => ?_⟩
  have := h3 i hi
  rw [List.getElem?_eq_getElem (by omega)] at hY
  simp_all

theorem shapeLine_iff (str : List Char) :
    (∃ out, shapeLine str = some out) ↔ ∀ y, FirstY str y → WellShaped str y := by
  unfold shapeLine
  cases hfind : str.findIdx? (· = 'Y') with
  | none =>
    refine ⟨fun _ y hy => ?_, fun _ => ⟨_, rfl⟩⟩
    have := List.findIdx?_eq_none_iff.1 hfind 'Y' (List.mem_of_getElem? hy.1)
    simp at this
  | some y =>
    have hy := findIdx?_firstY hfind
    show (∃ out, shapeGate str y = some out) ↔ _
    rw [shapeGate_iff hy.1]
    refine ⟨fun h y' hy' => ?_, fun h => h y hy⟩
    have heq : y' = y := by
      by_contra hne
      rcases Nat.lt_or_gt_of_ne hne with hlt | hlt
      · exact hy.2 y' hlt hy'.1
      · exact hy'.2 y hlt hy.1
    exact heq ▸ h

/-- **`shape_verilog` stays inside the lines** if and only if each line with a Y has its parts. -/
theorem shapeVerilog_iff (text : List Char) :
    (∃ out, shapeVerilog text = some out) ↔
      ∀ str ∈ getlines text, ∀ y, FirstY str y → WellShaped str y := by
  have key : ∀ (lines : List (List Char)) (out : List Char),
      (∃ r, lines.foldlM (fun out str => (shapeLine str).map (out ++ ·)) out = some r) ↔
        ∀ str ∈ lines, ∃ r, shapeLine str = some r := by
    intro lines
    induction lines with
    | nil => exact fun out => ⟨fun _ l hl => (by cases hl), fun _ => ⟨out, rfl⟩⟩
    | cons str lines ih =>
      intro out
      rw [List.foldlM_cons, List.forall_mem_cons]
      cases hline : shapeLine str with
      | none => simp
      | some r =>
        rw [Option.map_some, Option.bind_eq_bind, Option.bind_some, ih]
        simp
  rw [shapeVerilog, key]
  exact forall₂_congr fun str _ => shapeLine_iff str

/-- A line with a Y and nothing that ends a name. -/
theorem shapeVerilog_outside : ¬∃ out, shapeVerilog "wire Y;".toList = some out := by
  intro h
  obtain ⟨out, h⟩ := h
  have hnone : shapeVerilog "wire Y;".toList = none := by decide
  rw [hnone] at h
  cases h

end Msyn.ShapeVerilog
