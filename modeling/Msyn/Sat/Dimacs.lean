import Msyn.Circuit.WriteBlif
import Msyn.Lib.Loop
import Msyn.Lib.MachineInt
import Msyn.Sat.GInterface

/-!
# DIMACS files

`writeDimacs` writes the clauses of a netlist with the indices one higher, since a 0 ends a clause,
and the names of the signals as comments. `addDimacs` reads a file with the parser of Glucose. From
a file that was written so it adds what `addCNF` adds with an offset one higher
(`addDimacs_writeDimacs`). Both add a variable and the offset in an `int`; here the sum has no bound,
so that this is about offsets with which it fits.
-/

namespace Msyn.CNFgen.CNFGenerator

/-- The text that is written to the file. -/
def writeDimacs (g : CNFGenerator) : String :=
  let dimacs := "p cnf " ++ toString g.signals.entries.length ++ " " ++ toString g.clauses.length ++
    "\n"
  let dimacs := g.signals.entries.foldl (fun dimacs sig =>
    dimacs ++ "c " ++ sig.1 ++ " " ++ toString (sig.2 + 1) ++ "\n") dimacs
  g.clauses.foldl (fun dimacs itr => itr.entries.foldl (fun dimacs lit =>
    dimacs ++ (if lit.2 then "" else "-") ++ toString (lit.1 + 1) ++ " ") dimacs ++ "0\n") dimacs

end Msyn.CNFgen.CNFGenerator

namespace Msyn.Glucose

open Nodecircuit.Circuit Cnf CNFgen

/-! ## The parser -/

def isSpace (c : Char) : Bool := (9 ≤ c.toNat && c.toNat ≤ 13) || c.toNat = 32

def skipWhitespace (s : List Char) : List Char := s.dropWhile isSpace

def skipLine : List Char → List Char
  | [] => []
  | c :: s => if c = '\n' then s else skipLine s

/-- `val = val*10 + (*in - '0')` over the digits. -/
def parseDigits : List Char → Int → Int × List Char
  | [], val => (val, [])
  | c :: s, val =>
    if c.isDigit then parseDigits s (toInt (val * 10 + ((c.toNat - 48 : Nat) : Int)))
    else (val, c :: s)

/-- The sign and what is behind it. -/
def parseSign : List Char → Bool × List Char
  | [] => (false, [])
  | c :: s => if c = '-' then (true, s) else if c = '+' then (false, s) else (false, c :: s)

/-- `parseInt`; `none` where it exits with an error. -/
def parseInt (s : List Char) : Option (Int × List Char) :=
  let (neg, s) := parseSign (skipWhitespace s)
  match s with
  | [] => none
  | c :: _ =>
    if c.isDigit then
      let (val, s) := parseDigits s 0
      some (if neg then -val else val, s)
    else none

/-! ## The clauses -/

namespace GInterface

/-- The body of the loop of `readClause2`. A negative variable is no literal. `var` is an `int`, which
the sum has to fit. -/
def readClauseStep (offset : Int) (t : List Char × GInterface × List (Int × Bool)) :
    (List Char × GInterface × List (Int × Bool)) ⊕
      Option (List Char × GInterface × List (Int × Bool)) :=
  let (s, g, lits) := t
  match parseInt s with
  | none => .inr none
  | some (parsedLit, s) =>
    if parsedLit = 0 then .inr (some (s, g, lits))
    else
      let var := |parsedLit| + offset
      if var < 0 then .inr none
      else .inl (s, g.genLit (var, decide (parsedLit > 0)), lits ++ [(var, decide (parsedLit > 0))])

def readClause2 (g : GInterface) (offset : Int) (fuel : Nat) (s : List Char) :
    Option (List Char × GInterface × List (Int × Bool)) :=
  (loop (readClauseStep offset) fuel (s, g, [])).join

/-- The body of the loop of `addDimacs`. -/
def dimacsStep (offset : Int) (fuel : Nat) (t : List Char × GInterface) :
    (List Char × GInterface) ⊕ Option GInterface :=
  let (s, g) := t
  match skipWhitespace s with
  | [] => .inr (some g)
  | c :: s =>
    if c = 'c' ∨ c = 'p' then .inl (skipLine (c :: s), g)
    else
      match g.readClause2 offset fuel (c :: s) with
      | none => .inr none
      | some (s, g, lits) => .inl (s, { g with clauses := g.clauses ++ [lits.map mkLit] })

/-- `addDimacs` on the text of a file; `none` if the parser exits, or a loop has not ended after
`fuel` rounds. -/
def addDimacs (g : GInterface) (file : String) (offset : Int) (fuel : Nat) : Option GInterface :=
  (loop (dimacsStep offset fuel) fuel (file.toList, g)).join

end GInterface

/-! ## Numbers -/

theorem isSpace_digit {c : Char} (h : c.isDigit = true) : isSpace c = false := by
  obtain ⟨h1, h2⟩ := Char.isDigit_iff_toNat.1 h
  have h1 : 48 ≤ c.toNat := h1
  simp only [isSpace, Bool.or_eq_false_iff, Bool.and_eq_false_iff, decide_eq_false_iff_not]
  omega

theorem parseDigits_append {ds rest : List Char} (hds : ∀ c ∈ ds, c.isDigit = true)
    (hrest : ∀ c ∈ rest.head?, c.isDigit = false) (w : Nat) :
    parseDigits (ds ++ rest) (toInt w) = (toInt (Nat.ofDigitChars 10 ds w : Nat), rest) := by
  induction ds generalizing w with
  | nil =>
    cases rest with
    | nil => rfl
    | cons c rest =>
      rw [List.nil_append, parseDigits, hrest c rfl]
      rfl
  | cons c ds ih =>
    have hval : toInt (toInt w * 10 + ((c.toNat - 48 : Nat) : Int)) =
        toInt ((10 * w + (c.toNat - 48) : Nat) : Int) := by
      rw [toInt_mul_add]
      push_cast
      rw [mul_comm]
    rw [List.cons_append, parseDigits, if_pos (hds c List.mem_cons_self), hval,
      ih fun x hx => hds x (List.mem_cons_of_mem c hx)]
    rfl

/-- A literal as `parseInt` reads it. -/
theorem parseInt_literal {n : Nat} (hn : n < 2 ^ 31) (b : Bool) {rest : List Char}
    (hrest : ∀ c ∈ rest.head?, c.isDigit = false) :
    parseInt ((if b then [] else ['-']) ++ (Nat.toDigits 10 n ++ rest)) =
      some (if b then (n : Int) else -n, rest) := by
  have hdigits : ∀ c ∈ Nat.toDigits 10 n, c.isDigit = true := fun c hc =>
    Nat.isDigit_of_mem_toDigits (by decide) (by decide) hc
  have hparse : parseDigits (Nat.toDigits 10 n ++ rest) 0 = ((n : Int), rest) := by
    have h0 : toInt ((0 : Nat) : Int) = 0 := toInt_natCast (by decide)
    have hall := parseDigits_append hdigits hrest 0
    rwa [Nat.ofDigitChars_ten_toDigits, toInt_natCast hn, h0] at hall
  obtain ⟨c, ds, hds⟩ : ∃ c ds, Nat.toDigits 10 n = c :: ds :=
    List.exists_cons_of_ne_nil Nat.toDigits_ne_nil
  have hc : c.isDigit = true := hdigits c (by rw [hds]; exact List.mem_cons_self)
  have hne : c ≠ '-' ∧ c ≠ '+' := by
    constructor
    · rintro rfl
      exact absurd hc (by decide)
    · rintro rfl
      exact absurd hc (by decide)
  have hsign : parseSign (skipWhitespace ((if b then [] else ['-']) ++
      (Nat.toDigits 10 n ++ rest))) = (!b, c :: (ds ++ rest)) := by
    rw [hds]
    cases b with
    | false => rfl
    | true =>
      have hskip : skipWhitespace (c :: (ds ++ rest)) = c :: (ds ++ rest) := by
        rw [skipWhitespace, List.dropWhile_cons_of_neg (by simp [isSpace_digit hc])]
      show parseSign (skipWhitespace (c :: (ds ++ rest))) = _
      rw [hskip, parseSign, if_neg hne.1, if_neg hne.2]
      rfl
  rw [hds, List.cons_append] at hparse
  rw [parseInt, hsign]
  dsimp only
  rw [if_pos hc, hparse]
  cases b <;> rfl

/-- A blank or a newline before a number is skipped. -/
theorem parseInt_space {c : Char} (hc : isSpace c = true) (s : List Char) :
    parseInt (c :: s) = parseInt s := by
  have hskip : skipWhitespace (c :: s) = skipWhitespace s := List.dropWhile_cons_of_pos hc
  rw [parseInt, parseInt, hskip]

/-! ## The lines -/

/-- The text of a literal. -/
def literalChars (l : Nat × Bool) : List Char :=
  (if l.2 then [] else ['-']) ++ (Nat.toDigits 10 (l.1 + 1) ++ [' '])

def clauseChars (cl : OrdMap Nat Bool) : List Char :=
  cl.entries.flatMap literalChars ++ ['0', '\n']

section
variable {offset : Int} (ho : -1 ≤ offset)

/-- The literal that `addCNF` adds. -/
def shiftLit (offset : Int) (l : Nat × Bool) : Int × Bool := ((l.1 : Int) + (offset + 1), l.2)

theorem readClauseStep_space {c : Char} (hc : isSpace c = true) (s : List Char)
    (t : GInterface × List (Int × Bool)) :
    GInterface.readClauseStep offset (c :: s, t) = GInterface.readClauseStep offset (s, t) := by
  simp only [GInterface.readClauseStep, parseInt_space hc]

include ho in
/-- One literal. -/
theorem readClauseStep_literal {l : Nat × Bool} (hl : l.1 + 1 < 2 ^ 31) (s : List Char)
    (g : GInterface) (lits : List (Int × Bool)) :
    GInterface.readClauseStep offset (literalChars l ++ s, g, lits) =
      .inl (' ' :: s, g.genLit (shiftLit offset l), lits ++ [shiftLit offset l]) := by
  have hparse : parseInt (literalChars l ++ s) =
      some (if l.2 then ((l.1 + 1 : Nat) : Int) else -((l.1 + 1 : Nat) : Int), ' ' :: s) := by
    rw [literalChars, List.append_assoc, List.append_assoc, List.singleton_append]
    exact parseInt_literal hl l.2 fun c hc => by
      cases hc
      decide
  obtain ⟨z, hz, hz0, habs, hpos⟩ : ∃ z : Int,
      (if l.2 then ((l.1 + 1 : Nat) : Int) else -((l.1 + 1 : Nat) : Int)) = z ∧ z ≠ 0 ∧
        |z| = (l.1 : Int) + 1 ∧ decide (z > 0) = l.2 := by
    refine ⟨_, rfl, ?_⟩
    cases l.2 with
    | false =>
      rw [if_neg Bool.false_ne_true, abs_neg, Nat.abs_cast]
      exact ⟨by omega, by omega, decide_eq_false (by omega)⟩
    | true =>
      rw [if_pos rfl, Nat.abs_cast]
      exact ⟨by omega, by omega, decide_eq_true (by omega)⟩
  have hvar : |z| + offset = (l.1 : Int) + (offset + 1) := by omega
  rw [hz] at hparse
  unfold GInterface.readClauseStep
  dsimp only
  rw [hparse]
  dsimp only
  rw [if_neg hz0, hvar, if_neg (by omega), hpos]
  rfl

theorem readClauseStep_zero (s : List Char) (g : GInterface) (lits : List (Int × Bool)) :
    GInterface.readClauseStep offset ('0' :: '\n' :: s, g, lits) =
      .inr (some ('\n' :: s, g, lits)) := by
  have hparse : parseInt ('0' :: '\n' :: s) = some (0, '\n' :: s) := by
    have hend : ∀ c ∈ ('\n' :: s).head?, c.isDigit = false := by
      intro c hc
      cases hc
      decide
    have h0 := parseInt_literal (Nat.two_pow_pos 31) true hend
    rwa [Nat.toDigits_zero] at h0
  unfold GInterface.readClauseStep
  dsimp only
  rw [hparse]
  exact if_pos rfl

include ho in
/-- **The literals of a clause.** -/
theorem loop_readClause (ls : List (Nat × Bool)) (hls : ∀ l ∈ ls, l.1 + 1 < 2 ^ 31) (s : List Char)
    (g : GInterface) (lits : List (Int × Bool)) (k : Nat) :
    loop (GInterface.readClauseStep offset) (ls.length + k + 1)
      (ls.flatMap literalChars ++ '0' :: '\n' :: s, g, lits) =
        some (some ('\n' :: s, (ls.map (shiftLit offset)).foldl GInterface.genLit g,
          lits ++ ls.map (shiftLit offset))) := by
  induction ls generalizing g lits with
  | nil =>
    rw [List.flatMap_nil, List.nil_append, loop_leave _ (readClauseStep_zero s g lits),
      List.map_nil, List.append_nil]
    rfl
  | cons l ls ih =>
    have hstep := readClauseStep_literal ho (hls l List.mem_cons_self)
      (ls.flatMap literalChars ++ '0' :: '\n' :: s) g lits
    have hlen : (l :: ls).length + k + 1 = ls.length + k + 1 + 1 := by
      rw [List.length_cons]
      omega
    rw [List.flatMap_cons, List.append_assoc, hlen, loop_stay _ hstep]
    have hblank : ∀ n t, loop (GInterface.readClauseStep offset) (n + 1) (' ' :: t.1, t.2) =
        loop (GInterface.readClauseStep offset) (n + 1) t := by
      intro n t
      rw [loop, loop, readClauseStep_space rfl]
    rw [hblank _ (_, _), ih (fun x hx => hls x (List.mem_cons_of_mem l hx)), List.append_assoc]
    rfl

include ho in
theorem readClause2_clause {cl : OrdMap Nat Bool} (hcl : ∀ l ∈ cl.entries, l.1 + 1 < 2 ^ 31)
    {fuel : Nat} (hf : cl.entries.length < fuel) (s : List Char) (g : GInterface) :
    g.readClause2 offset fuel (clauseChars cl ++ s) =
      some ('\n' :: s, (cl.entries.map (shiftLit offset)).foldl GInterface.genLit g,
        cl.entries.map (shiftLit offset)) := by
  obtain ⟨k, rfl⟩ : ∃ k, fuel = cl.entries.length + k + 1 :=
    ⟨fuel - cl.entries.length - 1, by omega⟩
  rw [GInterface.readClause2, clauseChars, List.append_assoc]
  show (loop _ _ (_ ++ '0' :: '\n' :: s, g, [])).join = _
  rw [loop_readClause ho _ hcl]
  rfl

theorem dimacsStep_space {c : Char} (hc : isSpace c = true) (s : List Char) (g : GInterface)
    (fuel : Nat) :
    GInterface.dimacsStep offset fuel (c :: s, g) = GInterface.dimacsStep offset fuel (s, g) := by
  have hskip : skipWhitespace (c :: s) = skipWhitespace s := List.dropWhile_cons_of_pos hc
  simp only [GInterface.dimacsStep, hskip]

theorem skipLine_append {l : List Char} (hl : '\n' ∉ l) (s : List Char) :
    skipLine (l ++ '\n' :: s) = s := by
  induction l with
  | nil => exact if_pos rfl
  | cons c l ih =>
    rw [List.mem_cons, not_or] at hl
    rw [List.cons_append, skipLine, if_neg (Ne.symm hl.1), ih hl.2]

/-- A line that `addDimacs` skips. -/
structure IsComment (l : List Char) : Prop where
  head : l.head? = some 'c' ∨ l.head? = some 'p'
  line : '\n' ∉ l

theorem dimacsStep_comment {l : List Char} (h : IsComment l) (s : List Char) (g : GInterface)
    (fuel : Nat) : GInterface.dimacsStep offset fuel (l ++ '\n' :: s, g) = .inl (s, g) := by
  cases l with
  | nil => rcases h.head with h | h <;> cases h
  | cons c l =>
    have hc : c = 'c' ∨ c = 'p' := h.head.imp Option.some.inj Option.some.inj
    have hskip : skipWhitespace (c :: l ++ '\n' :: s) = c :: l ++ '\n' :: s := by
      apply List.dropWhile_cons_of_neg
      rcases hc with rfl | rfl <;> decide
    unfold GInterface.dimacsStep
    dsimp only
    rw [hskip, List.cons_append]
    dsimp only
    rw [if_pos hc, ← List.cons_append, skipLine_append h.line]

/-- A clause begins with a sign or a digit. -/
theorem clauseChars_head (cl : OrdMap Nat Bool) :
    ∃ c cs, clauseChars cl = c :: cs ∧ (c = '-' ∨ c.isDigit = true) := by
  unfold clauseChars
  cases cl.entries with
  | nil => exact ⟨'0', ['\n'], rfl, .inr (by decide)⟩
  | cons l ls =>
    rw [List.flatMap_cons, literalChars]
    obtain ⟨c, ds, hds⟩ : ∃ c ds, Nat.toDigits 10 (l.1 + 1) = c :: ds :=
      List.exists_cons_of_ne_nil Nat.toDigits_ne_nil
    have hc : c.isDigit = true := Nat.isDigit_of_mem_toDigits (b := 10) (n := l.1 + 1) (by decide)
      (by decide) (by rw [hds]; exact List.mem_cons_self)
    rw [hds]
    cases l.2 with
    | false => exact ⟨'-', _, rfl, .inl rfl⟩
    | true => exact ⟨c, _, rfl, .inr hc⟩

include ho in
theorem dimacsStep_clause {cl : OrdMap Nat Bool} (hcl : ∀ l ∈ cl.entries, l.1 + 1 < 2 ^ 31)
    {fuel : Nat} (hf : cl.entries.length < fuel) (s : List Char) (g : GInterface) :
    GInterface.dimacsStep offset fuel (clauseChars cl ++ s, g) =
      .inl ('\n' :: s, g.addClause (cl.entries.map (shiftLit offset))) := by
  obtain ⟨c, cs, hhead, hc⟩ := clauseChars_head cl
  have hread := readClause2_clause ho hcl hf s g
  rw [hhead, List.cons_append] at hread ⊢
  have hspace : isSpace c = false := by
    rcases hc with rfl | hc
    · decide
    · exact isSpace_digit hc
  have hskip : skipWhitespace (c :: (cs ++ s)) = c :: (cs ++ s) := by
    rw [skipWhitespace, List.dropWhile_cons_of_neg (by simp [hspace])]
  have hne : ¬(c = 'c' ∨ c = 'p') := by
    rintro (rfl | rfl)
    · exact absurd hc (by decide)
    · exact absurd hc (by decide)
  unfold GInterface.dimacsStep
  dsimp only
  rw [hskip]
  dsimp only
  rw [if_neg hne, hread]
  rfl

/-! ## The file -/

theorem loop_comments (ls : List (List Char)) (hls : ∀ l ∈ ls, IsComment l) (s : List Char)
    (g : GInterface) (fuel k : Nat) :
    loop (GInterface.dimacsStep offset fuel) (ls.length + k)
      (ls.flatMap (· ++ ['\n']) ++ s, g) = loop (GInterface.dimacsStep offset fuel) k (s, g) := by
  induction ls with
  | nil => simp
  | cons l ls ih =>
    have hlen : (l :: ls).length + k = ls.length + k + 1 := by
      rw [List.length_cons]
      omega
    rw [List.flatMap_cons, List.append_assoc, List.append_assoc, hlen, List.singleton_append,
      loop_stay _ (dimacsStep_comment (hls l List.mem_cons_self) _ g fuel),
      ih fun x hx => hls x (List.mem_cons_of_mem l hx)]

include ho in
/-- **The clauses of a file.** -/
theorem loop_clauses (cls : List (OrdMap Nat Bool))
    (hcls : ∀ cl ∈ cls, ∀ l ∈ cl.entries, l.1 + 1 < 2 ^ 31) {fuel : Nat}
    (hf : ∀ cl ∈ cls, cl.entries.length < fuel) (g : GInterface) (k : Nat) :
    loop (GInterface.dimacsStep offset fuel) (cls.length + k + 1) (cls.flatMap clauseChars, g) =
      some (some (cls.foldl (fun g cl => g.addClause (cl.entries.map (shiftLit offset))) g)) := by
  induction cls generalizing g with
  | nil => rfl
  | cons cl cls ih =>
    have hlen : (cl :: cls).length + k + 1 = cls.length + k + 1 + 1 := by
      rw [List.length_cons]
      omega
    have hstep := dimacsStep_clause ho (hcls cl List.mem_cons_self) (hf cl List.mem_cons_self)
      (cls.flatMap clauseChars) g
    have hnewline : ∀ n t, loop (GInterface.dimacsStep offset fuel) (n + 1) ('\n' :: t.1, t.2) =
        loop (GInterface.dimacsStep offset fuel) (n + 1) t := by
      intro n t
      rw [loop, loop, dimacsStep_space rfl]
    rw [List.flatMap_cons, hlen, loop_stay _ hstep, hnewline _ (_, _),
      ih (fun x hx => hcls x (List.mem_cons_of_mem cl hx))
        fun x hx => hf x (List.mem_cons_of_mem cl hx)]
    rfl

end

/-- The comments of the names. -/
def nameLines (g : CNFGenerator) : List (List Char) :=
  g.signals.entries.map fun sig =>
    "c ".toList ++ (sig.1.toList ++ (' ' :: Nat.toDigits 10 (sig.2 + 1)))

def headerLine (g : CNFGenerator) : List Char :=
  "p cnf ".toList ++ (Nat.toDigits 10 g.signals.entries.length ++
    (' ' :: Nat.toDigits 10 g.clauses.length))

theorem toList_literals (ls : List (Nat × Bool)) (out : String) :
    (ls.foldl (fun dimacs lit =>
      dimacs ++ (if lit.2 then "" else "-") ++ toString (lit.1 + 1) ++ " ") out).toList =
        out.toList ++ ls.flatMap literalChars := by
  have hminus : "-".toList = ['-'] := by decide
  induction ls generalizing out with
  | nil => simp
  | cons l ls ih =>
    rw [List.foldl_cons, ih, List.flatMap_cons, literalChars, ← List.append_assoc]
    cases l.2 <;> simp [hminus, toList_blank]

theorem toList_clauses (cls : List (OrdMap Nat Bool)) (out : String) :
    (cls.foldl (fun dimacs itr => itr.entries.foldl (fun dimacs lit =>
      dimacs ++ (if lit.2 then "" else "-") ++ toString (lit.1 + 1) ++ " ") dimacs ++ "0\n")
        out).toList = out.toList ++ cls.flatMap clauseChars := by
  have hzero : "0\n".toList = ['0', '\n'] := by decide
  induction cls generalizing out with
  | nil => simp
  | cons cl cls ih =>
    rw [List.foldl_cons, ih, String.toList_append, toList_literals, hzero, List.flatMap_cons,
      clauseChars, List.append_assoc, List.append_assoc, List.append_assoc]

theorem toList_names (sigs : List (Sigma fun _ : String => Nat)) (out : String) :
    (sigs.foldl (fun dimacs sig =>
      dimacs ++ "c " ++ sig.1 ++ " " ++ toString (sig.2 + 1) ++ "\n") out).toList =
        out.toList ++ (sigs.map fun sig => "c ".toList ++ (sig.1.toList ++
          (' ' :: Nat.toDigits 10 (sig.2 + 1)))).flatMap (· ++ ['\n']) := by
  induction sigs generalizing out with
  | nil => simp
  | cons sig sigs ih =>
    rw [List.foldl_cons, ih, List.map_cons, List.flatMap_cons, ← List.append_assoc]
    simp [toList_blank, toList_endl]

theorem toList_writeDimacs (g : CNFGenerator) : g.writeDimacs.toList =
    (headerLine g :: nameLines g).flatMap (· ++ ['\n']) ++ g.clauses.flatMap clauseChars := by
  rw [CNFGenerator.writeDimacs, toList_clauses, toList_names, List.flatMap_cons, nameLines,
    headerLine]
  simp [toList_blank, toList_endl]

theorem digits_no_newline (n : Nat) : '\n' ∉ Nat.toDigits 10 n := by
  intro hmem
  exact absurd (Nat.isDigit_of_mem_toDigits (by decide) (by decide) hmem) (by decide)

/-- **A DIMACS file** that was written from a netlist is read as its clauses, where the offset is
one higher than for `addCNF`. -/
theorem addDimacs_writeDimacs (g : GInterface) (cnf : CNFGenerator) {offset : Int}
    (ho : -1 ≤ offset) (hnames : ∀ sig ∈ cnf.signals.entries, '\n' ∉ sig.1.toList)
    (hlt : ∀ cl ∈ cnf.clauses, ∀ l ∈ cl.entries, l.1 + 1 < 2 ^ 31) :
    ∃ fuel, g.addDimacs cnf.writeDimacs offset fuel = some (g.addCNF cnf (offset + 1)) := by
  have hc : "c ".toList = ['c', ' '] := by decide
  have hp : "p cnf ".toList = ['p', ' ', 'c', 'n', 'f', ' '] := by decide
  have hcomments : ∀ l ∈ headerLine cnf :: nameLines cnf, IsComment l := by
    intro l hl
    rcases List.mem_cons.1 hl with rfl | hl
    · rw [headerLine, hp]
      refine ⟨.inr rfl, ?_⟩
      simp [digits_no_newline]
    · obtain ⟨sig, hsig, rfl⟩ := List.mem_map.1 hl
      rw [hc]
      refine ⟨.inl rfl, ?_⟩
      simp [digits_no_newline, hnames sig hsig]
  -- enough fuel for the longest clause and for the lines
  obtain ⟨m, hm⟩ : ∃ m, ∀ cl ∈ cnf.clauses, cl.entries.length < m :=
    exists_fuel (fun _ _ _ hnm h => h.trans_le hnm) fun cl _ => ⟨_, Nat.lt_succ_self _⟩
  refine ⟨(headerLine cnf :: nameLines cnf).length + (cnf.clauses.length + m + 1), ?_⟩
  rw [GInterface.addDimacs, toList_writeDimacs, loop_comments _ hcomments,
    loop_clauses ho _ hlt (fun cl hcl => by
      have := hm cl hcl
      omega)]
  rfl

/-- The netlist of a buffer. -/
def bufferNetlist : Netlist :=
  { pis := ["a"], pos := ["b"], nodes := [{ fanins := ["a"], fanout := "b", data := "1 1\n" }] }

example : (CNFGenerator.abc2Cnf2 bufferNetlist).writeDimacs =
    "p cnf 2 2\nc b 2\nc a 1\n-1 2 0\n1 -2 0\n" := by decide

theorem addDimacs_writeDimacs_buffer : ∃ fuel,
    ({} : GInterface).addDimacs (CNFGenerator.abc2Cnf2 bufferNetlist).writeDimacs (-1) fuel =
      some (({} : GInterface).addCNF (CNFGenerator.abc2Cnf2 bufferNetlist) (-1 + 1)) :=
  addDimacs_writeDimacs {} (CNFGenerator.abc2Cnf2 bufferNetlist) (by decide) (by decide) (by decide)

end Msyn.Glucose
