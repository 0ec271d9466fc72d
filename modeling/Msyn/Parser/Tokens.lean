import Msyn.Parser.Lexer

/-!
# Tokens

What a text is cut into does not depend on the modes: the scanner yields a list of tokens
(`tokens`), and `lex` is the run of the actions over it (`lex_eq`). A piece of text is a token where
the scanner stops right after it (`tokens_append`); the last section has the pieces that a BLIF file
is made of.
-/

namespace Msyn.Parser

open Nodecircuit

/-- A rule and the text that it matched. -/
abbrev Token := Nat × String

/-- The first `fuel` tokens. -/
def tokensF : Nat → List Char → List Token
  | _, [] => []
  | 0, _ :: _ => []
  | fuel + 1, ch :: text =>
    let taken := scan (ch :: text)
    (taken.1, String.ofList ((ch :: text).take taken.2)) :: tokensF fuel ((ch :: text).drop taken.2)

/-- The tokens of a text. -/
def tokens (text : List Char) : List Token := tokensF text.length text

/-- The action of a token. -/
def Lexer.step (l : Lexer) (t : Token) : Option Lexer := l.action t.1 t.2

theorem tokensF_eq : ∀ {fuel fuel' : Nat} {text : List Char}, text.length ≤ fuel →
    text.length ≤ fuel' → tokensF fuel text = tokensF fuel' text
  | fuel, fuel', [], _, _ => by cases fuel <;> cases fuel' <;> rfl
  | 0, _, _ :: _, h, _ => by simp at h
  | _, 0, _ :: _, _, h => by simp at h
  | fuel + 1, fuel' + 1, ch :: text, h, h' => by
    have hpos := scan_pos ch text
    have hlen := List.length_drop (i := (scan (ch :: text)).2) (l := ch :: text)
    simp only [List.length_cons] at h h' hlen
    rw [tokensF, tokensF, @tokensF_eq fuel fuel' _ (by omega) (by omega)]

theorem tokens_cons (ch : Char) (text : List Char) : tokens (ch :: text) =
    ((scan (ch :: text)).1, String.ofList ((ch :: text).take (scan (ch :: text)).2)) ::
      tokens ((ch :: text).drop (scan (ch :: text)).2) := by
  have hpos := scan_pos ch text
  have hlen := List.length_drop (i := (scan (ch :: text)).2) (l := ch :: text)
  simp only [List.length_cons] at hlen
  show tokensF (text.length + 1) (ch :: text) = _
  rw [tokensF, tokens, @tokensF_eq _ ((ch :: text).drop (scan (ch :: text)).2).length _
    (by omega) le_rfl]

/-- **A piece of text is a token** where the scanner stops after it. -/
theorem tokens_append {piece rest : List Char} {rule : Nat} (hne : piece ≠ [])
    (h : scan (piece ++ rest) = (rule, piece.length)) :
    tokens (piece ++ rest) = (rule, String.ofList piece) :: tokens rest := by
  obtain ⟨ch, cs, rfl⟩ := List.exists_cons_of_ne_nil hne
  rw [List.cons_append] at h ⊢
  rw [tokens_cons, h, ← List.cons_append, List.take_left, List.drop_left]

theorem lexF_eq : ∀ {fuel : Nat} {text : List Char} {l : Lexer}, text.length ≤ fuel →
    lexF fuel text l = (tokens text).foldlM Lexer.step l
  | fuel, [], l, _ => by cases fuel <;> rfl
  | 0, _ :: _, _, h => by simp at h
  | fuel + 1, ch :: text, l, h => by
    have hpos := scan_pos ch text
    have hlen := List.length_drop (i := (scan (ch :: text)).2) (l := ch :: text)
    simp only [List.length_cons] at h hlen
    rw [lexF, tokens_cons, List.foldlM_cons]
    refine bind_congr fun l' => ?_
    exact lexF_eq (by omega)

/-- **The lexer runs the actions of the tokens.** -/
theorem lex_eq (text : String) : lex text = (tokens text.toList).foldlM Lexer.step .init :=
  lexF_eq (by rw [String.length_toList])

/-! ## Lines -/

theorem tokens_newline (rest : List Char) : tokens ('\n' :: rest) = (7, "\n") :: tokens rest :=
  @tokens_append ['\n'] rest 7 (by simp) (by cases rest <;> rfl)

/-- No token goes on after a newline. -/
theorem goto_newline (s : FsmState) : s.goto '\n' = none ∨ s.goto '\n' = some .S21 := by
  cases s <;> decide

theorem scanFrom_newline (p q : List Char) {n : Nat} {taken : Nat × Nat} {s : FsmState} :
    scanFrom n taken s (p ++ '\n' :: q) = scanFrom n taken s (p ++ ['\n']) := by
  induction p generalizing n taken s with
  | nil =>
    rw [List.nil_append, List.nil_append, scanFrom, scanFrom]
    rcases goto_newline s with h | h
    · rw [h]
    · rw [h]
      cases q <;> rfl
  | cons ch p ih =>
    rw [List.cons_append, List.cons_append, scanFrom, scanFrom]
    cases s.goto ch with
    | none => rfl
    | some s' => exact ih

theorem scanFrom_le {m : Nat} : ∀ {text : List Char} {n : Nat} {taken : Nat × Nat} {s : FsmState},
    n + text.length ≤ m → taken.2 ≤ m → (scanFrom n taken s text).2 ≤ m
  | [], n, taken, s, hn, ht => by
    rw [scanFrom]
    split
    · exact ht
    · exact hn
  | ch :: text, n, taken, s, hn, ht => by
    have htaken : (if s.take = 0 then taken else (s.take, n)).2 ≤ m := by
      split
      · exact ht
      · exact (Nat.le_add_right _ _).trans hn
    rw [scanFrom]
    cases s.goto ch with
    | none => exact htaken
    | some s' => exact scanFrom_le (by rw [List.length_cons] at hn; omega) htaken

/-- A match is a part of the text. -/
theorem scan_le (text : List Char) : (scan text).2 ≤ text.length :=
  scanFrom_le (Nat.zero_add _).le (Nat.zero_le _)

/-- **A text is cut at the end of a line.** -/
theorem tokens_line_end (p q : List Char) :
    tokens (p ++ '\n' :: q) = tokens (p ++ ['\n']) ++ tokens q := by
  induction hlen : p.length using Nat.strong_induction_on generalizing p with
  | _ len ih =>
    cases p with
    | nil =>
      rw [List.nil_append, List.nil_append, tokens_newline, tokens_newline]
      rfl
    | cons ch p =>
      have hscan : scan (ch :: p ++ '\n' :: q) = scan (ch :: p ++ ['\n']) := scanFrom_newline _ _
      have hpos := scan_pos ch (p ++ ['\n'])
      have hle := scan_le (ch :: p ++ ['\n'])
      rw [List.cons_append] at hscan hle
      rw [List.cons_append, List.cons_append, tokens_cons, tokens_cons, hscan, List.cons_append]
      rw [List.cons_append] at hscan
      generalize (scan (ch :: (p ++ ['\n']))).2 = k at hpos hle ⊢
      simp only [List.length_cons, List.length_append, List.length_nil] at hle hlen
      rw [← List.cons_append, ← List.cons_append]
      by_cases hk : k ≤ p.length + 1
      · -- the match ends before the newline
        have hlt : ((ch :: p).drop k).length < len := by
          rw [List.length_drop, List.length_cons]
          omega
        rw [List.take_append_of_le_length hk, List.take_append_of_le_length hk,
          List.drop_append_of_le_length hk, List.drop_append_of_le_length hk,
          ih _ hlt _ rfl]
        rfl
      · -- the newline is the end of the match
        have hk : k = (ch :: p ++ ['\n']).length := by
          simp only [List.length_append, List.length_cons, List.length_nil]
          omega
        have hcut : ch :: p ++ '\n' :: q = (ch :: p ++ ['\n']) ++ q := by simp
        rw [hcut, hk, List.take_left, List.drop_left, List.take_length, List.drop_length]
        rfl

theorem scanFrom_last {rule k : Nat} : ∀ {p : List Char} {n : Nat} {taken : Nat × Nat}
    {s : FsmState}, taken.2 ≤ n → scanFrom n taken s (p ++ ['\n']) = (rule, k) →
      k = n + p.length + 1 → rule = 7
  | [], n, taken, s, ht, h, hk => by
    have htaken : (if s.take = 0 then taken else (s.take, n)).2 ≤ n := by
      split
      · exact ht
      · exact le_rfl
    rw [List.nil_append, scanFrom] at h
    rcases goto_newline s with hs | hs
    · rw [hs] at h
      simp only at h
      rw [h, hk, List.length_nil] at htaken
      omega
    · rw [hs] at h
      cases h
      rfl
  | ch :: p, n, taken, s, ht, h, hk => by
    have htaken : (if s.take = 0 then taken else (s.take, n)).2 ≤ n := by
      split
      · exact ht
      · exact le_rfl
    rw [List.length_cons] at hk
    rw [List.cons_append, scanFrom] at h
    cases hs : s.goto ch with
    | none =>
      rw [hs] at h
      simp only at h
      rw [h, hk] at htaken
      omega
    | some s' =>
      rw [hs] at h
      exact scanFrom_last (htaken.trans (Nat.le_succ n)) h (by omega)

/-- The last token of a line is its end. -/
theorem tokens_last (p : List Char) : ∃ ts e, tokens (p ++ ['\n']) = ts ++ [(7, e)] := by
  induction hlen : p.length using Nat.strong_induction_on generalizing p with
  | _ len ih =>
    cases p with
    | nil => exact ⟨[], "\n", tokens_newline []⟩
    | cons ch p =>
      have hpos := scan_pos ch (p ++ ['\n'])
      have hle := scan_le (ch :: (p ++ ['\n']))
      rw [List.cons_append, tokens_cons]
      obtain ⟨rule, k, hscan⟩ : ∃ rule k, scan (ch :: (p ++ ['\n'])) = (rule, k) := ⟨_, _, rfl⟩
      rw [hscan] at hpos hle ⊢
      simp only [List.length_cons, List.length_append, List.length_nil] at hpos hle hlen ⊢
      rw [← List.cons_append] at hscan ⊢
      by_cases hk : k ≤ p.length + 1
      · have hlt : ((ch :: p).drop k).length < len := by
          rw [List.length_drop, List.length_cons]
          omega
        obtain ⟨ts, e, hts⟩ := ih _ hlt _ rfl
        rw [List.drop_append_of_le_length hk, hts]
        exact ⟨_ :: ts, e, rfl⟩
      · have hrule : rule = 7 :=
          scanFrom_last (Nat.zero_le 0) hscan (by rw [List.length_cons]; omega)
        have hdrop : (ch :: p ++ ['\n']).drop k = [] := List.drop_eq_nil_of_le (by
          simp only [List.length_append, List.length_cons, List.length_nil]
          omega)
        rw [hdrop, hrule]
        exact ⟨[], _, rfl⟩

/-- A text that is empty or ends with a newline. -/
def Ended (p : List Char) : Prop := p = [] ∨ p.getLast? = some '\n'

theorem Ended.tokens_append {p : List Char} (h : Ended p) (q : List Char) :
    tokens (p ++ q) = tokens p ++ tokens q := by
  rcases h with rfl | h
  · rfl
  · obtain ⟨p', rfl⟩ := List.getLast?_eq_some_iff.1 h
    rw [List.append_assoc, List.singleton_append]
    exact tokens_line_end p' q

/-! ## Pieces of a BLIF file -/

/-- A character after the first one of a name, `[A-z0-9_]`. -/
def IdChar (ch : Char) : Prop := 'A' ≤ ch ∧ ch ≤ 'z' ∨ '0' ≤ ch ∧ ch ≤ '9'

instance (ch : Char) : Decidable (IdChar ch) := inferInstanceAs (Decidable (_ ∨ _))

/-- A text of the pattern `id`. -/
def IsId (s : List Char) : Prop :=
  ∃ ch cs, s = ch :: cs ∧ ('a' ≤ ch ∧ ch ≤ 'z' ∨ 'A' ≤ ch ∧ ch ≤ 'Z') ∧ ∀ ch ∈ cs, IdChar ch

/-- A text of the pattern `array`, `[01-]*[ \t][01]`. -/
def IsLine (s : List Char) : Prop :=
  ∃ plane blank out, s = plane ++ [blank, out] ∧ (∀ ch ∈ plane, ch = '0' ∨ ch = '1' ∨ ch = '-') ∧
    (blank = ' ' ∨ blank = '\t') ∧ (out = '0' ∨ out = '1')

theorem goto_id {s : FsmState} (hs : s = .S17 ∨ s = .S47) (ch : Char) :
    s.take = 6 ∧ s.goto ch = if IdChar ch then some .S47 else none := by
  have key : (if 'A' ≤ ch ∧ ch ≤ 'z' then some FsmState.S47
      else if '0' ≤ ch ∧ ch ≤ '9' then some .S47 else none) =
        if IdChar ch then some .S47 else none := by
    by_cases h1 : 'A' ≤ ch ∧ ch ≤ 'z'
    · rw [if_pos h1, if_pos (show IdChar ch from .inl h1)]
    · by_cases h2 : '0' ≤ ch ∧ ch ≤ '9'
      · rw [if_neg h1, if_pos h2, if_pos (show IdChar ch from .inr h2)]
      · rw [if_neg h1, if_neg h2, if_neg fun h => h.elim h1 h2]
  rcases hs with rfl | rfl <;> exact ⟨rfl, key⟩

theorem scanFrom_id {cs rest : List Char} {n : Nat} {taken : Nat × Nat} {s : FsmState}
    (hs : s = .S17 ∨ s = .S47) (hcs : ∀ ch ∈ cs, IdChar ch) (hrest : ∀ ch ∈ rest.head?, ¬ IdChar ch) :
    scanFrom n taken s (cs ++ rest) = (6, n + cs.length) := by
  induction cs generalizing n taken s with
  | nil =>
    cases rest with
    | nil => simp [scanFrom, (goto_id hs ' ').1]
    | cons ch rest =>
      obtain ⟨h1, h2⟩ := goto_id hs ch
      rw [if_neg (hrest ch rfl)] at h2
      simp [scanFrom, h1, h2]
  | cons ch cs ih =>
    obtain ⟨-, h2⟩ := goto_id hs ch
    rw [if_pos (hcs ch (by simp))] at h2
    rw [List.cons_append, scanFrom, h2]
    simp only
    rw [ih (.inr rfl) fun x hx => hcs x (by simp [hx]), List.length_cons]
    congr 1
    omega

/-- A name, up to a character that does not continue it. -/
theorem tokens_id {s rest : List Char} (hs : IsId s) (hrest : ∀ ch ∈ rest.head?, ¬ IdChar ch) :
    tokens (s ++ rest) = (6, String.ofList s) :: tokens rest := by
  obtain ⟨ch, cs, rfl, hch, hcs⟩ := hs
  refine tokens_append (List.cons_ne_nil _ _) ?_
  have hgo : FsmState.S0.goto ch = some .S17 := by
    dsimp only [FsmState.goto]
    by_cases h1 : 'a' ≤ ch ∧ ch ≤ 'z'
    · rw [if_pos h1]
    · rw [if_neg h1, if_pos (hch.resolve_left h1)]
  rw [List.cons_append, scan, scanFrom, hgo]
  simp only
  rw [scanFrom_id (.inl rfl) hcs hrest, List.length_cons]
  congr 1
  omega

/-- The end of a match of `array`. -/
theorem scanFrom_out (n : Nat) (taken : Nat × Nat) (rest : List Char) :
    scanFrom n taken .S51 rest = (8, n) := by
  cases rest <;> rfl

theorem goto_out {s : FsmState} (hs : s = .S23 ∨ s = .S53) {out : Char} (ho : out = '0' ∨ out = '1') :
    s.goto out = some .S51 := by
  rcases hs with rfl | rfl <;> rcases ho with rfl | rfl <;> rfl

theorem goto_plane {s : FsmState} (hs : s = .S31 ∨ s = .S55) (ch : Char) :
    ((ch = '0' ∨ ch = '1' ∨ ch = '-') → s.goto ch = some .S55) ∧
      ((ch = ' ' ∨ ch = '\t') → s.goto ch = some .S53) := by
  constructor
  · rcases hs with rfl | rfl <;> rintro (rfl | rfl | rfl) <;> rfl
  · rcases hs with rfl | rfl <;> rintro (rfl | rfl) <;> rfl

theorem scanFrom_line {plane : List Char} {blank out : Char} (rest : List Char) {n : Nat}
    {taken : Nat × Nat} {s : FsmState} (hs : s = .S31 ∨ s = .S55)
    (hp : ∀ ch ∈ plane, ch = '0' ∨ ch = '1' ∨ ch = '-') (hb : blank = ' ' ∨ blank = '\t')
    (ho : out = '0' ∨ out = '1') :
    scanFrom n taken s (plane ++ blank :: out :: rest) = (8, n + plane.length + 2) := by
  induction plane generalizing n taken s with
  | nil =>
    rw [List.nil_append, scanFrom, (goto_plane hs blank).2 hb]
    simp only
    rw [scanFrom, goto_out (.inr rfl) ho]
    exact scanFrom_out _ _ _
  | cons ch plane ih =>
    rw [List.cons_append, scanFrom, (goto_plane hs ch).1 (hp ch (by simp))]
    simp only
    rw [ih (.inr rfl) fun x hx => hp x (by simp [hx]), List.length_cons]
    congr 1
    omega

/-- A line of a cover, whatever comes after it. -/
theorem tokens_line {s : List Char} (hs : IsLine s) (rest : List Char) :
    tokens (s ++ rest) = (8, String.ofList s) :: tokens rest := by
  obtain ⟨plane, blank, out, rfl, hp, hb, ho⟩ := hs
  refine tokens_append (by simp) ?_
  rw [List.append_assoc, List.cons_append, List.singleton_append]
  cases plane with
  | nil =>
    have hgo : FsmState.S0.goto blank = some .S23 := by rcases hb with rfl | rfl <;> rfl
    rw [List.nil_append, scan, scanFrom, hgo]
    simp only
    rw [scanFrom, goto_out (.inl rfl) ho]
    exact scanFrom_out _ _ _
  | cons ch plane =>
    have hgo : FsmState.S0.goto ch = some .S31 := by
      rcases hp ch (by simp) with rfl | rfl | rfl <;> rfl
    rw [List.cons_append, scan, scanFrom, hgo]
    simp only
    rw [scanFrom_line rest (.inl rfl) (fun x hx => hp x (by simp [hx])) hb ho]
    simp only [List.length_append, List.length_cons, List.length_nil]
    congr 1
    omega

section
variable (rest : List Char)

theorem tokens_backslash : tokens ('\\' :: rest) = (9, "\\") :: tokens rest :=
  @tokens_append ['\\'] rest 9 (by simp) (by cases rest <;> rfl)

theorem tokens_model : tokens (['.', 'm', 'o', 'd', 'e', 'l'] ++ rest) = (2, ".model") :: tokens rest :=
  tokens_append (by simp) (by cases rest <;> rfl)

theorem tokens_outputs : tokens (['.', 'o', 'u', 't', 'p', 'u', 't', 's'] ++ rest) =
    (3, ".outputs") :: tokens rest :=
  tokens_append (by simp) (by cases rest <;> rfl)

theorem tokens_inputs : tokens (['.', 'i', 'n', 'p', 'u', 't', 's'] ++ rest) =
    (4, ".inputs") :: tokens rest :=
  tokens_append (by simp) (by cases rest <;> rfl)

theorem tokens_names : tokens (['.', 'n', 'a', 'm', 'e', 's'] ++ rest) = (5, ".names") :: tokens rest :=
  tokens_append (by simp) (by cases rest <;> rfl)

theorem tokens_end : tokens (['.', 'e', 'n', 'd'] ++ rest) = (1, ".end") :: tokens rest :=
  tokens_append (by simp) (by cases rest <;> rfl)

variable {rest}

/-- A blank, unless it starts a line of a cover. -/
theorem tokens_blank {blank : Char} (hb : blank = ' ' ∨ blank = '\t')
    (h : ∀ ch ∈ rest.head?, ch ≠ '0' ∧ ch ≠ '1') :
    tokens (blank :: rest) = (9, String.ofList [blank]) :: tokens rest := by
  have hstart : FsmState.S0.goto blank = some .S23 := by rcases hb with rfl | rfl <;> rfl
  refine @tokens_append [blank] rest 9 (by simp) ?_
  rw [scan, List.cons_append, scanFrom, hstart]
  cases rest with
  | nil => rfl
  | cons ch rest =>
    obtain ⟨h0, h1⟩ := h ch rfl
    have hgo : FsmState.S23.goto ch = none := by
      refine if_neg fun hbit => ?_
      obtain ⟨h2, h3⟩ := hbit
      have h2 : 48 ≤ ch.val.toNat := h2
      have h3 : ch.val.toNat ≤ 49 := h3
      have hval : ∀ d : Char, ch ≠ d → ch.val.toNat ≠ d.val.toNat := fun d hne he =>
        hne (Char.ext (UInt32.toNat_inj.1 he))
      have h4 : ch.val.toNat ≠ 48 := hval '0' h0
      have h5 : ch.val.toNat ≠ 49 := hval '1' h1
      omega
    simp only
    rw [List.nil_append, scanFrom, hgo]
    rfl

theorem tokens_space (h : ∀ ch ∈ rest.head?, ch ≠ '0' ∧ ch ≠ '1') :
    tokens (' ' :: rest) = (9, " ") :: tokens rest := tokens_blank (.inl rfl) h

/-! ## Names on a line -/

/-- A run of blanks. -/
def Blanks (s : List Char) : Prop := ∀ ch ∈ s, ch = ' ' ∨ ch = '\t'

theorem blanks_nil : Blanks [] := fun _ hch => absurd hch List.not_mem_nil

theorem blanks_space : Blanks [' '] := fun _ hch => .inl (List.mem_singleton.1 hch)

/-- The tokens of a run of blanks. -/
def blankTokens (s : List Char) : List Token := s.map fun ch => (9, String.ofList [ch])

theorem Blanks.head {s : List Char} (hs : Blanks s) (h : ∀ ch ∈ rest.head?, ch ≠ '0' ∧ ch ≠ '1') :
    ∀ ch ∈ (s ++ rest).head?, ch ≠ '0' ∧ ch ≠ '1' := by
  cases s with
  | nil => exact h
  | cons b s =>
    intro ch hch
    cases hch
    rcases hs b (by simp) with rfl | rfl <;> decide

theorem tokens_blanks {s : List Char} (hs : Blanks s)
    (h : ∀ ch ∈ rest.head?, ch ≠ '0' ∧ ch ≠ '1') :
    tokens (s ++ rest) = blankTokens s ++ tokens rest := by
  induction s with
  | nil => rfl
  | cons b s ih =>
    have hs' : Blanks s := fun ch hch => hs ch (by simp [hch])
    rw [List.cons_append, tokens_blank (hs b (by simp)) (hs'.head h), ih hs']
    rfl

/-- The end of a line. -/
def IsEol (s : List Char) : Prop := s = ['\n'] ∨ s = ['\r', '\n']

theorem isEol_newline : IsEol ['\n'] := .inl rfl

theorem tokens_eol {e : List Char} (he : IsEol e) :
    tokens (e ++ rest) = (7, String.ofList e) :: tokens rest := by
  rcases he with rfl | rfl
  · exact tokens_newline rest
  · exact tokens_append (by simp) (by cases rest <;> rfl)

/-- A name with the blanks before it. -/
structure Word where
  blanks : List Char
  name : String
  isBlanks : Blanks blanks
  isId : IsId name.toList

/-- The text of the words. -/
def wordsChars (ws : List Word) : List Char := ws.flatMap fun w => w.blanks ++ w.name.toList

def wordTokens (ws : List Word) : List Token :=
  ws.flatMap fun w => blankTokens w.blanks ++ [(6, w.name)]

/-- There are blanks between the words. -/
def Apart (ws : List Word) : Prop := ∀ w ∈ ws.tail, w.blanks ≠ []

theorem apart_singleton (w : Word) : Apart [w] := fun _ hw => absurd hw List.not_mem_nil

theorem head_id {s : List Char} (hs : IsId s) (rest : List Char) :
    ∀ ch ∈ (s ++ rest).head?, ch ≠ '0' ∧ ch ≠ '1' := by
  obtain ⟨ch, cs, rfl, hch, -⟩ := hs
  intro x hx
  cases hx
  constructor <;> rintro rfl <;> exact absurd hch (by decide)

theorem Word.head (w : Word) (h : w.blanks ≠ []) (rest : List Char) :
    ∀ ch ∈ (w.blanks ++ rest).head?, ¬IdChar ch := by
  obtain ⟨b, bs, hb⟩ := List.exists_cons_of_ne_nil h
  intro ch hch
  rw [hb] at hch
  cases hch
  rcases w.isBlanks b (by rw [hb]; simp) with rfl | rfl <;> decide

theorem tokens_words {ws : List Word} (ha : Apart ws) (h : ∀ ch ∈ rest.head?, ¬IdChar ch) :
    tokens (wordsChars ws ++ rest) = wordTokens ws ++ tokens rest := by
  induction ws with
  | nil => rfl
  | cons w ws ih =>
    have ha' : Apart ws := fun w' hw' => ha w' (List.mem_of_mem_tail hw')
    have hstop : ∀ ch ∈ (wordsChars ws ++ rest).head?, ¬IdChar ch := by
      cases ws with
      | nil => exact h
      | cons w' ws =>
        rw [wordsChars, List.flatMap_cons, List.append_assoc, List.append_assoc]
        exact w'.head (ha w' (by simp)) _
    have e : wordsChars (w :: ws) ++ rest =
        w.blanks ++ (w.name.toList ++ (wordsChars ws ++ rest)) := by
      simp only [wordsChars, List.flatMap_cons, List.append_assoc]
    rw [e, tokens_blanks w.isBlanks (head_id w.isId _), tokens_id w.isId hstop, ih ha',
      String.ofList_toList]
    simp only [wordTokens, List.flatMap_cons, List.append_assoc, List.cons_append,
      List.nil_append]

/-! ## Values -/

/-- A value that stands on a line of its own. -/
theorem tokens_value {d : Char} (hd : d = '0' ∨ d = '1') {e : List Char} (he : IsEol e) :
    tokens (d :: (e ++ rest)) = (9, String.ofList [d]) :: tokens (e ++ rest) := by
  refine @tokens_append [d] (e ++ rest) 9 (by simp) ?_
  rcases he with rfl | rfl <;> rcases hd with rfl | rfl <;> rfl

end

end Msyn.Parser
