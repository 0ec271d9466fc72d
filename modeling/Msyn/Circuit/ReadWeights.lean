import Mathlib.Data.List.TakeWhile
import Msyn.Circuit.Node
import Msyn.Lib.Loop
import Msyn.Lib.MachineInt

/-!
# ReadWeights

The loops of `ReadWeights` over the characters of the weight file, where a failed `get` leaves the
character as it is. Three of the four loops do not look at the state of the stream, so that the end
of the file must come behind the newlines of a record (`readWeights_iff`); then each line sets the
weight of its node (`readWeights_lines`).
-/

namespace Msyn.Nodecircuit

/-! ## The loops -/

/-- The weight file: the characters that are still to be read, the last one that was, and `good()`. -/
structure Stream where
  rest : List Char
  c : Char
  good : Bool

/-- `in_weight_file.get(c)`. -/
def Stream.get (s : Stream) : Stream :=
  match s.rest with
  | [] => { s with good := false }
  | c :: rest => { s with rest, c }

/-- `EOF` is -1, and so is the `char` of all ones. -/
def eofChar : Char := Char.ofNat 255

/-- The value of a `char`. -/
def charValue (c : Char) : Int := if c.toNat < 128 then c.toNat else c.toNat - 256

def isBlank (c : Char) : Bool := c = ' ' || c = '\t'

def isNewline (c : Char) : Bool := c = '\n' || c = '\r'

/-- The characters that end a number. -/
def isStop (c : Char) : Bool := isNewline c || c = eofChar

/-- One round of `while (p(c)) { a = f(a, c); in_weight_file.get(c); }`. -/
def scanStep {α : Type*} (p : Char → Bool) (f : α → Char → α) (s : Stream × α) :
    (Stream × α) ⊕ (Stream × α) :=
  if p s.1.c then .inl (s.1.get, f s.2 s.1.c) else .inr s

/-- `signal_name.push_back(c)` up to a blank. -/
def nameStep : Stream × List Char → (Stream × List Char) ⊕ (Stream × List Char) :=
  scanStep (fun c => !isBlank c) fun name c => name ++ [c]

def blankStep : Stream × Unit → (Stream × Unit) ⊕ (Stream × Unit) :=
  scanStep isBlank fun _ _ => ()

/-- `weight = weight * 10 + (c - '0')` up to a newline or `EOF`. -/
def numberStep : Stream × Int → (Stream × Int) ⊕ (Stream × Int) :=
  scanStep (fun c => !isStop c) fun weight c => toInt (weight * 10 + (charValue c - 48))

/-- `while ((c == '\n' || c == '\r') && in_weight_file.good())`. -/
def newlineStep (s : Stream) : Stream ⊕ Stream :=
  if isNewline s.c && s.good then .inl s.get else .inr s

/-- The loops of one round of `while (in_weight_file.good())`, with the name and the weight. -/
def readRecord (fuel : Nat) (s : Stream) : Option (Stream × List Char × Int) := do
  let (s, name) ← loop nameStep fuel (s, [])
  let (s, _) ← loop blankStep fuel (s, ())
  let (s, weight) ← loop numberStep fuel (s, 0)
  let s ← loop newlineStep fuel s
  some (s, name, weight)

/-- The weights of the nodes; `none` if the program wrote through the null pointer that
`all_nodes_map` has for a new name. -/
abbrev Weights := Option (NodeId → Int)

def recordStep (c : Circuit) (fuel : Nat) (s : Stream × (NodeId → Int)) :
    (Stream × (NodeId → Int)) ⊕ Option Weights :=
  if s.1.good then
    match readRecord fuel s.1 with
    | none => .inr none
    | some (s1, name, weight) =>
      match c.getNode (String.ofList name) with
      | some n => .inl (s1, Function.update s.2 n weight)
      | none => .inr (some none)
  else .inr (some (some s.2))

/-- `ReadWeights` on a file that could be opened; `none` if it has not ended after `fuel` rounds of a
loop. Before the first `get` the character is anything. -/
def readWeights (c : Circuit) (weight : NodeId → Int) (file : List Char) (fuel : Nat) :
    Option Weights :=
  (loop (recordStep c fuel) fuel ((Stream.mk file ' ' true).get, weight)).join

/-! ## The text -/

/-- A record: a name, blanks, what is read as a number, and newlines up to the next record. -/
structure Record (text name blanks number ends rest : List Char) : Prop where
  eq : text = name ++ (blanks ++ (number ++ (ends ++ rest)))
  name_ok : ∀ x ∈ name, isBlank x = false
  blanks_ne : blanks ≠ []
  blanks_ok : ∀ x ∈ blanks, isBlank x = true
  head_ok : ∀ x ∈ number.head?, isBlank x = false
  number_ok : ∀ x ∈ number, isStop x = false
  ends_ok : ∀ x ∈ ends, isNewline x = true
  next : (ends = [] ∧ rest.head? = some eofChar) ∨
    (ends ≠ [] ∧ ∀ x ∈ rest.head?, isNewline x = false)

/-- The names of the records of a text. -/
inductive RecordName : List Char → List Char → Prop
  | head {text name blanks number ends rest : List Char} :
      Record text name blanks number ends rest → RecordName text name
  | tail {text name blanks number ends rest name' : List Char} :
      Record text name blanks number ends rest → RecordName rest name' → RecordName text name'

/-- The text ends behind the newlines of a number: what follows the last blank are characters that
end no number, and then newlines. -/
def Closed (text : List Char) : Prop :=
  text = [] ∨ ∃ pre b number ends, text = pre ++ b :: (number ++ ends) ∧ isBlank b = true ∧
    (∀ x ∈ number, isBlank x = false ∧ isStop x = false) ∧ ends ≠ [] ∧
    ∀ x ∈ ends, isNewline x = true

/-! ## One loop -/

/-- The characters from the current one on. -/
def Stream.text (s : Stream) : List Char := s.c :: s.rest

/-- The stream is at the start of a text; at the end, a `get` has failed. -/
def Stream.At (s : Stream) (text : List Char) : Prop :=
  (text = [] ∧ s.good = false) ∨ (s.good = true ∧ s.text = text)

theorem Stream.get_at {c : Char} {rest : List Char} : (Stream.mk rest c true).get.At rest := by
  cases rest with
  | nil => exact .inl ⟨rfl, rfl⟩
  | cons x rest => exact .inr ⟨rfl, rfl⟩

/-- A text up to the first character that does not pass a test. -/
theorem split_first {p : Char → Bool} {l : List Char} (h : ¬∀ x ∈ l, p x = true) :
    ∃ as y rest, l = as ++ y :: rest ∧ (∀ x ∈ as, p x = true) ∧ p y = false := by
  have hne : l.dropWhile p ≠ [] := by rwa [Ne, List.dropWhile_eq_nil_iff]
  obtain ⟨y, rest, hrest⟩ := List.exists_cons_of_ne_nil hne
  refine ⟨l.takeWhile p, y, rest, ?_, fun x hx => List.mem_takeWhile_imp hx, ?_⟩
  · rw [← hrest, List.takeWhile_append_dropWhile]
  · have := List.head_dropWhile_not p hne
    simpa [hrest] using this

section
variable {α : Type*} {p : Char → Bool} {f : α → Char → α}

theorem scan_ends {l : List Char} {y : Char} {rest : List Char} {good : Bool}
    (has : ∀ x ∈ l, p x = true) (hy : p y = false) {s : Stream} (hs : s.text = l ++ y :: rest)
    (hgood : s.good = good) (a : α) {m : Nat} (hf : l.length < m) :
    loop (scanStep p f) m (s, a) = some (⟨rest, y, good⟩, l.foldl f a) := by
  induction l generalizing s a m with
  | nil =>
    obtain ⟨n, rfl⟩ : ∃ n, m = n + 1 := ⟨m - 1, by simp at hf; omega⟩
    obtain ⟨r, c, g⟩ := s
    obtain ⟨rfl, rfl⟩ : c = y ∧ r = rest := by simpa [Stream.text] using hs
    cases hgood
    exact loop_leave _ (by simp [scanStep, hy]) n
  | cons x l ih =>
    obtain ⟨n, rfl⟩ : ∃ n, m = n + 1 := ⟨m - 1, by simp at hf; omega⟩
    obtain ⟨r, c, g⟩ := s
    obtain ⟨rfl, rfl⟩ : c = x ∧ r = l ++ y :: rest := by simpa [Stream.text] using hs
    cases hgood
    have hstep : scanStep p f (⟨l ++ y :: rest, c, g⟩, a) =
        .inl ((Stream.mk (l ++ y :: rest) c g).get, f a c) := by
      simp [scanStep, has c (by simp)]
    rw [loop_stay _ hstep]
    refine ih (fun x hx => has x (by simp [hx])) ?_ ?_ (f a c) (by simpa using hf)
    · cases l <;> rfl
    · cases l <;> rfl

/-- Without a character that ends the loop it reads the last one for ever. -/
theorem scan_stuck {s : Stream} (hs : ∀ x ∈ s.text, p x = true) (a : α) (fuel : Nat) :
    loop (scanStep p f) fuel (s, a) = none := by
  refine loop_stuck (I := fun s => ∀ x ∈ s.1.text, p x = true) (fun s hs => ?_) hs fuel
  refine ⟨(s.1.get, f s.2 s.1.c), by rw [scanStep, if_pos (hs _ (by simp [Stream.text]))], ?_⟩
  obtain ⟨⟨r, c, g⟩, a⟩ := s
  cases r with
  | nil => exact hs
  | cons y r => exact fun x hx => hs x (by simp [Stream.text, Stream.get] at hx ⊢; tauto)

/-- What a scan that ended has read. -/
theorem scan_inv {s s' : Stream} {a a' : α} {fuel : Nat}
    (h : loop (scanStep p f) fuel (s, a) = some (s', a')) :
    ∃ as, (∀ x ∈ as, p x = true) ∧ p s'.c = false ∧ s.text = as ++ s'.text ∧ s'.good = s.good ∧
      a' = as.foldl f a := by
  by_cases hall : ∀ x ∈ s.text, p x = true
  · rw [scan_stuck hall] at h
    cases h
  obtain ⟨as, y, rest, hsplit, has, hy⟩ := split_first hall
  have hends := scan_ends (f := f) has hy hsplit rfl a (Nat.lt_succ_self _)
  have heq := loop_unique hends h
  simp only [Prod.mk.injEq] at heq
  obtain ⟨rfl, rfl⟩ := heq
  exact ⟨_, has, hy, hsplit, rfl, rfl⟩

end

/-- The newlines, and the stream at what follows. -/
theorem newlines_ends {ends rest : List Char} {y : Char} (hends : ∀ x ∈ ends, isNewline x = true)
    (hy : isNewline y = true) (hrest : ∀ x ∈ rest.head?, isNewline x = false) {fuel : Nat}
    (hf : ends.length + 1 < fuel) :
    ∃ s', loop newlineStep fuel ⟨ends ++ rest, y, true⟩ = some s' ∧ s'.At rest := by
  induction ends generalizing y fuel with
  | nil =>
    obtain ⟨n, rfl⟩ : ∃ n, fuel = n + 2 := ⟨fuel - 2, by simp at hf; omega⟩
    rw [loop_stay _ (by simp only [newlineStep, hy]; rfl)]
    cases rest with
    | nil =>
      exact ⟨_, loop_leave _ (by simp [newlineStep, Stream.get]; rfl) n, .inl ⟨rfl, rfl⟩⟩
    | cons z rest =>
      have hz := hrest z rfl
      exact ⟨_, loop_leave _ (by simp only [newlineStep, Stream.get, List.nil_append, hz]; rfl) n,
        .inr ⟨rfl, rfl⟩⟩
  | cons x ends ih =>
    obtain ⟨n, rfl⟩ : ∃ n, fuel = n + 1 := ⟨fuel - 1, by simp at hf; omega⟩
    rw [loop_stay _ (by simp only [newlineStep, hy]; rfl)]
    exact ih (fun x hx => hends x (by simp [hx])) (hends x (by simp))
      (by simp at hf ⊢; omega)

/-! ## One record -/

/-- What the digits of a number add up to. -/
def numberValue (number : List Char) : Int :=
  number.foldl (fun weight c => toInt (weight * 10 + (charValue c - 48))) 0

theorem isStop_newline {x : Char} (h : isNewline x = true) : isStop x = true := by simp [isStop, h]

theorem isBlank_stop {x : Char} (h : isStop x = true) : isBlank x = false := by
  simp only [isStop, isNewline, Bool.or_eq_true, decide_eq_true_eq] at h
  rcases h with (rfl | rfl) | rfl <;> decide

theorem isNewline_eof : isNewline eofChar = false := by decide

theorem isStop_eof : isStop eofChar = true := by decide

theorem foldl_push (name done : List Char) :
    name.foldl (fun name c => name ++ [c]) done = done ++ name := by
  rw [List.foldl_append_eq_append, ← List.flatMap_def, List.flatMap_singleton']

section
variable {text name blanks number ends rest : List Char}
  (h : Record text name blanks number ends rest)
include h

/-- What ends a number. -/
theorem Record.stop : ∃ y r, ends ++ rest = y :: r ∧ isStop y = true := by
  rcases h.next with ⟨rfl, hrest⟩ | ⟨hne, -⟩
  · obtain ⟨r, rfl⟩ := List.head?_eq_some_iff.1 hrest
    exact ⟨_, r, rfl, isStop_eof⟩
  · obtain ⟨y, ends, rfl⟩ := List.exists_cons_of_ne_nil hne
    exact ⟨y, _, rfl, isStop_newline (h.ends_ok y (by simp))⟩

/-- What ends the blanks. -/
theorem Record.nonblank : ∃ y r, number ++ (ends ++ rest) = y :: r ∧ isBlank y = false := by
  cases number with
  | nil =>
    obtain ⟨y, r, hr, hy⟩ := h.stop
    exact ⟨y, r, hr, isBlank_stop hy⟩
  | cons y number => exact ⟨y, _, rfl, h.head_ok y rfl⟩

theorem Record.ne_nil : text ≠ [] := by
  obtain ⟨b, blanks, rfl⟩ := List.exists_cons_of_ne_nil h.blanks_ne
  rw [h.eq]
  simp

/-- **A record is read**, and the stream is at what follows. -/
theorem readRecord_record {s : Stream} (hs : s.At text) {fuel : Nat} (hf : text.length < fuel) :
    ∃ s', readRecord fuel s = some (s', name, numberValue number) ∧ s'.At rest := by
  obtain ⟨hgood, htext⟩ := hs.resolve_left fun h1 => h.ne_nil h1.1
  obtain ⟨y, r, hr, hy⟩ := h.nonblank
  obtain ⟨z, r', hr', hz⟩ := h.stop
  have hlen := congrArg List.length h.eq
  simp only [List.length_append] at hlen
  obtain ⟨b, bs, rfl⟩ := List.exists_cons_of_ne_nil h.blanks_ne
  have h1 : loop nameStep fuel (s, []) = some (⟨bs ++ (number ++ (ends ++ rest)), b, true⟩, name) := by
    have := scan_ends (f := fun name c => name ++ [c]) (p := fun c => !isBlank c) (l := name)
      (y := b) (fun x hx => by simp [h.name_ok x hx]) (by simp [h.blanks_ok b]) (htext.trans h.eq)
      hgood [] (m := fuel) (by omega)
    rwa [foldl_push, List.nil_append] at this
  have h2 : loop blankStep fuel (⟨bs ++ (number ++ (ends ++ rest)), b, true⟩, ()) =
      some (⟨r, y, true⟩, ()) := by
    refine scan_ends (l := b :: bs) h.blanks_ok hy ?_ rfl () (by omega)
    rw [hr]
    rfl
  have h3 : loop numberStep fuel (⟨r, y, true⟩, 0) = some (⟨r', z, true⟩, numberValue number) := by
    refine scan_ends (fun x hx => by simp [h.number_ok x hx]) (by simp [hz]) ?_ rfl 0 (by omega)
    rw [← hr', hr]
    rfl
  have h4 : ∃ s', loop newlineStep fuel ⟨r', z, true⟩ = some s' ∧ s'.At rest := by
    rcases h.next with ⟨rfl, hrest⟩ | ⟨hne, hrest⟩
    · -- a character like `EOF` is the first one of the next record
      rw [List.nil_append] at hr'
      rw [hr', List.head?_cons, Option.some.injEq] at hrest
      obtain ⟨n, rfl⟩ : ∃ n, fuel = n + 1 := ⟨fuel - 1, by omega⟩
      refine ⟨⟨r', z, true⟩, loop_leave _ ?_ n, .inr ⟨rfl, hr'.symm⟩⟩
      rw [newlineStep, hrest, isNewline_eof]
      rfl
    · obtain ⟨e, ends, rfl⟩ := List.exists_cons_of_ne_nil hne
      obtain ⟨rfl, rfl⟩ : e = z ∧ ends ++ rest = r' := by simpa using hr'
      exact newlines_ends (fun x hx => h.ends_ok x (by simp [hx])) (h.ends_ok _ (by simp)) hrest
        (by simp only [List.length_cons] at hlen; omega)
  obtain ⟨s', h4, h5⟩ := h4
  refine ⟨s', ?_, h5⟩
  rw [readRecord, h1]
  simp only [bind, Option.bind_some, h2, h3, h4]

end

/-- What was read is a record. -/
theorem readRecord_inv {text name : List Char} {s s' : Stream} {weight : Int} {fuel : Nat}
    (hs : s.At text) (hne : text ≠ []) (h : readRecord fuel s = some (s', name, weight)) :
    ∃ blanks number ends rest, Record text name blanks number ends rest ∧
      weight = numberValue number ∧ s'.At rest := by
  obtain ⟨hgood, htext⟩ := hs.resolve_left fun h1 => hne h1.1
  obtain ⟨⟨s1, name'⟩, h1, h⟩ := Option.bind_eq_some_iff.1 h
  obtain ⟨⟨s2, u⟩, h2, h⟩ := Option.bind_eq_some_iff.1 h
  obtain ⟨⟨s3, weight'⟩, h3, h⟩ := Option.bind_eq_some_iff.1 h
  obtain ⟨s4, h4, h⟩ := Option.bind_eq_some_iff.1 h
  simp only [Option.some.injEq, Prod.mk.injEq] at h
  obtain ⟨rfl, rfl, rfl⟩ := h
  obtain ⟨as, a1, a2, a3, a4, rfl⟩ := scan_inv h1
  obtain ⟨blanks, b1, b2, b3, b4, -⟩ := scan_inv h2
  obtain ⟨number, c1, c2, c3, c4, rfl⟩ := scan_inv h3
  simp only [Bool.not_eq_true', Bool.not_eq_false'] at a1 a2 c1 c2
  rw [foldl_push, List.nil_append] at h1 ⊢
  have hg3 : s3.good = true := by rw [c4, b4, a4, hgood]
  have hblanks : blanks ≠ [] := by
    rintro rfl
    have hcc : s1.c = s2.c := (List.cons.inj b3).1
    rw [hcc, b2] at a2
    cases a2
  have hhead : ∀ x ∈ number.head?, isBlank x = false := by
    intro x hx
    obtain ⟨number', rfl⟩ := List.head?_eq_some_iff.1 hx
    have hcc : s2.c = x := (List.cons.inj c3).1
    exact hcc ▸ b2
  have heq : ∀ t, s3.text = t → text = as ++ (blanks ++ (number ++ t)) := by
    rintro t rfl
    rw [← htext, a3, b3, c3]
  obtain ⟨r, z, g⟩ := s3
  cases hg3
  by_cases hz : isNewline z = true
  · -- the newlines, up to the first other character
    obtain ⟨ends, rest, hr, hends, hrest⟩ : ∃ ends rest, r = ends ++ rest ∧
        (∀ x ∈ ends, isNewline x = true) ∧ ∀ x ∈ rest.head?, isNewline x = false := by
      by_cases hall : ∀ x ∈ r, isNewline x = true
      · exact ⟨r, [], (List.append_nil r).symm, hall, fun x hx => by cases hx⟩
      · obtain ⟨ends, y, rest, hr, he, hy⟩ := split_first hall
        refine ⟨ends, y :: rest, hr, he, fun x hx => ?_⟩
        cases hx
        exact hy
    subst hr
    obtain ⟨s', h5, h6⟩ := newlines_ends hends hz hrest (Nat.lt_succ_self _)
    refine ⟨blanks, number, z :: ends, rest, ⟨heq _ rfl, a1, hblanks, b1, hhead, c1, ?_,
      .inr ⟨by simp, hrest⟩⟩, rfl, ?_⟩
    · exact List.forall_mem_cons.2 ⟨hz, hends⟩
    · rw [loop_unique h4 h5]
      exact h6
  · have hz' : z = eofChar := by
      have h5 : isStop z = true := c2
      simpa [isStop, hz] using h5
    cases fuel with
    | zero => cases h4
    | succ n =>
      have hleave : newlineStep ⟨r, z, true⟩ = .inr ⟨r, z, true⟩ := by simp [newlineStep, hz]
      rw [loop_leave _ hleave, Option.some.injEq] at h4
      subst h4
      exact ⟨blanks, number, [], z :: r, ⟨heq _ rfl, a1, hblanks, b1, hhead, c1,
        (fun x hx => by cases hx), .inl ⟨rfl, by rw [hz']; rfl⟩⟩, rfl, .inr ⟨rfl, rfl⟩⟩

/-! ## The whole file -/

section
variable {c : Circuit}

theorem Record.length_lt {text name blanks number ends rest : List Char}
    (h : Record text name blanks number ends rest) : rest.length < text.length := by
  rw [h.eq]
  have := List.length_pos_iff.2 h.blanks_ne
  simp only [List.length_append]
  omega

/-- The last character of a text is in every part at its end. -/
theorem last_mem {text part : List Char} {z : Char} {pre : List Char} (h : pre ++ part = text)
    (hpart : part ≠ []) (hlast : text.getLast? = some z) : z ∈ part := by
  rw [← h, List.getLast?_append_of_ne_nil _ hpart] at hlast
  exact List.mem_of_getLast? hlast

/-- A text with a blank that ends with a newline starts with a record. -/
theorem exists_record {text : List Char} {z b : Char} (hb : b ∈ text) (hbb : isBlank b = true)
    (hlast : text.getLast? = some z) (hz : isNewline z = true) :
    ∃ name blanks number ends rest, Record text name blanks number ends rest := by
  have hzs := isStop_newline hz
  obtain ⟨name, b1, r1, e1, hname, hb1⟩ := split_first (p := fun c => !isBlank c)
    (l := text) fun h => by simpa [hbb] using h b hb
  have hz1 : z ∈ b1 :: r1 := last_mem e1.symm (by simp) hlast
  obtain ⟨blanks, y, r2, e2, hblanks, hy⟩ := split_first (p := isBlank) (l := b1 :: r1) fun h => by
    have := h z hz1
    rw [isBlank_stop hzs] at this
    cases this
  have hlast2 : (b1 :: r1).getLast? = some z := by
    rwa [e1, List.getLast?_append_of_ne_nil _ (by simp)] at hlast
  have hz2 : z ∈ y :: r2 := last_mem e2.symm (by simp) hlast2
  obtain ⟨number, w, r3, e3, hnumber, hw⟩ := split_first (p := fun c => !isStop c) (l := y :: r2)
    fun h => by simpa [hzs] using h z hz2
  simp only [Bool.not_eq_true', Bool.not_eq_false'] at hname hb1 hnumber hw
  have hne : blanks ≠ [] := by
    rintro rfl
    have hcc : b1 = y := (List.cons.inj e2).1
    rw [hcc, hy] at hb1
    cases hb1
  have hhead : ∀ x ∈ number.head?, isBlank x = false := by
    intro x hx
    obtain ⟨number', rfl⟩ := List.head?_eq_some_iff.1 hx
    have hcc : y = x := (List.cons.inj e3).1
    exact hcc ▸ hy
  by_cases hwn : isNewline w = true
  · by_cases hall : ∀ x ∈ r3, isNewline x = true
    · exact ⟨name, blanks, number, w :: r3, [], by rw [e1, e2, e3, List.append_nil], hname, hne,
        hblanks, hhead, hnumber, List.forall_mem_cons.2 ⟨hwn, hall⟩,
        .inr ⟨by simp, fun x hx => by cases hx⟩⟩
    · obtain ⟨ends, v, rest, e4, hends, hv⟩ := split_first hall
      refine ⟨name, blanks, number, w :: ends, v :: rest, by rw [e1, e2, e3, e4]; simp, hname, hne,
        hblanks, hhead, hnumber, List.forall_mem_cons.2 ⟨hwn, hends⟩,
        .inr ⟨by simp, fun x hx => ?_⟩⟩
      cases hx
      exact hv
  · have hwe : w = eofChar := by simpa [isStop, hwn] using hw
    exact ⟨name, blanks, number, [], w :: r3, by rw [e1, e2, e3, List.nil_append], hname, hne,
      hblanks, hhead, hnumber, (fun x hx => by cases hx), .inl ⟨rfl, by rw [hwe]; rfl⟩⟩

/-- What follows a record ends as the text does. -/
theorem Closed.rest {text name blanks number ends rest : List Char} (h : Closed text)
    (hr : Record text name blanks number ends rest) : Closed rest := by
  obtain ⟨pre, b, num, nls, e1, hb, hnum, hne, hnls⟩ := h.resolve_left hr.ne_nil
  have e2 : (name ++ (blanks ++ (number ++ ends))) ++ rest = pre ++ b :: (num ++ nls) := by
    rw [← e1, hr.eq]
    simp only [List.append_assoc]
  rcases List.append_eq_append_iff.1 e2 with ⟨mid, e3, e4⟩ | ⟨mid, e3, e4⟩
  · -- the last blank comes later
    exact .inr ⟨mid, b, num, nls, e4, hb, hnum, hne, hnls⟩
  -- the last blank is in the record, so that nothing comes after its newlines
  cases mid with
  | nil => exact .inr ⟨[], b, num, nls, e4.symm, hb, hnum, hne, hnls⟩
  | cons b' mid =>
    obtain ⟨rfl, e5⟩ : b = b' ∧ num ++ nls = mid ++ rest := by simpa using e4
    have hnext : ∀ y r, rest = y :: r → isNewline y = false →
        ¬∃ e m, mid = m ++ [e] ∧ isNewline e = true := by
      rintro y r rfl hy ⟨e, m, rfl, he⟩
      rw [List.append_assoc, List.singleton_append] at e5
      have hyn : y ∈ nls → False := fun hmem => by rw [hnls y hmem] at hy; cases hy
      rcases List.append_eq_append_iff.1 e5 with ⟨q, -, e6⟩ | ⟨q, e6, e7⟩
      · exact hyn (by rw [e6]; simp)
      · cases q with
        | nil => exact hyn (by rw [← List.nil_append nls, ← e7]; simp)
        | cons e' q =>
          have hmem : e ∈ num := by
            rw [e6, (List.cons.inj e7).1]
            simp
          have := (hnum e hmem).2
          rw [isStop_newline he] at this
          cases this
    rcases hr.next with ⟨-, hhead⟩ | ⟨hends, hhead⟩
    · obtain ⟨r, rfl⟩ := List.head?_eq_some_iff.1 hhead
      have hmem : eofChar ∈ num ++ nls := by rw [e5]; simp
      rcases List.mem_append.1 hmem with hmem | hmem
      · have := (hnum _ hmem).2
        rw [isStop_eof] at this
        cases this
      · have := hnls _ hmem
        rw [isNewline_eof] at this
        cases this
    · cases rest with
      | nil => exact .inl rfl
      | cons y r =>
        exfalso
        refine hnext y r rfl (hhead y rfl) ?_
        -- the last character of the record is a newline
        obtain ⟨ends', e, rfl⟩ := (List.eq_nil_or_concat ends).resolve_left hends
        have he := hr.ends_ok e (by simp)
        have hl : (name ++ (blanks ++ (number ++ ends'.concat e))).getLast? = some e := by simp
        rcases List.eq_nil_or_concat mid with rfl | ⟨m, e', rfl⟩
        · rw [e3, List.getLast?_concat, Option.some.injEq] at hl
          rw [hl, isBlank_stop (isStop_newline he)] at hb
          cases hb
        · have hr' : pre ++ b :: m.concat e' = (pre ++ b :: m) ++ [e'] := by simp
          rw [e3, hr', List.getLast?_concat, Option.some.injEq] at hl
          exact ⟨e', m, List.concat_eq_append, hl ▸ he⟩

theorem Closed.record {text : List Char} (h : Closed text) (hne : text ≠ []) :
    ∃ name blanks number ends rest, Record text name blanks number ends rest ∧ Closed rest := by
  obtain ⟨pre, b, number, ends, e, hb, -, hne', hends⟩ := h.resolve_left hne
  obtain ⟨z, hz⟩ : ∃ z, ends.getLast? = some z := by
    rw [List.getLast?_eq_some_getLast hne']
    exact ⟨_, rfl⟩
  have hlast : text.getLast? = some z := by
    rw [e, List.getLast?_append_of_ne_nil _ (by simp), ← List.cons_append,
      List.getLast?_append_of_ne_nil _ hne', hz]
  obtain ⟨name, blanks, number', ends', rest, hr⟩ := exists_record (b := b) (by rw [e]; simp) hb hlast
    (hends z (List.mem_of_getLast? hz))
  exact ⟨name, blanks, number', ends', rest, hr, h.rest hr⟩

theorem Record.closed {text name blanks number ends rest : List Char}
    (h : Record text name blanks number ends rest) (hrest : Closed rest) : Closed text := by
  rcases hrest with rfl | ⟨pre, b, num, nls, rfl, hb, hnum, hne, hnls⟩
  · have hends : ends ≠ [] := h.next.elim (fun h1 => by cases h1.2) fun h1 => h1.1
    -- the last blank of the record
    obtain ⟨b0, hb0⟩ := List.exists_mem_of_ne_nil _ h.blanks_ne
    obtain ⟨as, b, r, e, has, hb⟩ := split_first (p := fun c => !isBlank c)
      (l := (blanks ++ number).reverse) fun hall => by
        simpa [h.blanks_ok b0 hb0] using hall b0 (by simp [hb0])
    simp only [Bool.not_eq_true', Bool.not_eq_false'] at has hb
    have e' : blanks ++ number = r.reverse ++ b :: as.reverse := by
      have := congrArg List.reverse e
      rw [List.reverse_reverse] at this
      rw [this]
      simp
    refine .inr ⟨name ++ r.reverse, b, as.reverse, ends, ?_, hb, fun x hx => ?_, hends, h.ends_ok⟩
    · have hcat : text = name ++ ((blanks ++ number) ++ ends) := by
        rw [h.eq]
        simp only [List.append_assoc, List.append_nil]
      rw [hcat, e']
      simp only [List.append_assoc, List.cons_append]
    · have hx' : x ∈ as := List.mem_reverse.1 hx
      refine ⟨has x hx', ?_⟩
      have hmem : x ∈ blanks ++ number := by rw [e']; simp [hx']
      rcases List.mem_append.1 hmem with hmem | hmem
      · have := h.blanks_ok x hmem
        rw [has x hx'] at this
        cases this
      · exact h.number_ok x hmem
  · refine .inr ⟨name ++ (blanks ++ (number ++ (ends ++ pre))), b, num, nls, ?_, hb, hnum, hne, hnls⟩
    rw [h.eq]
    simp only [List.append_assoc]

/-- A text has one first record. -/
theorem Record.unique {text name blanks number ends rest name' blanks' number' ends' rest' : List Char}
    (h : Record text name blanks number ends rest)
    (h' : Record text name' blanks' number' ends' rest') :
    name = name' ∧ numberValue number = numberValue number' ∧ rest = rest' := by
  obtain ⟨x, tail, rfl⟩ := List.exists_cons_of_ne_nil h.ne_nil
  have hs : (Stream.mk tail x true).At (x :: tail) := .inr ⟨rfl, rfl⟩
  obtain ⟨s1, h1, a1⟩ := readRecord_record h hs (Nat.lt_succ_self _)
  obtain ⟨s2, h2, a2⟩ := readRecord_record h' hs (Nat.lt_succ_self _)
  rw [h1] at h2
  simp only [Option.some.injEq, Prod.mk.injEq] at h2
  obtain ⟨rfl, rfl, hv⟩ := h2
  refine ⟨rfl, hv, ?_⟩
  rcases a1 with ⟨rfl, g1⟩ | ⟨g1, rfl⟩ <;> rcases a2 with ⟨rfl, g2⟩ | ⟨g2, rfl⟩
  · rfl
  · rw [g1] at g2
    cases g2
  · rw [g1] at g2
    cases g2
  · rfl

/-! ## Rounds of the outer loop -/

theorem recordStep_end {s : Stream} (hs : s.At []) (weight : NodeId → Int) (fuel : Nat) :
    recordStep c fuel (s, weight) = .inr (some (some weight)) := by
  have hgood : s.good = false := hs.elim (·.2) fun h => by cases h.2
  simp [recordStep, hgood]

/-- A round that goes on has read a record. -/
theorem recordStep_inv {text : List Char} {s : Stream} (weight : NodeId → Int)
    (fuel : Nat) (hs : s.At text) (hne : text ≠ []) :
    recordStep c fuel (s, weight) = .inr none ∨
      ∃ name blanks number ends rest s', Record text name blanks number ends rest ∧ s'.At rest ∧
        recordStep c fuel (s, weight) = match c.getNode (String.ofList name) with
          | some n => .inl (s', Function.update weight n (numberValue number))
          | none => .inr (some none) := by
  have hgood : s.good = true := (hs.resolve_left fun h => hne h.1).1
  cases hread : readRecord fuel s with
  | none => exact .inl (by simp [recordStep, hgood, hread])
  | some r =>
    obtain ⟨s', name, w⟩ := r
    obtain ⟨blanks, number, ends, rest, h1, rfl, h2⟩ := readRecord_inv hs hne hread
    refine .inr ⟨name, blanks, number, ends, rest, s', h1, h2, ?_⟩
    simp only [recordStep, hgood, hread, if_true]

theorem recordStep_record {text name blanks number ends rest : List Char}
    (h : Record text name blanks number ends rest) {s : Stream} (hs : s.At text)
    (weight : NodeId → Int) {fuel : Nat} (hf : text.length < fuel) :
    ∃ s', s'.At rest ∧ recordStep c fuel (s, weight) = match c.getNode (String.ofList name) with
      | some n => .inl (s', Function.update weight n (numberValue number))
      | none => .inr (some none) := by
  have hgood : s.good = true := (hs.resolve_left fun h1 => h.ne_nil h1.1).1
  obtain ⟨s', h1, h2⟩ := readRecord_record h hs hf
  exact ⟨s', h2, by simp only [recordStep, hgood, h1, if_true]⟩

/-- The text has a record with a name that no node has. -/
def NewName (c : Circuit) (text : List Char) : Prop :=
  ∃ name, RecordName text name ∧ c.getNode (String.ofList name) = none

/-- A run that ends: the text is closed, or a record has a new name. -/
theorem loop_sound {fuel n : Nat} {s : Stream} {weight : NodeId → Int} {r : Weights}
    {text : List Char} (hs : s.At text)
    (h : loop (recordStep c fuel) n (s, weight) = some (some r)) : Closed text ∨ NewName c text := by
  induction n generalizing s weight text with
  | zero => cases h
  | succ n ih =>
    by_cases hne : text = []
    · exact .inl (.inl hne)
    rcases recordStep_inv (c := c) weight fuel hs hne with
      hstep | ⟨name, blanks, number, ends, rest, s', hr, hs', hstep⟩
    · rw [loop_leave _ hstep] at h
      cases h
    · cases hname : c.getNode (String.ofList name) with
      | none => exact .inr ⟨name, .head hr, hname⟩
      | some nd =>
        rw [hname] at hstep
        rw [loop_stay _ hstep] at h
        rcases ih hs' h with hc | ⟨name', h1, h2⟩
        · exact .inl (hr.closed hc)
        · exact .inr ⟨name', .tail hr h1, h2⟩

/-- Such a run ends. -/
theorem loop_complete {text : List Char} (h : Closed text ∨ NewName c text) {s : Stream}
    (hs : s.At text) (weight : NodeId → Int) {fuel n : Nat} (hf : text.length < fuel)
    (hn : text.length < n) : ∃ r, loop (recordStep c fuel) n (s, weight) = some (some r) := by
  induction n generalizing s weight text with
  | zero => omega
  | succ n ih =>
    by_cases hne : text = []
    · subst hne
      exact ⟨_, loop_leave _ (recordStep_end hs weight fuel) n⟩
    -- the first record, and what is known of the rest
    obtain ⟨name, blanks, number, ends, rest, hr, hrest⟩ : ∃ name blanks number ends rest,
        Record text name blanks number ends rest ∧
          (c.getNode (String.ofList name) = none ∨ Closed rest ∨ NewName c rest) := by
      rcases h with h | ⟨name, h1, h2⟩
      · obtain ⟨name, blanks, number, ends, rest, hr, hc⟩ := h.record hne
        exact ⟨name, blanks, number, ends, rest, hr, .inr (.inl hc)⟩
      · cases h1 with
        | head hr => exact ⟨_, _, _, _, _, hr, .inl h2⟩
        | tail hr h1 => exact ⟨_, _, _, _, _, hr, .inr (.inr ⟨name, h1, h2⟩)⟩
    obtain ⟨s', hs', hstep⟩ := recordStep_record (c := c) hr hs weight hf
    have hlt := hr.length_lt
    cases hname : c.getNode (String.ofList name) with
    | none =>
      rw [hname] at hstep
      exact ⟨_, loop_leave _ hstep n⟩
    | some nd =>
      rw [hname] at hstep hrest
      rw [loop_stay _ hstep]
      exact ih (hrest.resolve_left (by simp)) hs' _ (by omega) (by omega)

/-- **`ReadWeights` ends** if and only if the file does so behind the newlines of a record, or the
program is undefined before. -/
theorem readWeights_ends_iff (weight : NodeId → Int) (file : List Char) :
    (∃ fuel r, readWeights c weight file fuel = some r) ↔ Closed file ∨ NewName c file := by
  have hs : (Stream.mk file ' ' true).get.At file := Stream.get_at
  constructor
  · rintro ⟨fuel, r, h⟩
    exact loop_sound hs (Option.join_eq_some_iff.1 h)
  · intro h
    obtain ⟨r, hr⟩ := loop_complete h hs weight (Nat.lt_succ_self _) (Nat.lt_succ_self _)
    exact ⟨_, r, Option.join_eq_some_iff.2 hr⟩

end

/-! ## Lines -/

/-- A line `name, blanks, decimal digits`, and the node of that name. -/
structure WeightLine where
  name : List Char
  blanks : List Char
  digits : List Char
  node : NodeId

namespace WeightLine

def text (l : WeightLine) : List Char := l.name ++ (l.blanks ++ l.digits)

/-- The written weight. -/
def value (l : WeightLine) : Nat := l.digits.foldl (fun w x => w * 10 + (x.toNat - 48)) 0

structure Ok (c : Circuit) (l : WeightLine) : Prop where
  name_ne : l.name ≠ []
  name_ok : ∀ x ∈ l.name, isBlank x = false ∧ isNewline x = false
  blanks_ne : l.blanks ≠ []
  blanks_ok : ∀ x ∈ l.blanks, isBlank x = true
  digits_ne : l.digits ≠ []
  digits_ok : ∀ x ∈ l.digits, x.isDigit = true
  node : c.getNode (String.ofList l.name) = some l.node

end WeightLine

/-- A file of lines, the last one with or without a newline. -/
inductive WeightLines (c : Circuit) : List WeightLine → List Char → Prop
  | nil : WeightLines c [] []
  | last {l : WeightLine} : l.Ok c → WeightLines c [l] l.text
  | cons {l : WeightLine} {ls : List WeightLine} {newlines text : List Char} : l.Ok c →
      newlines ≠ [] → (∀ x ∈ newlines, isNewline x = true) → WeightLines c ls text →
      WeightLines c (l :: ls) (l.text ++ (newlines ++ text))

/-- What is claimed of `ReadWeights` on a file: it ends, and the nodes named by the lines have the
written weights. -/
structure ReadsWeights (c : Circuit) (weight : NodeId → Int) (file : List Char) : Prop where
  ends : ∃ fuel r, readWeights c weight file fuel = some r
  lines : ∀ ls, WeightLines c ls file → (ls.map (·.node)).Nodup →
    ∃ fuel weight', readWeights c weight file fuel = some (some weight') ∧
      (∀ l ∈ ls, weight' l.node = l.value) ∧ ∀ n ∉ ls.map (·.node), weight' n = weight n

section
variable {c : Circuit}

theorem isDigit_not {x : Char} (h : x.isDigit = true) : isBlank x = false ∧ isStop x = false := by
  obtain ⟨h1, h2⟩ := Char.isDigit_iff_toNat.1 h
  have hne : ∀ y : Char, y.toNat < 48 ∨ 57 < y.toNat → x ≠ y := by
    rintro y hy rfl
    have h1 : 48 ≤ x.toNat := h1
    have h2 : x.toNat ≤ 57 := h2
    omega
  simp only [isBlank, isStop, isNewline, Bool.or_eq_false_iff, decide_eq_false_iff_not]
  exact ⟨⟨hne _ (by decide), hne _ (by decide)⟩, ⟨hne _ (by decide), hne _ (by decide)⟩,
    hne _ (by decide)⟩

theorem charValue_digit {x : Char} (h : x.isDigit = true) :
    charValue x - 48 = ((x.toNat - 48 : Nat) : Int) := by
  obtain ⟨h1, h2⟩ := Char.isDigit_iff_toNat.1 h
  have h1 : 48 ≤ x.toNat := h1
  have h2 : x.toNat ≤ 57 := h2
  rw [charValue, if_pos (by omega)]
  omega

namespace WeightLine

theorem numberValue_digits (l : WeightLine) (h : ∀ x ∈ l.digits, x.isDigit = true) :
    numberValue l.digits = toInt l.value := by
  have key : ∀ (digits : List Char) (w : Nat), (∀ x ∈ digits, x.isDigit = true) →
      digits.foldl (fun weight c => toInt (weight * 10 + (charValue c - 48))) (toInt w) =
        toInt (digits.foldl (fun w x => w * 10 + (x.toNat - 48)) w : Nat) := by
    intro digits
    induction digits with
    | nil =>
      intro w _
      rw [List.foldl_nil, List.foldl_nil]
    | cons x digits ih =>
      intro w hd
      have hx : (w : Int) * 10 + (charValue x - 48) = ((w * 10 + (x.toNat - 48) : Nat) : Int) := by
        rw [charValue_digit (hd x (by simp))]
        push_cast
        rfl
      rw [List.foldl_cons, List.foldl_cons, toInt_mul_add, hx]
      exact ih _ fun y hy => hd y (by simp [hy])
  have h0 : toInt ((0 : Nat) : Int) = 0 := toInt_natCast (by norm_num)
  have hkey := key l.digits 0 h
  rw [h0] at hkey
  exact hkey

theorem Ok.record {l : WeightLine} (h : l.Ok c) {newlines text : List Char} (hne : newlines ≠ [])
    (hnl : ∀ x ∈ newlines, isNewline x = true) (htext : ∀ x ∈ text.head?, isNewline x = false) :
    Record (l.text ++ (newlines ++ text)) l.name l.blanks l.digits newlines text where
  eq := by simp only [WeightLine.text, List.append_assoc]
  name_ok x hx := (h.name_ok x hx).1
  blanks_ne := h.blanks_ne
  blanks_ok := h.blanks_ok
  head_ok x hx := (isDigit_not (h.digits_ok x (List.mem_of_mem_head? hx))).1
  number_ok x hx := (isDigit_not (h.digits_ok x hx)).2
  ends_ok := hnl
  next := .inr ⟨hne, htext⟩

/-- A last line without a newline is never read to its end. -/
theorem Ok.stuck {l : WeightLine} (h : l.Ok c) {s : Stream} (hs : s.At l.text) (fuel : Nat) :
    readRecord fuel s = none := by
  have hne : l.text ≠ [] := by simp [WeightLine.text, h.name_ne]
  cases hread : readRecord fuel s with
  | none => rfl
  | some r =>
    exfalso
    obtain ⟨s', name, w⟩ := r
    obtain ⟨blanks, number, ends, rest, hr, -, -⟩ := readRecord_inv hs hne hread
    obtain ⟨y, r, hy, hstop⟩ := hr.stop
    -- but behind the name nothing ends a number
    have hnone : ∀ x ∈ l.blanks ++ l.digits, isStop x = false := by
      intro x hx
      rcases List.mem_append.1 hx with hx | hx
      · have hb := h.blanks_ok x hx
        by_contra hs
        rw [isBlank_stop (by simpa using hs)] at hb
        cases hb
      · exact (isDigit_not (h.digits_ok x hx)).2
    have hmem : y ∈ l.blanks ++ l.digits := by
      have heq := hr.eq
      rw [hy, WeightLine.text] at heq
      rcases List.append_eq_append_iff.1 heq with ⟨mid, -, e⟩ | ⟨mid, e1, e2⟩
      · rw [e]
        simp
      · cases mid with
        | nil =>
          rw [List.nil_append] at e2
          rw [← e2]
          simp
        | cons b mid =>
          obtain ⟨b', blanks, rfl⟩ := List.exists_cons_of_ne_nil hr.blanks_ne
          obtain ⟨rfl, -⟩ := List.cons.inj e2
          have hb := hr.blanks_ok b' (by simp)
          rw [(h.name_ok b' (by rw [e1]; simp)).1] at hb
          cases hb
    rw [hnone y hmem] at hstop
    cases hstop

end WeightLine

theorem WeightLines.head {ls : List WeightLine} {text : List Char} (h : WeightLines c ls text) :
    ∀ x ∈ text.head?, isNewline x = false := by
  have hline : ∀ {l : WeightLine} (rest : List Char), l.Ok c →
      ∀ x ∈ (l.text ++ rest).head?, isNewline x = false := by
    intro l rest hl x hx
    obtain ⟨y, name, hname⟩ := List.exists_cons_of_ne_nil hl.name_ne
    rw [WeightLine.text, hname] at hx
    cases hx
    exact (hl.name_ok x (by rw [hname]; simp)).2
  cases h with
  | nil => exact fun x hx => by cases hx
  | last hl => simpa using hline [] hl
  | cons hl _ _ _ => exact hline _ hl

/-- **The lines that were read** set the weights of their nodes. -/
theorem WeightLines.result {ls : List WeightLine} {text : List Char} (h : WeightLines c ls text)
    (hnd : (ls.map (·.node)).Nodup) {s : Stream} (hs : s.At text) {weight : NodeId → Int}
    {fuel n : Nat} {r : Weights} (hr : loop (recordStep c fuel) n (s, weight) = some (some r)) :
    ∃ weight', r = some weight' ∧ (∀ l ∈ ls, weight' l.node = toInt l.value) ∧
      ∀ n ∉ ls.map (·.node), weight' n = weight n := by
  induction h generalizing s weight n with
  | nil =>
    cases n with
    | zero => cases hr
    | succ n =>
      rw [loop_leave _ (recordStep_end hs weight fuel)] at hr
      cases hr
      exact ⟨weight, rfl, (fun l hl => by cases hl), fun _ _ => rfl⟩
  | @last l hl =>
    have hgood : s.good = true :=
      (hs.resolve_left fun h1 => by simp [WeightLine.text, hl.name_ne] at h1).1
    have hstep : recordStep c fuel (s, weight) = .inr none := by
      simp [recordStep, hgood, hl.stuck hs fuel]
    cases n with
    | zero => cases hr
    | succ n =>
      rw [loop_leave _ hstep] at hr
      cases hr
  | @cons l ls newlines text hl hne hnl htext ih =>
    have hrec := hl.record hne hnl htext.head
    cases n with
    | zero => cases hr
    | succ n =>
      rcases recordStep_inv (c := c) weight fuel hs hrec.ne_nil with
        hstep | ⟨name, blanks, number, ends, rest, s', hrec', hs', hstep⟩
      · rw [loop_leave _ hstep] at hr
        cases hr
      obtain ⟨rfl, hv, rfl⟩ := hrec.unique hrec'
      simp only [hl.node] at hstep
      rw [loop_stay _ hstep, ← hv, l.numberValue_digits hl.digits_ok] at hr
      rw [List.map_cons, List.nodup_cons] at hnd
      obtain ⟨weight', h1, h2, h3⟩ := ih hnd.2 hs' hr
      refine ⟨weight', h1, fun l' hl' => ?_, fun k hk => ?_⟩
      · rcases List.mem_cons.1 hl' with rfl | hl'
        · rw [h3 _ hnd.1, Function.update_self]
        · exact h2 l' hl'
      · rw [List.map_cons, List.mem_cons, not_or] at hk
        rw [h3 k hk.2, Function.update_of_ne hk.1]

/-- **`ReadWeights` does what is claimed** if and only if the file ends behind the newlines of a
record, or the program is undefined before, and no line writes a weight that is no `int`. -/
theorem readsWeights_iff (weight : NodeId → Int) (file : List Char) :
    ReadsWeights c weight file ↔ (Closed file ∨ NewName c file) ∧
      ∀ ls, WeightLines c ls file → (ls.map (·.node)).Nodup → ∀ l ∈ ls, l.value < 2 ^ 31 := by
  have hs : (Stream.mk file ' ' true).get.At file := Stream.get_at
  rw [← readWeights_ends_iff weight file]
  constructor
  · intro h
    refine ⟨h.ends, fun ls hls hnd l hl => ?_⟩
    obtain ⟨fuel, weight', hr, hw, -⟩ := h.lines ls hls hnd
    obtain ⟨w, he, h1, -⟩ := hls.result hnd hs (Option.join_eq_some_iff.1 hr)
    cases he
    have := toInt_lt (l.value : Int)
    rw [← h1 l hl, hw l hl] at this
    omega
  · rintro ⟨hends, hvalues⟩
    refine ⟨hends, fun ls hls hnd => ?_⟩
    obtain ⟨fuel, r, hr⟩ := hends
    obtain ⟨w, rfl, h1, h2⟩ := hls.result hnd hs (Option.join_eq_some_iff.1 hr)
    exact ⟨fuel, w, hr, fun l hl => by rw [h1 l hl, toInt_natCast (hvalues ls hls hnd l hl)], h2⟩

end

/-- A circuit of one node. -/
def oneNode : Circuit where
  allNodes := [0]
  allNodesMap := (∅ : AList fun _ : String => NodeId).insert "a" 0
  node := fun _ => { name := "a", isInput := true }
  cluster := fun _ => {}

/-- The last line has no newline: the loop over the digits reads the 5 for ever. -/
theorem readWeights_unterminated :
    ¬ReadsWeights oneNode (fun _ => 1) ['a', ' ', '5'] := by
  intro h
  obtain ⟨fuel, r, hr⟩ := h.ends
  have hl : (WeightLine.mk ['a'] [' '] ['5'] 0).Ok oneNode :=
    ⟨by decide, List.forall_mem_singleton.2 (by decide), by decide,
      List.forall_mem_singleton.2 (by decide), by decide, List.forall_mem_singleton.2 (by decide),
      by decide⟩
  have hs : (Stream.mk ['a', ' ', '5'] ' ' true).get.At ['a', ' ', '5'] := Stream.get_at
  have hstep : recordStep oneNode fuel ((Stream.mk ['a', ' ', '5'] ' ' true).get, fun _ => 1) =
      .inr none := by
    rw [recordStep, hl.stuck hs fuel]
    rfl
  cases fuel with
  | zero => cases hr
  | succ fuel =>
    have hrun := Option.join_eq_some_iff.1 hr
    rw [loop_leave _ hstep] at hrun
    cases hrun

end Msyn.Nodecircuit
