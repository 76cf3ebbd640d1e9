import Mathlib.Data.UInt

/-!
Text in bytes. Splitting a sequence after each separator, and the lossy decoding
of UTF-8 that puts a replacement character for each maximal invalid part. A
newline byte ends every sequence that is not complete, so decoding does not look
past the end of a line, and text can be decoded line by line.
-/
namespace StackPulse.TextLines

variable {bytes : List UInt8}

section

variable {α : Type} [DecidableEq α] (sep : α)

/-- The pieces of a sequence, each with the separator that ends it. -/
def splitInclusive : List α → List (List α)
  | [] => []
  | a :: rest =>
      if a = sep then [a] :: splitInclusive rest
      else
        match splitInclusive rest with
        | [] => [[a]]
        | piece :: pieces => (a :: piece) :: pieces

theorem splitInclusive_sep (l : List α) :
    splitInclusive sep (sep :: l) = [sep] :: splitInclusive sep l := if_pos rfl

theorem splitInclusive_cons {a : α} (ha : a ≠ sep) (l : List α) :
    splitInclusive sep (a :: l) =
      match splitInclusive sep l with
      | [] => [[a]]
      | piece :: pieces => (a :: piece) :: pieces := if_neg ha

/-- What follows a separator is split on its own. -/
theorem splitInclusive_append (l l' : List α) :
    splitInclusive sep (l ++ sep :: l') =
      splitInclusive sep (l ++ [sep]) ++ splitInclusive sep l' := by
  induction l with
  | nil =>
    show splitInclusive sep (sep :: l') = splitInclusive sep [sep] ++ _
    rw [splitInclusive_sep, splitInclusive_sep]
    rfl
  | cons a l ih =>
    rw [List.cons_append, List.cons_append]
    by_cases ha : a = sep
    · rw [ha, splitInclusive_sep, splitInclusive_sep, ih, List.cons_append]
    · rw [splitInclusive_cons sep ha, splitInclusive_cons sep ha, ih]
      rcases hpieces : splitInclusive sep (l ++ [sep]) with _ | ⟨piece, pieces⟩
      · -- a sequence that is not empty has a piece
        cases l with
        | nil => cases (splitInclusive_sep sep []).symm.trans hpieces
        | cons b l =>
          rw [List.cons_append] at hpieces
          unfold splitInclusive at hpieces
          split at hpieces
          · cases hpieces
          · split at hpieces <;> cases hpieces
      · rfl

/-- A sequence without a separator is one piece. -/
theorem splitInclusive_of_notMem {l : List α} (h : sep ∉ l) (hne : l ≠ []) :
    splitInclusive sep l = [l] := by
  induction l with
  | nil => exact absurd rfl hne
  | cons a l ih =>
    have ha : a ≠ sep := fun heq => h (heq ▸ (.head _))
    rw [splitInclusive_cons sep ha]
    cases l with
    | nil => rfl
    | cons b l =>
      rw [ih (fun hmem => h (List.mem_cons_of_mem a hmem)) (List.cons_ne_nil b l)]

/-- The first piece ends at the first separator. -/
theorem splitInclusive_first {l : List α} (h : sep ∉ l) (l' : List α) :
    splitInclusive sep (l ++ sep :: l') = (l ++ [sep]) :: splitInclusive sep l' := by
  induction l with
  | nil => exact splitInclusive_sep sep l'
  | cons a l ih =>
    have ha : a ≠ sep := fun heq => h (heq ▸ (.head _))
    rw [List.cons_append, splitInclusive_cons sep ha,
      ih fun hmem => h (List.mem_cons_of_mem a hmem)]
    rfl

end

/-- The lines of a text without their line ends, as `str::lines`: a carriage return
is dropped only before a newline. -/
def textLines (text : List Char) : List (List Char) :=
  (splitInclusive '\n' text).map fun line =>
    if line.getLast? = some '\n' then
      let line := line.dropLast
      if line.getLast? = some '\r' then line.dropLast else line
    else line

def newline : UInt8 := 10

def replacement : Char := Char.ofNat 0xFFFD

def isContinuation (b : UInt8) : Bool := 0x80 ≤ b && b ≤ 0xBF

/-- The length of the sequence that a byte begins, or 0 if none begins with it. -/
def sequenceLength (b : UInt8) : ℕ :=
  if b < 0x80 then 1
  else if b < 0xC2 then 0
  else if b < 0xE0 then 2
  else if b < 0xF0 then 3
  else if b < 0xF5 then 4
  else 0

/-- Which second bytes of a sequence of three or four are allowed: they exclude
overlong forms, surrogates and what is beyond the last code point. -/
def allowsSecond (first second : UInt8) : Bool :=
  if first = 0xE0 then 0xA0 ≤ second && second ≤ 0xBF
  else if first = 0xED then 0x80 ≤ second && second ≤ 0x9F
  else if first = 0xF0 then 0x90 ≤ second && second ≤ 0xBF
  else if first = 0xF4 then 0x80 ≤ second && second ≤ 0x8F
  else isContinuation second

def low (bits : ℕ) (b : UInt8) : ℕ := b.toNat % 2 ^ bits

/-- The byte at an index, 0 past the end. -/
def safeGet (rest : List UInt8) (i : ℕ) : UInt8 := rest.getD i 0

/-- The character that a byte and the three after it begin with, and how many of
these three it covers. -/
def decodeUnit (b c₁ c₂ c₃ : UInt8) : Char × ℕ :=
  match sequenceLength b with
  | 1 => (Char.ofNat b.toNat, 0)
  | 2 =>
      if !isContinuation c₁ then (replacement, 0)
      else (Char.ofNat (low 5 b * 2 ^ 6 + low 6 c₁), 1)
  | 3 =>
      if !allowsSecond b c₁ then (replacement, 0)
      else if !isContinuation c₂ then (replacement, 1)
      else (Char.ofNat (low 4 b * 2 ^ 12 + low 6 c₁ * 2 ^ 6 + low 6 c₂), 2)
  | 4 =>
      if !allowsSecond b c₁ then (replacement, 0)
      else if !isContinuation c₂ then (replacement, 1)
      else if !isContinuation c₃ then (replacement, 2)
      else (Char.ofNat (low 3 b * 2 ^ 18 + low 6 c₁ * 2 ^ 12 + low 6 c₂ * 2 ^ 6 + low 6 c₃), 3)
  | _ => (replacement, 0)

def decodeFirst (b : UInt8) (rest : List UInt8) : Char × ℕ :=
  decodeUnit b (safeGet rest 0) (safeGet rest 1) (safeGet rest 2)

/-- Decoding with a number of bytes that were already covered. -/
def decodeFrom : ℕ → List UInt8 → List Char
  | _, [] => []
  | skip + 1, _ :: rest => decodeFrom skip rest
  | 0, b :: rest => (decodeFirst b rest).1 :: decodeFrom (decodeFirst b rest).2 rest

/-- `String::from_utf8_lossy`. -/
def decodeLossy (bytes : List UInt8) : List Char := decodeFrom 0 bytes

/-- Neither a newline nor the end of the text continues a sequence. -/
theorem isContinuation_newline : isContinuation newline = false := by decide

theorem isContinuation_zero : isContinuation 0 = false := by decide

theorem allowsSecond_of_not_continuation {first second : UInt8}
    (h : isContinuation second = false) : allowsSecond first second = false := by
  have hall : ∀ n < 256, isContinuation (.ofNat n) = false →
      ∀ first ∈ [0xE0, 0xED, 0xF0, 0xF4], allowsSecond first (.ofNat n) = false := by
    decide +kernel
  by_cases hmem : first ∈ [0xE0, 0xED, 0xF0, 0xF4]
  · have hsecond := hall second.toNat second.toNat_lt
    rw [UInt8.ofNat_toNat] at hsecond
    exact hsecond h first hmem
  · simp only [List.mem_cons, List.not_mem_nil, or_false, not_or] at hmem
    simp only [allowsSecond, hmem, if_false, h]

section

variable (b : UInt8) {c₁ c₂ c₃ : UInt8}

theorem decodeUnit_of_first (h : isContinuation c₁ = false) (d₂ d₃ : UInt8) :
    decodeUnit b c₁ c₂ c₃ = decodeUnit b 0 d₂ d₃ := by
  unfold decodeUnit
  rw [h, isContinuation_zero, allowsSecond_of_not_continuation h,
    allowsSecond_of_not_continuation isContinuation_zero]
  simp only [Bool.not_false, if_true]

theorem decodeUnit_of_second (h : isContinuation c₂ = false) (d₃ : UInt8) :
    decodeUnit b c₁ c₂ c₃ = decodeUnit b c₁ 0 d₃ := by
  unfold decodeUnit
  rw [h, isContinuation_zero]
  simp only [Bool.not_false, if_true]

theorem decodeUnit_of_third (h : isContinuation c₃ = false) :
    decodeUnit b c₁ c₂ c₃ = decodeUnit b c₁ c₂ 0 := by
  unfold decodeUnit
  rw [h, isContinuation_zero]
  simp only [Bool.not_false, if_true]

end

/-- A character covers bytes only as far as they continue its sequence. -/
theorem decodeUnit_covers (b c₁ c₂ c₃ : UInt8) :
    (decodeUnit b c₁ c₂ c₃).2 ≤ 3 ∧
    (isContinuation c₁ = false → (decodeUnit b c₁ c₂ c₃).2 ≤ 0) ∧
    (isContinuation c₂ = false → (decodeUnit b c₁ c₂ c₃).2 ≤ 1) ∧
    (isContinuation c₃ = false → (decodeUnit b c₁ c₂ c₃).2 ≤ 2) := by
  have hsecond : isContinuation c₁ = false → allowsSecond b c₁ = false :=
    allowsSecond_of_not_continuation
  unfold decodeUnit
  generalize isContinuation c₁ = k₁ at hsecond ⊢
  generalize allowsSecond b c₁ = k₁' at hsecond ⊢
  generalize isContinuation c₂ = k₂
  generalize isContinuation c₃ = k₃
  split <;> (repeat' split) <;> simp_all

/-- The first character does not depend on what follows the line. -/
theorem decodeFirst_append (b : UInt8) (line rest : List UInt8) :
    decodeFirst b (line ++ newline :: rest) = decodeFirst b line := by
  match line with
  | [] =>
    exact (decodeUnit_of_first b isContinuation_newline 0 0)
  | [c₁] => exact decodeUnit_of_second b isContinuation_newline 0
  | [c₁, c₂] => exact decodeUnit_of_third b isContinuation_newline
  | c₁ :: c₂ :: c₃ :: line => rfl

theorem decodeFirst_covers (b : UInt8) (line : List UInt8) :
    (decodeFirst b line).2 ≤ line.length := by
  match line with
  | [] => exact (decodeUnit_covers b 0 0 0).2.1 isContinuation_zero
  | [c₁] => exact (decodeUnit_covers b c₁ 0 0).2.2.1 isContinuation_zero
  | [c₁, c₂] => exact (decodeUnit_covers b c₁ c₂ 0).2.2.2 isContinuation_zero
  | c₁ :: c₂ :: c₃ :: line => exact (decodeUnit_covers b c₁ c₂ c₃).1.trans (Nat.le_add_left 3 _)

/-- A line is decoded on its own. -/
theorem decodeFrom_append {skip : ℕ} {line : List UInt8} (hskip : skip ≤ line.length)
    (rest : List UInt8) :
    decodeFrom skip (line ++ newline :: rest) =
      decodeFrom skip line ++ '\n' :: decodeLossy rest := by
  induction line generalizing skip with
  | nil =>
    have heq : skip = 0 := Nat.le_zero.mp hskip
    subst heq
    rfl
  | cons b line ih =>
    cases skip with
    | succ skip => exact ih (Nat.le_of_succ_le_succ hskip)
    | zero =>
      show (decodeFirst b (line ++ newline :: rest)).1 ::
        decodeFrom (decodeFirst b (line ++ newline :: rest)).2 (line ++ newline :: rest) = _
      rw [decodeFirst_append, ih (decodeFirst_covers b line)]
      rfl

theorem decodeLossy_append (line rest : List UInt8) :
    decodeLossy (line ++ newline :: rest) = decodeLossy line ++ '\n' :: decodeLossy rest :=
  decodeFrom_append (Nat.zero_le _) rest

theorem ofNat_ne_newline {n : ℕ} (h : n ≠ 10) : Char.ofNat n ≠ '\n' := by
  by_cases hvalid : n.isValidChar
  · rw [Char.ofNat, dif_pos hvalid]
    intro heq
    have hnat : n = 10 := congrArg Char.toNat heq
    exact h hnat
  · rw [Char.ofNat, dif_neg hvalid]
    decide

theorem sequenceLength_cases (b : UInt8) :
    (sequenceLength b = 2 → 0xC2 ≤ b.toNat ∧ b.toNat < 0xE0) ∧
    (sequenceLength b = 3 → 0xE0 ≤ b.toNat ∧ b.toNat < 0xF0) ∧
    (sequenceLength b = 4 → 0xF0 ≤ b.toNat ∧ b.toNat < 0xF5) := by
  have hall : ∀ n < 256, (sequenceLength (.ofNat n) = 2 → 0xC2 ≤ n ∧ n < 0xE0) ∧
      (sequenceLength (.ofNat n) = 3 → 0xE0 ≤ n ∧ n < 0xF0) ∧
      (sequenceLength (.ofNat n) = 4 → 0xF0 ≤ n ∧ n < 0xF5) := by decide +kernel
  have hb := hall b.toNat b.toNat_lt
  rwa [UInt8.ofNat_toNat] at hb

/-- The second byte makes up for a first byte without value bits. -/
theorem low_of_allowsSecond {b c : UInt8} (h : allowsSecond b c = true) :
    (b.toNat = 0xE0 → 0x20 ≤ low 6 c) ∧ (b.toNat = 0xF0 → 0x10 ≤ low 6 c) := by
  have hall : ∀ n < 256, (allowsSecond 0xE0 (.ofNat n) = true → 0x20 ≤ low 6 (.ofNat n)) ∧
      (allowsSecond 0xF0 (.ofNat n) = true → 0x10 ≤ low 6 (.ofNat n)) := by decide +kernel
  obtain ⟨hthree, hfour⟩ := hall c.toNat c.toNat_lt
  rw [UInt8.ofNat_toNat] at hthree hfour
  refine ⟨fun hb => hthree ?_, fun hb => hfour ?_⟩
  · rwa [show b = 0xE0 from UInt8.toNat_inj.mp hb] at h
  · rwa [show b = 0xF0 from UInt8.toNat_inj.mp hb] at h

theorem decodeUnit_ne_newline {b : UInt8} (hb : b ≠ newline) (c₁ c₂ c₃ : UInt8) :
    (decodeUnit b c₁ c₂ c₃).1 ≠ '\n' := by
  have hreplacement : replacement ≠ '\n' := by decide
  have hne : b.toNat ≠ 10 := fun heq => hb (UInt8.toNat_inj.mp heq)
  obtain ⟨htwo, hthree, hfour⟩ := sequenceLength_cases b
  unfold decodeUnit
  split
  · exact ofNat_ne_newline hne
  · rename_i hlen
    have hrange := htwo hlen
    split
    · exact hreplacement
    · apply ofNat_ne_newline
      unfold low
      omega
  · rename_i hlen
    have hrange := hthree hlen
    split
    · exact hreplacement
    · rename_i hallows
      have hsecond := (low_of_allowsSecond (Bool.not_not_eq.mp hallows)).1
      split
      · exact hreplacement
      · apply ofNat_ne_newline
        have hfirst : low 4 b = b.toNat - 0xE0 := by
          unfold low
          omega
        omega
  · rename_i hlen
    have hrange := hfour hlen
    split
    · exact hreplacement
    · rename_i hallows
      have hsecond := (low_of_allowsSecond (Bool.not_not_eq.mp hallows)).2
      split
      · exact hreplacement
      split
      · exact hreplacement
      · apply ofNat_ne_newline
        have hfirst : low 3 b = b.toNat - 0xF0 := by
          unfold low
          omega
        omega
  · exact hreplacement

theorem newline_notMem_decodeFrom (h : newline ∉ bytes) (skip : ℕ) :
    '\n' ∉ decodeFrom skip bytes := by
  induction bytes generalizing skip with
  | nil =>
    cases skip <;> exact List.not_mem_nil
  | cons b rest ih =>
    have hrest : newline ∉ rest := fun hmem => h (List.mem_cons_of_mem b hmem)
    cases skip with
    | succ skip => exact ih hrest skip
    | zero =>
      intro hmem
      rcases List.mem_cons.mp hmem with heq | hmem
      · exact decodeUnit_ne_newline (fun hb => h (hb ▸ (.head _))) _ _ _ heq.symm
      · exact ih hrest _ hmem

theorem decodeLossy_ne_nil (h : bytes ≠ []) : decodeLossy bytes ≠ [] := by
  cases bytes with
  | nil => exact absurd rfl h
  | cons b rest => exact List.cons_ne_nil _ _

theorem textLines_append (line rest : List Char) :
    textLines (line ++ '\n' :: rest) = textLines (line ++ ['\n']) ++ textLines rest := by
  unfold textLines
  rw [splitInclusive_append, List.map_append]

/-- Complete lines and what follows them are decoded and split separately. -/
theorem textLines_decodeLossy {complete : List UInt8}
    (hcomplete : complete = [] ∨ complete.getLast? = some newline) (rest : List UInt8) :
    textLines (decodeLossy (complete ++ rest)) =
      textLines (decodeLossy complete) ++ textLines (decodeLossy rest) := by
  rcases hcomplete with rfl | hlast
  · rfl
  · obtain ⟨front, rfl⟩ := List.getLast?_eq_some_iff.mp hlast
    have hnil : decodeLossy [] = [] := rfl
    rw [List.append_assoc, List.singleton_append, decodeLossy_append, decodeLossy_append,
      textLines_append, hnil]

/-- Bytes without a newline are at most one line. -/
theorem textLines_of_notMem (h : newline ∉ bytes) :
    textLines (decodeLossy bytes) = if bytes = [] then [] else [decodeLossy bytes] := by
  by_cases hnil : bytes = []
  · rw [if_pos hnil, hnil]
    rfl
  · have hmem : '\n' ∉ decodeLossy bytes := newline_notMem_decodeFrom h 0
    have hlast : (decodeLossy bytes).getLast? ≠ some '\n' := fun hlast =>
      hmem (List.mem_of_getLast? hlast)
    unfold textLines
    rw [if_neg hnil, splitInclusive_of_notMem '\n' hmem (decodeLossy_ne_nil hnil),
      List.map_singleton, if_neg hlast]

end StackPulse.TextLines
