import Mathlib.Data.Int.Bitwise
import Mathlib.Tactic.Linarith
import Mathlib.Tactic.Positivity
import Mathlib.Tactic.Ring

/-!
Base-128 integers, least significant group first, with the high bit of a byte
set when more bytes follow. `IntegerEncoding` is the interface of the external
codec: its functions are unknown, its fields state the documented format.
`standard` is a codec of that interface.
-/
namespace StackPulse.Varint

variable {bytes : List UInt8} {limit value len : ℕ}

/-- The value of the first base-128 number of at most `limit` bytes and the
number of bytes it takes, or `none` when it does not end within them. -/
def base128 : ℕ → List UInt8 → Option (ℕ × ℕ)
  | 0, _ => none
  | _ + 1, [] => none
  | limit + 1, byte :: bytes =>
      if byte.toNat < 128 then some (byte.toNat, 1)
      else (base128 limit bytes).map fun (value, len) =>
        (byte.toNat - 128 + 128 * value, len + 1)

theorem base128_length (h : base128 limit bytes = some (value, len)) :
    0 < len ∧ len ≤ limit ∧ len ≤ bytes.length := by
  induction limit generalizing bytes value len with
  | zero => simp [base128] at h
  | succ limit ih =>
    cases bytes with
    | nil => simp [base128] at h
    | cons byte bytes =>
      unfold base128 at h
      split at h
      · cases h
        simp
      · obtain ⟨⟨v, n⟩, hv, heq⟩ := Option.map_eq_some_iff.mp h
        cases heq
        obtain ⟨h0, h1, h2⟩ := ih hv
        simp only [List.length_cons]
        omega

/-- Only the bytes of a number decide about it, if the limit is large enough. -/
theorem base128_congr {bytes' : List UInt8} {limit' : ℕ}
    (h : base128 limit bytes = some (value, len)) (htake : bytes'.take len = bytes.take len)
    (hlimit : len ≤ limit') : base128 limit' bytes' = some (value, len) := by
  induction limit generalizing bytes value len bytes' limit' with
  | zero => simp [base128] at h
  | succ limit ih =>
    obtain ⟨n, rfl⟩ : ∃ n, len = n + 1 := Nat.exists_eq_add_one.mpr (base128_length h).1
    obtain ⟨limit', rfl⟩ : ∃ l, limit' = l + 1 := Nat.exists_eq_add_one.mpr (by omega)
    cases bytes with
    | nil => simp [base128] at h
    | cons byte bytes =>
      cases bytes' with
      | nil => simp at htake
      | cons byte' bytes' =>
        rw [List.take_succ_cons, List.take_succ_cons, List.cons.injEq] at htake
        obtain ⟨rfl, htake⟩ := htake
        unfold base128 at h ⊢
        split at h
        · rw [if_pos ‹_›]
          exact h
        · rw [if_neg ‹_›]
          obtain ⟨⟨v, m⟩, hv, heq⟩ := Option.map_eq_some_iff.mp h
          cases heq
          rw [ih hv htake (by omega)]
          rfl

/-- Bytes after the end of a number do not matter. -/
theorem base128_append (tail : List UInt8) (h : base128 limit bytes = some (value, len)) :
    base128 limit (bytes ++ tail) = some (value, len) :=
  base128_congr h (List.take_append_of_le_length (base128_length h).2.2) (base128_length h).2.1

/-- A number that ends within the first bytes stands in those bytes alone. -/
theorem base128_of_append {tail : List UInt8}
    (h : base128 limit (bytes ++ tail) = some (value, len)) (hlen : len ≤ bytes.length) :
    base128 limit bytes = some (value, len) :=
  base128_congr h (List.take_append_of_le_length hlen).symm (base128_length h).2.1

/-- With `limit` bytes at hand an unfinished number stays unfinished. -/
theorem base128_none_append (tail : List UInt8) (hlen : limit ≤ bytes.length)
    (h : base128 limit bytes = none) : base128 limit (bytes ++ tail) = none := by
  rcases hb : base128 limit (bytes ++ tail) with _ | ⟨value, len⟩
  · rfl
  · have hle := (base128_length hb).2.1
    rw [base128_of_append hb (hle.trans hlen)] at h
    cases h

/-- The zigzag numbering of signed integers: 0, -1, 1, -2, 2, ... -/
def zigzag (n : ℤ) : ℕ := if 0 ≤ n then 2 * n.toNat else 2 * (-n - 1).toNat + 1

theorem zigzag_lt {n : ℤ} (h : -2 ^ 63 ≤ n) (h' : n < 2 ^ 63) : zigzag n < 2 ^ 64 := by
  unfold zigzag
  split <;> omega

/-- The varint codec the spool is written and read with. The encoders give a
base-128 number of at most ten bytes, unsigned or zigzag; the decoders accept
every base-128 number that ends within ten bytes and fits the type. -/
structure IntegerEncoding where
  encodeU64 : UInt64 → List UInt8
  encodeU32 : UInt32 → List UInt8
  encodeI64 : Int64 → List UInt8
  decodeU64 : List UInt8 → Option (UInt64 × ℕ)
  decodeU32 : List UInt8 → Option (UInt32 × ℕ)
  decodeI64 : List UInt8 → Option (Int64 × ℕ)
  encodeU64_eq : ∀ n, base128 10 (encodeU64 n) = some (n.toNat, (encodeU64 n).length)
  encodeU32_eq : ∀ n, base128 10 (encodeU32 n) = some (n.toNat, (encodeU32 n).length)
  encodeI64_eq : ∀ n, base128 10 (encodeI64 n) = some (zigzag n.toInt, (encodeI64 n).length)
  decodeU64_iff : ∀ bytes n len, decodeU64 bytes = some (n, len) ↔
    base128 10 bytes = some (n.toNat, len)
  decodeU32_iff : ∀ bytes n len, decodeU32 bytes = some (n, len) ↔
    base128 10 bytes = some (n.toNat, len)
  decodeI64_iff : ∀ bytes n len, decodeI64 bytes = some (n, len) ↔
    base128 10 bytes = some (zigzag n.toInt, len)

/-- Groups of seven bits, at most `limit` of them. -/
def toBase128 : ℕ → ℕ → List UInt8
  | 0, n => [UInt8.ofNat n]
  | limit + 1, n =>
      if n < 128 then [UInt8.ofNat n]
      else UInt8.ofNat (128 + n % 128) :: toBase128 limit (n / 128)

theorem base128_toBase128 (limit n : ℕ) (h : n < 128 ^ (limit + 1)) :
    base128 (limit + 1) (toBase128 limit n) = some (n, (toBase128 limit n).length) := by
  induction limit generalizing n with
  | zero =>
    have hn : n < 128 := by simpa using h
    have hn' : (UInt8.ofNat n).toNat = n := by rw [UInt8.toNat_ofNat']; omega
    simp [toBase128, base128, hn', hn]
  | succ limit ih =>
    unfold toBase128
    split
    · have hn' : (UInt8.ofNat n).toNat = n := by rw [UInt8.toNat_ofNat']; omega
      simp [base128, hn', ‹n < 128›]
    · have hn' : (UInt8.ofNat (128 + n % 128)).toNat = 128 + n % 128 := by
        rw [UInt8.toNat_ofNat']
        omega
      have hdiv : n / 128 < 128 ^ (limit + 1) := by
        rw [Nat.div_lt_iff_lt_mul (by omega), ← Nat.pow_succ]
        exact h
      rw [base128, hn', if_neg (by omega), ih _ hdiv]
      simp only [Option.map_some, List.length_cons, Option.some.injEq, Prod.mk.injEq, and_true]
      omega

/-- Inverse of `zigzag`. -/
def unzigzag (n : ℕ) : ℤ := if n % 2 = 0 then (n / 2 : ℕ) else -(n / 2 : ℕ) - 1

theorem unzigzag_zigzag (n : ℤ) : unzigzag (zigzag n) = n := by
  unfold zigzag
  split
  · rw [unzigzag, if_pos (by omega)]
    omega
  · rw [unzigzag, if_neg (by omega)]
    omega

theorem zigzag_unzigzag (n : ℕ) : zigzag (unzigzag n) = n := by
  unfold unzigzag
  split
  · rw [zigzag, if_pos (by omega)]
    omega
  · rw [zigzag, if_neg (by omega)]
    omega

def standard : IntegerEncoding where
  encodeU64 n := toBase128 9 n.toNat
  encodeU32 n := toBase128 9 n.toNat
  encodeI64 n := toBase128 9 (zigzag n.toInt)
  decodeU64 bytes := (base128 10 bytes).bind fun (value, len) =>
    if value < 2 ^ 64 then some (UInt64.ofNat value, len) else none
  decodeU32 bytes := (base128 10 bytes).bind fun (value, len) =>
    if value < 2 ^ 32 then some (UInt32.ofNat value, len) else none
  decodeI64 bytes := (base128 10 bytes).bind fun (value, len) =>
    if value < 2 ^ 64 then some (Int64.ofInt (unzigzag value), len) else none
  encodeU64_eq n := base128_toBase128 9 n.toNat (by have := n.toNat_lt; omega)
  encodeU32_eq n := base128_toBase128 9 n.toNat (by have := n.toNat_lt; omega)
  encodeI64_eq n := by
    have hlt := zigzag_lt n.le_toInt n.toInt_lt
    exact base128_toBase128 9 _ (by omega)
  decodeU64_iff bytes n len := by
    cases hb : base128 10 bytes with
    | none => simp
    | some p =>
      obtain ⟨value, m⟩ := p
      have hn := n.toNat_lt
      simp only [Option.bind_some, Option.some.injEq, Prod.mk.injEq]
      split
      · simp only [Option.some.injEq, Prod.mk.injEq, ← UInt64.toNat_inj]
        rw [UInt64.toNat_ofNat_of_lt' ‹_›]
      · simp only [reduceCtorEq, false_iff, not_and]
        omega
  decodeU32_iff bytes n len := by
    cases hb : base128 10 bytes with
    | none => simp
    | some p =>
      obtain ⟨value, m⟩ := p
      have hn := n.toNat_lt
      simp only [Option.bind_some, Option.some.injEq, Prod.mk.injEq]
      split
      · simp only [Option.some.injEq, Prod.mk.injEq, ← UInt32.toNat_inj]
        rw [UInt32.toNat_ofNat_of_lt' ‹_›]
      · simp only [reduceCtorEq, false_iff, not_and]
        omega
  decodeI64_iff bytes n len := by
    cases hb : base128 10 bytes with
    | none => simp
    | some p =>
      obtain ⟨value, m⟩ := p
      have hz := zigzag_lt n.le_toInt n.toInt_lt
      simp only [Option.bind_some, Option.some.injEq, Prod.mk.injEq]
      split
      · have hrange : -2 ^ 63 ≤ unzigzag value ∧ unzigzag value < 2 ^ 63 := by
          unfold unzigzag
          split <;> omega
        simp only [Option.some.injEq, Prod.mk.injEq, ← Int64.toInt_inj]
        rw [Int64.toInt_ofInt_of_le hrange.1 hrange.2]
        constructor
        · rintro ⟨hv, rfl⟩
          exact ⟨by rw [← hv, zigzag_unzigzag], rfl⟩
        · rintro ⟨rfl, rfl⟩
          exact ⟨unzigzag_zigzag _, rfl⟩
      · simp only [reduceCtorEq, false_iff, not_and]
        omega

end StackPulse.Varint
