import Mathlib.Data.List.Basic
import Mathlib.Tactic.Ring

/-!
Words in memory. A word of a fixed width lies in little-endian order, and an array of words lies
without gaps. Both directions are executable: writing a value, and reading one back from bytes of
the right length.
-/
namespace StackPulse.MemoryWords

/-- The lowest `width` bytes of a number. -/
def bytesOf : ℕ → ℕ → List UInt8
  | 0, _ => []
  | width + 1, n => UInt8.ofNat n :: bytesOf width (n / 256)

def valueOf : List UInt8 → ℕ
  | [] => 0
  | b :: bs => b.toNat + 256 * valueOf bs

theorem length_bytesOf (width n : ℕ) : (bytesOf width n).length = width := by
  induction width generalizing n with
  | zero => rfl
  | succ width ih => simp only [bytesOf, List.length_cons, ih]

theorem valueOf_lt (bs : List UInt8) : valueOf bs < 256 ^ bs.length := by
  induction bs with
  | nil => exact Nat.one_pos
  | cons b bs ih =>
    have hb : b.toNat < 256 := b.toNat_lt
    simp only [valueOf, List.length_cons, Nat.pow_succ]
    omega

theorem valueOf_bytesOf {width n : ℕ} (h : n < 256 ^ width) : valueOf (bytesOf width n) = n := by
  induction width generalizing n with
  | zero =>
    simp only [Nat.pow_zero, Nat.lt_one_iff] at h
    simp only [bytesOf, valueOf, h]
  | succ width ih =>
    have hdiv : n / 256 < 256 ^ width := by
      rw [Nat.pow_succ] at h
      exact Nat.div_lt_of_lt_mul (by omega)
    simp only [bytesOf, valueOf, ih hdiv, UInt8.toNat_ofNat']
    omega

theorem bytesOf_valueOf (bs : List UInt8) : bytesOf bs.length (valueOf bs) = bs := by
  induction bs with
  | nil => rfl
  | cons b bs ih =>
    have hb : b.toNat < 256 := b.toNat_lt
    have hlow : UInt8.ofNat (b.toNat + 256 * valueOf bs) = b := by
      apply UInt8.toNat_inj.mp
      rw [UInt8.toNat_ofNat']
      omega
    have hhigh : (b.toNat + 256 * valueOf bs) / 256 = valueOf bs := by omega
    simp only [valueOf, List.length_cons, bytesOf, hlow, hhigh, ih]

/-- A type of words: its width in bytes and its numbers. -/
structure Word (α : Type) where
  width : ℕ
  toNat : α → ℕ
  ofNat : ℕ → α
  toNat_lt : ∀ a, toNat a < 256 ^ width
  toNat_ofNat : ∀ {n}, n < 256 ^ width → toNat (ofNat n) = n
  ofNat_toNat : ∀ a, ofNat (toNat a) = a

def u16 : Word UInt16 where
  width := 2
  toNat := UInt16.toNat
  ofNat := UInt16.ofNat
  toNat_lt := UInt16.toNat_lt
  toNat_ofNat := fun h => UInt16.toNat_ofNat_of_lt h
  ofNat_toNat := fun _ => UInt16.ofNat_toNat

def u32 : Word UInt32 where
  width := 4
  toNat := UInt32.toNat
  ofNat := UInt32.ofNat
  toNat_lt := UInt32.toNat_lt
  toNat_ofNat := fun h => UInt32.toNat_ofNat_of_lt h
  ofNat_toNat := fun _ => UInt32.ofNat_toNat

def u64 : Word UInt64 where
  width := 8
  toNat := UInt64.toNat
  ofNat := UInt64.ofNat
  toNat_lt := UInt64.toNat_lt
  toNat_ofNat := fun h => UInt64.toNat_ofNat_of_lt h
  ofNat_toNat := fun _ => UInt64.ofNat_toNat

namespace Word

variable {α : Type} (W : Word α)

def encode (a : α) : List UInt8 := bytesOf W.width (W.toNat a)

def decode (bs : List UInt8) : α := W.ofNat (valueOf bs)

@[simp] theorem length_encode (a : α) : (W.encode a).length = W.width := length_bytesOf _ _

@[simp] theorem decode_encode (a : α) : W.decode (W.encode a) = a := by
  unfold decode encode
  rw [valueOf_bytesOf (W.toNat_lt a), W.ofNat_toNat]

theorem encode_decode {bs : List UInt8} (h : bs.length = W.width) :
    W.encode (W.decode bs) = bs := by
  unfold decode encode
  rw [W.toNat_ofNat (h ▸ valueOf_lt bs), ← h, bytesOf_valueOf]

/-- An array of `n` words. -/
def decodeArray : ℕ → List UInt8 → List α
  | 0, _ => []
  | n + 1, bs => W.decode (bs.take W.width) :: decodeArray n (bs.drop W.width)

def encodeArray (as : List α) : List UInt8 := as.flatMap W.encode

theorem length_decodeArray (n : ℕ) (bs : List UInt8) : (W.decodeArray n bs).length = n := by
  induction n generalizing bs with
  | zero => rfl
  | succ n ih => simp only [decodeArray, List.length_cons, ih]

theorem length_encodeArray (as : List α) : (W.encodeArray as).length = W.width * as.length := by
  induction as with
  | nil => rfl
  | cons a as ih =>
    unfold encodeArray at ih ⊢
    rw [List.flatMap_cons, List.length_append, ih, length_encode, List.length_cons]
    ring

theorem decodeArray_encodeArray (as : List α) :
    W.decodeArray as.length (W.encodeArray as) = as := by
  induction as with
  | nil => rfl
  | cons a as ih =>
    unfold encodeArray at ih ⊢
    have hwidth : (W.encode a).length = W.width := W.length_encode a
    simp only [List.flatMap_cons, List.length_cons, decodeArray]
    rw [List.take_left' hwidth, List.drop_left' hwidth, decode_encode, ih]

theorem encodeArray_decodeArray {n : ℕ} {bs : List UInt8} (h : bs.length = W.width * n) :
    W.encodeArray (W.decodeArray n bs) = bs := by
  induction n generalizing bs with
  | zero => exact (List.eq_nil_of_length_eq_zero h).symm
  | succ n ih =>
    rw [Nat.mul_succ] at h
    have htake : (bs.take W.width).length = W.width := by
      rw [List.length_take]
      omega
    have hdrop : (bs.drop W.width).length = W.width * n := by
      rw [List.length_drop]
      omega
    have hrest := ih hdrop
    unfold encodeArray at hrest ⊢
    rw [decodeArray, List.flatMap_cons, W.encode_decode htake, hrest, List.take_append_drop]

end Word

end StackPulse.MemoryWords
