import Mathlib.Data.UInt

/-!
Checked arithmetic on 64-bit words, described by natural numbers and integers.
-/
namespace StackPulse.Words

variable {a b c : UInt64}

def checkedAdd (a b : UInt64) : Option UInt64 :=
  if a.toNat + b.toNat < 2 ^ 64 then some (a + b) else none

def checkedSub (a b : UInt64) : Option UInt64 :=
  if b ≤ a then some (a - b) else none

def saturatingAdd (a b : UInt64) : UInt64 :=
  if a.toNat + b.toNat < 2 ^ 64 then a + b else UInt64.ofNat (2 ^ 64 - 1)

def checkedAddSigned (a : UInt64) (d : Int64) : Option UInt64 :=
  if 0 ≤ a.toNat + d.toInt ∧ a.toNat + d.toInt < 2 ^ 64
  then some (UInt64.ofNat (a.toNat + d.toInt).toNat) else none

theorem checkedAdd_eq_some : checkedAdd a b = some c ↔ c.toNat = a.toNat + b.toNat := by
  have hc := c.toNat_lt
  unfold checkedAdd
  split
  · rw [Option.some.injEq, ← UInt64.toNat_inj, UInt64.toNat_add, Nat.mod_eq_of_lt ‹_›]
    exact eq_comm
  · simp only [reduceCtorEq, false_iff]
    omega

theorem checkedAdd_eq_none : checkedAdd a b = none ↔ 2 ^ 64 ≤ a.toNat + b.toNat := by
  unfold checkedAdd
  split
  · simp only [reduceCtorEq, false_iff]
    omega
  · simp only [true_iff]
    omega

theorem toNat_saturatingAdd (a b : UInt64) :
    (saturatingAdd a b).toNat = min (a.toNat + b.toNat) (2 ^ 64 - 1) := by
  unfold saturatingAdd
  split
  · rw [UInt64.toNat_add, Nat.mod_eq_of_lt ‹_›]
    omega
  · rw [UInt64.toNat_ofNat']
    omega

theorem checkedSub_eq_some : checkedSub a b = some c ↔ c.toNat + b.toNat = a.toNat := by
  unfold checkedSub
  split
  · have hle : b.toNat ≤ a.toNat := ‹b ≤ a›
    rw [Option.some.injEq, ← UInt64.toNat_inj, UInt64.toNat_sub_of_le _ _ ‹_›]
    omega
  · rename_i h
    have hlt : ¬ b.toNat ≤ a.toNat := h
    simp only [reduceCtorEq, false_iff]
    omega

theorem checkedSub_eq_none : checkedSub a b = none ↔ a.toNat < b.toNat := by
  unfold checkedSub
  split
  · have hle : b.toNat ≤ a.toNat := ‹b ≤ a›
    simp only [reduceCtorEq, false_iff]
    omega
  · rename_i h
    have hlt : ¬ b.toNat ≤ a.toNat := h
    simp only [true_iff]
    omega

theorem checkedAddSigned_eq_some {d : Int64} :
    checkedAddSigned a d = some c ↔ (c.toNat : ℤ) = a.toNat + d.toInt := by
  have hc := c.toNat_lt
  unfold checkedAddSigned
  split
  · rename_i h
    rw [Option.some.injEq, ← UInt64.toNat_inj, UInt64.toNat_ofNat_of_lt' (by
      change _ < 2 ^ 64
      omega)]
    omega
  · rename_i h
    simp only [reduceCtorEq, false_iff]
    omega

end StackPulse.Words
