import StackPulse.OrderedMap
import Mathlib.Order.Nat

/-!
Maps of disjoint half-open ranges, keyed by their starts. With disjoint ranges the
range that holds an address and the ranges that meet a new one are found by looking at
a single predecessor.
-/
namespace StackPulse.IntervalMap

open OrderedMap

variable {V : Type} (stop : V → ℕ)

/-- No range is empty and each ends before the next one starts. -/
structure Disjoint (m : BTreeMap ℕ V) : Prop where
  nonempty : ∀ {k v}, m.get k = some v → k < stop v
  ordered : ∀ {k k' v v'}, m.get k = some v → m.get k' = some v' → k < k' → stop v ≤ k'

/-- The range that holds an address, if the last one to start before it does. -/
def covering (m : BTreeMap ℕ V) (a : ℕ) : Option (ℕ × V) :=
  (m.lastWith fun k => decide (k ≤ a)).filter fun e => decide (a < stop e.2)

/-- Whether the last range to start before `b` reaches beyond `a`. -/
def meets (m : BTreeMap ℕ V) (a b : ℕ) : Bool :=
  (m.lastWith fun k => decide (k < b)).any fun e => decide (a < stop e.2)

variable {stop} {m : BTreeMap ℕ V}

theorem disjoint_empty : Disjoint stop (.empty : BTreeMap ℕ V) where
  nonempty h := by cases h
  ordered h := by cases h

/-- One predecessor decides whether any range is met. -/
theorem Disjoint.meets_iff (h : Disjoint stop m) {a b : ℕ} :
    meets stop m a b = true ↔ ∃ k v, m.get k = some v ∧ k < b ∧ a < stop v := by
  unfold meets
  constructor
  · intro hmeets
    cases hlast : m.lastWith fun k => decide (k < b) with
    | none =>
      rw [hlast] at hmeets
      cases hmeets
    | some e =>
      rw [hlast] at hmeets
      obtain ⟨hget, hb, -⟩ := BTreeMap.lastWith_eq_some hlast
      exact ⟨e.1, e.2, hget, of_decide_eq_true hb, of_decide_eq_true hmeets⟩
  · rintro ⟨k, v, hget, hb, hlt⟩
    cases hlast : m.lastWith fun k => decide (k < b) with
    | none =>
      have hnot := BTreeMap.lastWith_eq_none hlast hget
      rw [decide_eq_true hb] at hnot
      cases hnot
    | some e =>
      obtain ⟨k', v'⟩ := e
      obtain ⟨hget', -, hgreatest⟩ := BTreeMap.lastWith_eq_some hlast
      have hkk : k ≤ k' := hgreatest k v hget (decide_eq_true hb)
      show decide (a < stop v') = true
      apply decide_eq_true
      rcases hkk.lt_or_eq with hkk | rfl
      · have hend := h.ordered hget hget' hkk
        have hne := h.nonempty hget'
        omega
      · rw [hget] at hget'
        rw [← Option.some.inj hget']
        exact hlt

/-- A new range that meets none is added. -/
theorem Disjoint.insert (h : Disjoint stop m) {k : ℕ} {v : V} (hne : k < stop v)
    (hfree : ∀ k' v', m.get k' = some v' → k' < stop v → stop v' ≤ k) :
    Disjoint stop (m.insert k v) where
  nonempty {k' v'} hget := by
    rw [BTreeMap.get_insert] at hget
    split at hget
    · next heq =>
      cases hget
      exact heq ▸ hne
    · exact h.nonempty hget
  ordered {k₁ k₂ v₁ v₂} hget₁ hget₂ hlt := by
    rw [BTreeMap.get_insert] at hget₁ hget₂
    split at hget₁
    · next heq₁ =>
      cases hget₁
      split at hget₂
      · next heq₂ => omega
      · by_contra hmeet
        have hend := hfree k₂ v₂ hget₂ (Nat.not_le.mp hmeet)
        have hne₂ := h.nonempty hget₂
        omega
    · split at hget₂
      · next heq₂ =>
        cases hget₂
        have hend := hfree k₁ v₁ hget₁ (by omega)
        omega
      · exact h.ordered hget₁ hget₂ hlt

/-- Fewer ranges are still disjoint. -/
theorem Disjoint.mono (h : Disjoint stop m) {m' : BTreeMap ℕ V}
    (hsub : ∀ k v, m'.get k = some v → m.get k = some v) : Disjoint stop m' where
  nonempty hget := h.nonempty (hsub _ _ hget)
  ordered hget hget' hlt := h.ordered (hsub _ _ hget) (hsub _ _ hget') hlt

end StackPulse.IntervalMap
