import StackPulse.OrderedMap
import Mathlib.Order.Interval.Set.Basic
import Mathlib.Data.Nat.Find

/-!
Sets of natural numbers as maps of their maximal runs. A run is an interval that
lies in the set and cannot be extended on either side; every member of a bounded
set lies in exactly one. Adding an interval joins the runs that it touches.
-/
namespace StackPulse.IntervalSet

open OrderedMap

variable {D : Set ℕ} {m : BTreeMap ℕ ℕ} {a e s x : ℕ} {b : ℕ}

/-- A maximal interval of the set. -/
structure IsRun (D : Set ℕ) (a b : ℕ) : Prop where
  lt : a < b
  within : ∀ x, a ≤ x → x < b → x ∈ D
  stop : b ∉ D
  start : ∀ x, x + 1 = a → x ∉ D

/-- Runs with a common member are the same. -/
theorem IsRun.unique {a' b' : ℕ} (h : IsRun D a b) (h' : IsRun D a' b') (hax : a ≤ x) (hxb : x < b)
    (hax' : a' ≤ x) (hxb' : x < b') : a = a' ∧ b = b' := by
  have hstart : ∀ {a b a' b' : ℕ}, IsRun D a b → IsRun D a' b' → a ≤ x → x < b → a' ≤ x →
      x < b' → a ≤ a' := by
    intro a b a' b' h h' hax hxb hax' hxb'
    by_contra hlt
    rw [not_le] at hlt
    obtain ⟨y, rfl⟩ : ∃ y, a = y + 1 := ⟨a - 1, by omega⟩
    exact h.start y rfl (h'.within y (by omega) (by omega))
  have hstop : ∀ {a b a' b' : ℕ}, IsRun D a b → IsRun D a' b' → a ≤ x → x < b → a' ≤ x →
      x < b' → b ≤ b' := by
    intro a b a' b' h h' hax hxb hax' hxb'
    by_contra hlt
    rw [not_le] at hlt
    exact h'.stop (h.within b' (by omega) hlt)
  have h1 := hstart h h' hax hxb hax' hxb'
  have h2 := hstart h' h hax' hxb' hax hxb
  have h3 := hstop h h' hax hxb hax' hxb'
  have h4 := hstop h' h hax' hxb' hax hxb
  exact ⟨by omega, by omega⟩

theorem exists_start (hx : x ∈ D) :
    ∃ a ≤ x, (∀ y, a ≤ y → y ≤ x → y ∈ D) ∧ ∀ y, y + 1 = a → y ∉ D := by
  induction x with
  | zero =>
    refine ⟨0, Nat.le_refl 0, fun y _ hy => ?_, fun y hy => absurd hy (Nat.succ_ne_zero y)⟩
    rw [Nat.le_zero.mp hy]
    exact hx
  | succ x ih =>
    by_cases hprev : x ∈ D
    · obtain ⟨a, ha, hall, hstart⟩ := ih hprev
      refine ⟨a, by omega, fun y hay hyx => ?_, hstart⟩
      rcases Nat.lt_or_ge x y with hlt | hle
      · have heq : y = x + 1 := by omega
        rw [heq]
        exact hx
      · exact hall y hay hle
    · refine ⟨x + 1, le_rfl, fun y hay hyx => ?_, fun y hy => ?_⟩
      · have heq : y = x + 1 := by omega
        rw [heq]
        exact hx
      · have heq : y = x := by omega
        rw [heq]
        exact hprev

/-- In a bounded set every member lies in a run. -/
theorem exists_run {bound : ℕ} (hbound : ∀ x ∈ D, x < bound) (hx : x ∈ D) :
    ∃ a b, IsRun D a b ∧ a ≤ x ∧ x < b := by
  classical
  obtain ⟨a, hax, hbelow, hstart⟩ := exists_start hx
  have hexists : ∃ b, x < b ∧ b ∉ D :=
    ⟨bound, hbound x hx, fun hmem => absurd (hbound bound hmem) (lt_irrefl _)⟩
  obtain ⟨hxb, hb⟩ := Nat.find_spec hexists
  refine ⟨a, Nat.find hexists, ⟨by omega, fun y hay hyb => ?_, hb, hstart⟩, hax, hxb⟩
  rcases Nat.lt_or_ge x y with hlt | hle
  · by_contra hy
    exact Nat.find_min hexists hyb ⟨hlt, hy⟩
  · exact hbelow y hay hle

/-- The runs after an interval is added: the one it becomes part of, which
extends to the runs that it touches, and all others. -/
theorem isRun_union {start stop : ℕ} (hlt : start < stop) (hnew : ∀ x, start ≤ x → x < stop → x ∉ D)
    (hs : IsRun D s start ∨ (s = start ∧ ∀ x, x + 1 = start → x ∉ D))
    (he : IsRun D stop e ∨ (e = stop ∧ stop ∉ D)) : IsRun (D ∪ Set.Ico start stop) a b ↔
      (a = s ∧ b = e) ∨ (IsRun D a b ∧ b ≠ start ∧ a ≠ stop) := by
  have hsle : s ≤ start := by
    rcases hs with hrun | ⟨rfl, _⟩
    · exact hrun.lt.le
    · exact le_rfl
  have hele : stop ≤ e := by
    rcases he with hrun | ⟨rfl, _⟩
    · exact hrun.lt.le
    · exact le_rfl
  have hjoined : IsRun (D ∪ Set.Ico start stop) s e := by
    refine ⟨by omega, fun x hsx hxe => ?_, ?_, fun x hx => ?_⟩
    · rcases Nat.lt_or_ge x start with hbefore | hafter
      · rcases hs with hrun | ⟨rfl, _⟩
        · exact .inl (hrun.within x hsx hbefore)
        · omega
      · rcases Nat.lt_or_ge x stop with hinside | hbeyond
        · exact .inr ⟨hafter, hinside⟩
        · rcases he with hrun | ⟨rfl, _⟩
          · exact .inl (hrun.within x hbeyond hxe)
          · omega
    · rintro (hmem | ⟨_, hmem⟩)
      · rcases he with hrun | ⟨rfl, hstop⟩
        · exact hrun.stop hmem
        · exact hstop hmem
      · omega
    · rintro (hmem | ⟨hmem, _⟩)
      · rcases hs with hrun | ⟨rfl, hstart⟩
        · exact hrun.start x hx hmem
        · exact hstart x hx hmem
      · omega
  constructor
  · intro h
    by_cases hmeet : ∃ x, a ≤ x ∧ x < b ∧ start ≤ x ∧ x < stop
    · obtain ⟨x, hax, hxb, hstart, hstop⟩ := hmeet
      exact .inl (h.unique hjoined hax hxb (by omega) (by omega))
    · refine .inr ⟨⟨h.lt, fun x hax hxb => ?_, fun hmem => h.stop (.inl hmem),
        fun x hx hmem => h.start x hx (.inl hmem)⟩, ?_, ?_⟩
      · rcases h.within x hax hxb with hmem | ⟨hstart, hstop⟩
        · exact hmem
        · exact absurd ⟨x, hax, hxb, hstart, hstop⟩ hmeet
      · rintro rfl
        exact h.stop (.inr ⟨le_rfl, hlt⟩)
      · rintro rfl
        exact h.start (a - 1) (by omega) (.inr ⟨by omega, by omega⟩)
  · rintro (⟨rfl, rfl⟩ | ⟨h, hb, ha⟩)
    · exact hjoined
    · refine ⟨h.lt, fun x hax hxb => .inl (h.within x hax hxb), ?_, fun x hx => ?_⟩
      · rintro (hmem | ⟨hstart, hstop⟩)
        · exact h.stop hmem
        · have hlast := h.within (b - 1) (by have := h.lt; omega) (by have := h.lt; omega)
          exact hnew (b - 1) (by omega) (by omega) hlast
      · rintro (hmem | ⟨hstart, hstop⟩)
        · exact h.start x hx hmem
        · have hfirst := h.within a (Nat.le_refl a) h.lt
          exact hnew a (by omega) (by omega) hfirst

/-- Taking a run out leaves the others. -/
theorem isRun_diff (h : IsRun D s e) :
    IsRun (D \ Set.Ico s e) a b ↔ IsRun D a b ∧ a ≠ s := by
  constructor
  · intro hrun
    have hout : ∀ x, a ≤ x → x < b → ¬(s ≤ x ∧ x < e) := fun x hax hxb =>
      (hrun.within x hax hxb).2
    refine ⟨⟨hrun.lt, fun x hax hxb => (hrun.within x hax hxb).1, fun hmem => ?_,
      fun x hx hmem => ?_⟩, ?_⟩
    · apply hrun.stop
      refine ⟨hmem, fun hin => ?_⟩
      rcases Nat.lt_or_ge s b with hsb | hbs
      · exact hout (b - 1) (by have := hrun.lt; omega) (by omega) ⟨by omega, by
          have := hin.2
          omega⟩
      · have heq : b = s := Nat.le_antisymm hbs hin.1
        exact h.start (b - 1) (by have := hrun.lt; omega)
          (hrun.within (b - 1) (by have := hrun.lt; omega) (by have := hrun.lt; omega)).1
    · apply hrun.start x hx
      refine ⟨hmem, fun hin => ?_⟩
      rcases Nat.lt_or_ge a e with hae | hea
      · exact hout a (Nat.le_refl a) hrun.lt ⟨by
          have := hin.1
          omega, hae⟩
      · have heq : a = e := by
          have := hin.2
          omega
        exact h.stop (heq ▸ (hrun.within a (Nat.le_refl a) hrun.lt).1)
    · rintro rfl
      exact hout a (Nat.le_refl a) hrun.lt ⟨Nat.le_refl a, h.lt⟩
  · rintro ⟨hrun, hne⟩
    have hout : ∀ x, a ≤ x → x < b → ¬(s ≤ x ∧ x < e) := by
      rintro x hax hxb ⟨hsx, hxe⟩
      exact hne (hrun.unique h hax hxb hsx hxe).1
    exact ⟨hrun.lt, fun x hax hxb => ⟨hrun.within x hax hxb, hout x hax hxb⟩,
      fun hmem => hrun.stop hmem.1, fun x hx hmem => hrun.start x hx hmem.1⟩

/-- The entries of the map are the runs of the set. -/
def Represents (m : BTreeMap ℕ ℕ) (D : Set ℕ) : Prop :=
  ∀ a b, m.get a = some b ↔ IsRun D a b

theorem represents_empty : Represents .empty ∅ := by
  intro a b
  constructor
  · intro h
    cases h
  · intro h
    exact (h.within a (Nat.le_refl a) h.lt).elim

theorem Represents.get_none (h : Represents m D) {bound : ℕ} (hbound : ∀ x ∈ D, x < bound)
    (hstart : ∀ x, x + 1 = a → x ∉ D) : m.get a = none ↔ a ∉ D := by
  constructor
  · intro hnone hmem
    obtain ⟨s, e, hrun, hsa, hae⟩ := exists_run hbound hmem
    have heq : s = a := by
      by_contra hne
      have hprev := hrun.within (a - 1) (by omega) (by omega)
      exact hstart (a - 1) (by omega) hprev
    rw [heq] at hrun
    rw [(h a e).mpr hrun] at hnone
    cases hnone
  · intro hmem
    rcases hget : m.get a with _ | b
    · rfl
    · have hrun := (h a b).mp hget
      exact absurd (hrun.within a (Nat.le_refl a) hrun.lt) hmem

/-- Adding an interval: the runs that it touches are replaced by the joined one. -/
theorem Represents.join {start stop : ℕ} (h : Represents m D) (hlt : start < stop)
    (hnew : ∀ x, start ≤ x → x < stop → x ∉ D)
    (hs : IsRun D s start ∨ (s = start ∧ ∀ x, x + 1 = start → x ∉ D))
    (he : IsRun D stop e ∨ (e = stop ∧ stop ∉ D)) :
    Represents ((m.remove stop).insert s e) (D ∪ Set.Ico start stop) := by
  have hends : ∀ a, IsRun D a start → a = s := by
    intro a ha
    rcases hs with hrun | ⟨_, hstart⟩
    · have hlast := ha.lt
      have hlast' := hrun.lt
      exact (ha.unique (x := start - 1) hrun (by omega) (by omega) (by omega) (by omega)).1
    · have hlast := ha.lt
      exact absurd (ha.within (start - 1) (by omega) (by omega)) (hstart (start - 1) (by omega))
  have hstarts : ∀ b, IsRun D s b → b = start := by
    intro b hb
    rcases hs with hrun | ⟨rfl, _⟩
    · exact (hb.unique hrun (Nat.le_refl s) hb.lt (Nat.le_refl s) hrun.lt).2
    · exact absurd (hb.within s (Nat.le_refl s) hb.lt) (hnew s (Nat.le_refl s) hlt)
  intro a b
  rw [isRun_union hlt hnew hs he, BTreeMap.get_insert, BTreeMap.get_remove]
  by_cases ha : a = s
  · subst ha
    rw [if_pos rfl]
    constructor
    · intro hget
      exact .inl ⟨rfl, (Option.some.inj hget).symm⟩
    · rintro (⟨_, rfl⟩ | ⟨hrun, hb, _⟩)
      · rfl
      · exact absurd (hstarts b hrun) hb
  · rw [if_neg ha]
    by_cases hstop : a = stop
    · rw [if_pos hstop]
      constructor
      · intro hget
        cases hget
      · rintro (⟨hs', _⟩ | ⟨_, _, hne⟩)
        · exact absurd hs' ha
        · exact absurd hstop hne
    · rw [if_neg hstop, h a b]
      constructor
      · intro hrun
        exact .inr ⟨hrun, fun hb => ha (hends a (hb ▸ hrun)), hstop⟩
      · rintro (⟨hs', _⟩ | ⟨hrun, _, _⟩)
        · exact absurd hs' ha
        · exact hrun

theorem Represents.drop (h : Represents m D) (hrun : IsRun D s e) :
    Represents (m.remove s) (D \ Set.Ico s e) := by
  intro a b
  rw [isRun_diff hrun, BTreeMap.get_remove]
  by_cases ha : a = s
  · rw [if_pos ha]
    exact ⟨fun hget => (by cases hget), fun hne => absurd ha hne.2⟩
  · rw [if_neg ha, h a b]
    exact ⟨fun hrun' => ⟨hrun', ha⟩, fun hrun' => hrun'.1⟩

end StackPulse.IntervalSet
