import Mathlib.Data.List.Dedup
import Mathlib.Data.List.Induction

/-!
The strings handed out for one image. A string is a shared allocation: the
interner keeps one reference and its callers keep any number of others. Strings
only the interner references are forgotten when the set has doubled since the
last prune, whatever the callers dropped in between.
-/
namespace StackPulse.StringInterning

variable {S : Type} [DecidableEq S]

/-- A reference-counted string. -/
structure Rc (S : Type) where
  value : S
  address : ℕ
  deriving DecidableEq

/-- The set holds one reference to each of its strings. -/
structure ImageStrings (S : Type) where
  strings : List (Rc S) := []
  pruneAt : ℕ := 0

/-- The reference of the set and those of the callers. -/
def strongCount (held : List (Rc S)) (rc : Rc S) : ℕ := 1 + held.count rc

def prune (held : List (Rc S)) (s : ImageStrings S) : ImageStrings S :=
  let strings := s.strings.filter fun rc => 1 < strongCount held rc
  ⟨strings, 2 * strings.length⟩

/-- The set is pruned once it has reached its threshold. -/
def makeRoom (held : List (Rc S)) (s : ImageStrings S) : ImageStrings S :=
  if s.pruneAt ≤ s.strings.length then prune held s else s

/-- `address` is where the allocator puts the string if it has to be allocated. -/
def intern (held : List (Rc S)) (address : ℕ) (s : ImageStrings S) (value : S) :
    Rc S × ImageStrings S :=
  match s.strings.find? (·.value = value) with
  | some rc => (rc, s)
  | none =>
      let s := makeRoom held s
      let rc := ⟨value, address⟩
      (rc, { s with strings := rc :: s.strings })

/-- The interner, the references of its callers, and the number of strings that
were alive when it was last pruned. -/
structure World (S : Type) where
  interner : ImageStrings S := {}
  held : List (Rc S) := []
  alive : ℕ := 0

inductive Event (S : Type)
  | intern (value : S) (address : ℕ)
  | clone (rc : Rc S)
  | drop (rc : Rc S)

/-- The strings alive when the set makes room are those its callers hold then. -/
def aliveAtPrune (w : World S) : ℕ :=
  if w.interner.pruneAt ≤ w.interner.strings.length then w.held.dedup.length else w.alive

/-- Callers clone only references that they hold. -/
def step (w : World S) : Event S → World S
  | .intern value address =>
      let result := intern w.held address w.interner value
      let hit := (w.interner.strings.find? (·.value = value)).isSome
      ⟨result.2, result.1 :: w.held, if hit then w.alive else aliveAtPrune w⟩
  | .clone rc => if rc ∈ w.held then { w with held := rc :: w.held } else w
  | .drop rc => { w with held := w.held.erase rc }

/-- The set has every string of the callers, no two of one text, and is no
larger than its threshold allows. -/
structure Sound (w : World S) : Prop where
  distinct : (w.interner.strings.map Rc.value).Nodup
  held : w.held ⊆ w.interner.strings
  threshold : w.interner.pruneAt = 2 * w.alive
  bounded : w.interner.strings.length ≤ max 1 w.interner.pruneAt

variable {w : World S}

/-- What a prune keeps is what the callers hold. -/
theorem Sound.length_prune (h : Sound w) :
    (prune w.held w.interner).strings.length = w.held.dedup.length := by
  refine (List.perm_iff_count.mpr fun rc => ?_).length_eq
  have hnodup : (w.interner.strings.filter fun rc => 1 < strongCount w.held rc).Nodup :=
    (List.Nodup.of_map _ h.distinct).filter _
  show List.count rc (w.interner.strings.filter _) = _
  rw [List.Nodup.count hnodup, List.Nodup.count (List.nodup_dedup _)]
  refine if_congr ?_ rfl rfl
  rw [List.mem_filter, List.mem_dedup]
  simp only [strongCount, Nat.lt_add_right_iff_pos, List.count_pos_iff, decide_eq_true_eq]
  exact ⟨fun hrc => hrc.2, fun hrc => ⟨h.held hrc, hrc⟩⟩

/-- Making room keeps the strings of the callers and leaves place for one more. -/
theorem Sound.makeRoom (h : Sound w) :
    let s := makeRoom w.held w.interner
    s.strings.Sublist w.interner.strings ∧ w.held ⊆ s.strings ∧
      s.pruneAt = 2 * aliveAtPrune w ∧ s.strings.length + 1 ≤ max 1 s.pruneAt := by
  unfold StringInterning.makeRoom aliveAtPrune
  split
  · refine ⟨List.filter_sublist, fun rc hrc => ?_, congrArg (2 * ·) h.length_prune, ?_⟩
    · refine List.mem_filter.mpr ⟨h.held hrc, ?_⟩
      simpa [strongCount] using hrc
    · show (prune w.held w.interner).strings.length + 1 ≤
        max 1 (2 * (prune w.held w.interner).strings.length)
      omega
  · exact ⟨List.Sublist.refl _, h.held, h.threshold, by omega⟩

theorem Sound.intern (h : Sound w) (value : S) (address : ℕ) :
    Sound (step w (.intern value address)) := by
  cases hfind : w.interner.strings.find? (·.value = value) with
  | some rc =>
    simp only [StringInterning.step, StringInterning.intern, hfind, Option.isSome_some, if_true]
    exact ⟨h.distinct, List.cons_subset.mpr ⟨List.mem_of_find?_eq_some hfind, h.held⟩,
      h.threshold, h.bounded⟩
  | none =>
    obtain ⟨hsub, hheld, hthreshold, hroom⟩ := h.makeRoom
    simp only [StringInterning.step, StringInterning.intern, hfind, Option.isSome_none,
      Bool.false_eq_true, if_false]
    refine ⟨List.nodup_cons.mpr ⟨fun hmem => ?_, h.distinct.sublist (hsub.map _)⟩,
      List.cons_subset.mpr
        ⟨List.mem_cons_self, List.Subset.trans hheld (List.subset_cons_self _ _)⟩,
      hthreshold, hroom⟩
    obtain ⟨rc, hrc, heq⟩ := List.mem_map.mp hmem
    exact List.find?_eq_none.mp hfind rc (hsub.subset hrc) (by simpa using heq)

theorem Sound.step (h : Sound w) (event : Event S) : Sound (step w event) := by
  cases event with
  | intern value address => exact h.intern value address
  | clone rc =>
    by_cases hrc : rc ∈ w.held
    · rw [StringInterning.step, if_pos hrc]
      exact ⟨h.distinct, List.cons_subset.mpr ⟨h.held hrc, h.held⟩, h.threshold, h.bounded⟩
    · rwa [StringInterning.step, if_neg hrc]
  | drop rc =>
    exact ⟨h.distinct, fun rc' hrc => h.held (List.mem_of_mem_erase hrc), h.threshold, h.bounded⟩

theorem sound_run (events : List (Event S)) : Sound (events.foldl step {}) := by
  induction events using List.reverseRecOn with
  | nil => exact ⟨List.nodup_nil, List.nil_subset _, rfl, Nat.zero_le _⟩
  | append_singleton events event ih =>
    rw [List.foldl_append]
    exact ih.step event

theorem Sound.intern_shares (h : Sound w) (value : S) (address : ℕ) :
    let rc := (StringInterning.intern w.held address w.interner value).1
    rc.value = value ∧ ∀ rc' ∈ w.held, rc'.value = value → rc = rc' := by
  unfold StringInterning.intern
  cases hfind : w.interner.strings.find? (·.value = value) with
  | some rc =>
    have hvalue := List.find?_some hfind
    rw [decide_eq_true_eq] at hvalue
    exact ⟨hvalue, fun rc' hrc' heq => List.inj_on_of_nodup_map h.distinct
      (List.mem_of_find?_eq_some hfind) (h.held hrc') (hvalue.trans heq.symm)⟩
  | none =>
    refine ⟨rfl, fun rc' hrc' heq => ?_⟩
    exact absurd (decide_eq_true heq) (List.find?_eq_none.mp hfind rc' (h.held hrc'))

/-- A caller gets its text back, in the allocation that is alive for it, and
the set stays within twice the strings alive at the last prune. -/
theorem interned_strings_exact_and_bounded (events : List (Event S)) (value : S) (address : ℕ) :
    let w := events.foldl step {}
    let rc := (intern w.held address w.interner value).1
    let after := step w (.intern value address)
    rc.value = value ∧ (∀ rc' ∈ w.held, rc'.value = value → rc = rc') ∧
      after.interner.strings.length ≤ max 1 (2 * after.alive) := by
  intro w rc after
  have hw : Sound w := sound_run events
  have hafter : Sound after := hw.step _
  obtain ⟨hvalue, hshared⟩ := hw.intern_shares value address
  exact ⟨hvalue, hshared, by rw [← hafter.threshold]; exact hafter.bounded⟩

end StackPulse.StringInterning
