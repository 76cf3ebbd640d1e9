import StackPulse.PerfRing
import StackPulse.IntervalSet

/-!
What the commit state of a ring means. The committed position is the start of the
oldest record that is still mapped, and the pending map holds the maximal runs of
what is released after it. Taking a record and completing one keep this.
-/
namespace StackPulse.RingCommits

open OrderedMap IntervalSet PerfRing

variable {readPos : ℕ} {rest mapped : List (ℕ × ℕ)} {c : CommitState} {r : ℕ × ℕ} {committed : ℕ}

/-- The positions at or after the committed one that no mapped record covers. -/
def released (committed readPos : ℕ) (mapped : List (ℕ × ℕ)) : Set ℕ :=
  {x | committed ≤ x ∧ x < readPos ∧ ∀ r ∈ mapped, ¬(r.1 ≤ x ∧ x < r.2)}

def Apart (r s : ℕ × ℕ) : Prop := r.2 ≤ s.1 ∨ s.2 ≤ r.1

theorem Apart.symm {s : ℕ × ℕ} (h : Apart r s) : Apart s r := Or.symm h

/-- The commit state of a reader at `readPos` whose mapped records are the given ones. -/
structure Commits (c : CommitState) (readPos : ℕ) (mapped : List (ℕ × ℕ)) : Prop where
  runs : Represents c.pending (released c.committed readPos mapped)
  inside : ∀ r ∈ mapped, c.committed ≤ r.1 ∧ r.1 < r.2 ∧ r.2 ≤ readPos
  apart : mapped.Pairwise Apart
  oldest : c.committed = readPos ∨ ∃ r ∈ mapped, r.1 = c.committed
  le : c.committed ≤ readPos

theorem released_empty (committed : ℕ) : released committed committed [] = ∅ := by
  ext x
  constructor
  · rintro ⟨hle, hlt, _⟩
    omega
  · exact False.elim

theorem commits_new (committed : ℕ) : Commits (.new committed) committed [] where
  runs := by
    show Represents .empty (released committed committed [])
    rw [released_empty]
    exact represents_empty
  inside := fun r hr => absurd hr List.not_mem_nil
  apart := List.Pairwise.nil
  oldest := Or.inl rfl
  le := Nat.le_refl _

theorem released_perm {mapped' : List (ℕ × ℕ)} (h : mapped.Perm mapped') :
    released committed readPos mapped = released committed readPos mapped' := by
  ext x
  constructor
  · rintro ⟨hle, hlt, hfree⟩
    exact ⟨hle, hlt, fun r hr => hfree r (h.mem_iff.mpr hr)⟩
  · rintro ⟨hle, hlt, hfree⟩
    exact ⟨hle, hlt, fun r hr => hfree r (h.mem_iff.mp hr)⟩

theorem Commits.perm {mapped' : List (ℕ × ℕ)} (h : Commits c readPos mapped)
    (hperm : mapped.Perm mapped') : Commits c readPos mapped' where
  runs := by
    rw [← released_perm hperm]
    exact h.runs
  inside := fun r hr => h.inside r (hperm.mem_iff.mpr hr)
  apart := hperm.pairwise h.apart Apart.symm
  oldest := by
    rcases h.oldest with heq | ⟨r, hr, heq⟩
    · exact .inl heq
    · exact .inr ⟨r, hperm.mem_iff.mp hr, heq⟩
  le := h.le

/-- A record read at the end is mapped, so it releases nothing. -/
theorem Commits.take {stop : ℕ} (h : Commits c readPos mapped) (hlt : readPos < stop) :
    Commits c stop ((readPos, stop) :: mapped) where
  runs := by
    have hsame : released c.committed stop ((readPos, stop) :: mapped) =
        released c.committed readPos mapped := by
      ext x
      constructor
      · rintro ⟨hle, hstop, hfree⟩
        have hnew := hfree (readPos, stop) (.head _)
        exact ⟨hle, by simp only [not_and, not_lt] at hnew; omega,
          fun r hr => hfree r (.tail _ hr)⟩
      · rintro ⟨hle, hread, hfree⟩
        refine ⟨hle, by omega, fun r hr => ?_⟩
        rcases List.mem_cons.mp hr with rfl | hr
        · rintro ⟨hstart, _⟩
          exact absurd hstart (Nat.not_le.mpr hread)
        · exact hfree r hr
    rw [hsame]
    exact h.runs
  inside := by
    refine List.forall_mem_cons.mpr ⟨⟨h.le, hlt, le_rfl⟩, fun r hr => ?_⟩
    obtain ⟨h1, h2, h3⟩ := h.inside r hr
    exact ⟨h1, h2, by omega⟩
  apart := List.pairwise_cons.mpr ⟨fun r hr => .inr (h.inside r hr).2.2, h.apart⟩
  oldest := by
    rcases h.oldest with heq | ⟨r, hr, heq⟩
    · exact .inr ⟨(readPos, stop), .head _, heq.symm⟩
    · exact .inr ⟨r, .tail _ hr, heq⟩
  le := by
    have hle := h.le
    omega

theorem takePending_none (h : c.pending.get c.committed = none) (rounds : ℕ) :
    c.takePending rounds = c := by
  cases rounds with
  | zero => rfl
  | succ rounds =>
    unfold CommitState.takePending
    rw [h]

/-- The committed position moves over the run that it has reached, and stops at a
position that is not released. -/
theorem takePending_spec {pending : BTreeMap ℕ ℕ} {D : Set ℕ} (h : Represents pending D)
    {bound : ℕ} (hbound : ∀ x ∈ D, x < bound) {position : ℕ}
    (hstart : ∀ x, x + 1 = position → x ∉ D) :
    ∃ reached pending', CommitState.takePending pending.len ⟨position, pending⟩ =
        ⟨reached, pending'⟩ ∧
      position ≤ reached ∧ (∀ x, position ≤ x → x < reached → x ∈ D) ∧ reached ∉ D ∧
      Represents pending' (D \ Set.Ico position reached) := by
  rcases hget : pending.get position with _ | stop
  · refine ⟨position, pending, takePending_none hget _, le_rfl, fun x h1 h2 => ?_,
      (h.get_none hbound hstart).mp hget, ?_⟩
    · omega
    · rw [Set.Ico_self, Set.sdiff_empty]
      exact h
  · have hrun := (h position stop).mp hget
    have hrest : (pending.remove position).get stop = none := by
      rw [BTreeMap.get_remove, if_neg hrun.lt.ne']
      rcases hstop : pending.get stop with _ | next
      · rfl
      · have hnext := (h stop next).mp hstop
        exact absurd (hnext.within stop le_rfl hnext.lt) hrun.stop
    refine ⟨stop, pending.remove position, ?_, hrun.lt.le, hrun.within, hrun.stop,
      h.drop hrun⟩
    obtain ⟨rounds, hrounds⟩ : ∃ rounds, pending.len = rounds + 1 :=
      ⟨pending.len - 1, by have := BTreeMap.len_remove_lt hget; omega⟩
    rw [hrounds, CommitState.takePending, hget]
    exact takePending_none hrest rounds

theorem Commits.apart_first (h : Commits c readPos (r :: rest)) {s : ℕ × ℕ} (hs : s ∈ rest) :
    Apart r s := List.rel_of_pairwise_cons h.apart hs

/-- What the completion of the oldest record releases, once the tail has moved. -/
theorem released_after {reached : ℕ} (hfirst : r.1 = committed) (hr : r.1 < r.2)
    (hreached : r.2 ≤ reached) : released committed readPos (r :: rest) \ Set.Ico r.2 reached =
      released reached readPos rest := by
  ext x
  constructor
  · rintro ⟨⟨hle, hlt, hfree⟩, hout⟩
    have hnot := hfree r (.head _)
    simp only [Set.mem_Ico, not_and, not_lt] at hout hnot
    exact ⟨hout (hnot (hfirst ▸ hle)), hlt, fun s hs => hfree s (.tail _ hs)⟩
  · rintro ⟨hle, hlt, hfree⟩
    refine ⟨⟨by omega, hlt, fun s hs => ?_⟩, ?_⟩
    · rcases List.mem_cons.mp hs with rfl | hs
      · omega
      · exact hfree s hs
    · rintro ⟨_, hx⟩
      omega

theorem Commits.complete_first (h : Commits c readPos (r :: rest)) (hfirst : r.1 = c.committed) :
    ∃ c', c.complete r.1 r.2 = (some c'.committed, c') ∧ c.committed ≤ c'.committed ∧
      Commits c' readPos rest := by
  obtain ⟨_, hlt, hread⟩ := h.inside r (.head _)
  have hcovered : ∀ x, r.1 ≤ x → x < r.2 → x ∉ released c.committed readPos (r :: rest) :=
    fun x h1 h2 hx => hx.2.2 r (.head _) ⟨h1, h2⟩
  obtain ⟨reached, pending, htake, hle, hwithin, hstop, hruns⟩ :=
    takePending_spec h.runs (fun x hx => hx.2.1)
      (fun x (hx : x + 1 = r.2) => hcovered x (by omega) (by omega))
  have hbelow : reached ≤ readPos := by
    rcases Nat.eq_or_lt_of_le hle with heq | hgt
    · omega
    · have hlast := (hwithin (reached - 1) (by omega) (by omega)).2.1
      omega
  refine ⟨⟨reached, pending⟩, ?_, by show c.committed ≤ reached; omega, ?_, ?_, ?_, ?_, hbelow⟩
  · unfold CommitState.complete
    rw [if_pos hfirst, htake]
  · show Represents pending (released reached readPos rest)
    rw [← released_after hfirst hlt hle]
    exact hruns
  · intro s hs
    obtain ⟨hs1, hs2, hs3⟩ := h.inside s (.tail _ hs)
    refine ⟨?_, hs2, hs3⟩
    -- the record is behind the completed one, and nothing of it was released
    rcases h.apart_first hs with hafter | hbefore
    · by_contra hlow
      exact (hwithin s.1 hafter (Nat.not_le.mp hlow)).2.2 s (.tail _ hs)
        ⟨le_rfl, hs2⟩
    · omega
  · exact (List.pairwise_cons.mp h.apart).2
  · show reached = readPos ∨ ∃ s ∈ rest, s.1 = reached
    rcases Nat.eq_or_lt_of_le hbelow with heq | hgt
    · exact .inl heq
    right
    -- a position before the end that is not released lies in a mapped record
    obtain ⟨s, hs, hs1, hs2⟩ : ∃ s ∈ rest, s.1 ≤ reached ∧ reached < s.2 := by
      by_contra hnone
      refine hstop ⟨by omega, hgt, fun s hs => ?_⟩
      rcases List.mem_cons.mp hs with rfl | hs
      · omega
      · exact fun hin => hnone ⟨s, hs, hin⟩
    refine ⟨s, hs, ?_⟩
    by_contra hne
    rcases h.apart_first hs with hafter | hbefore
    · exact (hwithin (reached - 1) (by omega) (by omega)).2.2 s (.tail _ hs)
        ⟨by omega, by omega⟩
    · omega

section

variable {pending : BTreeMap ℕ ℕ} {D : Set ℕ} {bound start stop : ℕ}

/-- Looking at the last entry up to the start finds the run that ends there. -/
theorem joinPrevious_spec (h : Represents pending D) (hbound : ∀ x ∈ D, x < bound)
    (hstart : start ∉ D) :
    IsRun D (CommitState.joinPrevious pending start) start ∨
      (CommitState.joinPrevious pending start = start ∧ ∀ x, x + 1 = start → x ∉ D) := by
  -- a released position just before the start belongs to a run that ends at it
  have hrun : ∀ x, x + 1 = start → x ∈ D → ∃ a, IsRun D a start := by
    intro x hx hmem
    obtain ⟨a, b, hab, hax, hxb⟩ := exists_run hbound hmem
    have hb : b = start := by
      by_contra hne
      exact hstart (hab.within start (by omega) (by omega))
    exact ⟨a, hb ▸ hab⟩
  unfold CommitState.joinPrevious
  rcases hlast : pending.lastWith (· ≤ start) with _ | ⟨previousStart, previousEnd⟩
  · refine .inr ⟨rfl, fun x hx hmem => ?_⟩
    obtain ⟨a, ha⟩ := hrun x hx hmem
    have hnone := BTreeMap.lastWith_eq_none hlast ((h a start).mpr ha)
    exact absurd ha.lt.le (by simpa using hnone)
  · obtain ⟨hget, hle, hmax⟩ := BTreeMap.lastWith_eq_some hlast
    have hprevious := (h previousStart previousEnd).mp hget
    by_cases hends : previousEnd = start
    · simp only [if_pos hends]
      exact .inl (hends ▸ hprevious)
    · simp only [if_neg hends, true_and]
      refine .inr fun x hx hmem => hends ?_
      obtain ⟨a, ha⟩ := hrun x hx hmem
      have hbetween := hmax a start ((h a start).mpr ha) (by simpa using ha.lt.le)
      have hne : previousStart ≠ start := fun hsame =>
        hstart (hsame ▸ hprevious.within previousStart le_rfl hprevious.lt)
      have hbefore : previousStart ≤ start := by simpa using hle
      exact (hprevious.unique ha le_rfl hprevious.lt hbetween (by omega)).2

/-- When no entry begins at the end, an entry that the lookup finds is not before
the end: it would lie in the previous run or in the new interval. -/
theorem no_entry_between (h : Represents pending D) (hnew : ∀ x, start ≤ x → x < stop → x ∉ D)
    {first a b : ℕ} (hfirst : IsRun D first start ∨ (first = start ∧ ∀ x, x + 1 = start → x ∉ D))
    (hget : pending.get a = some b) (hgt : first < a) : stop ≤ a := by
  by_contra hlow
  have hrun := (h a b).mp hget
  have hmem := hrun.within a le_rfl hrun.lt
  rcases Nat.lt_or_ge a start with hbefore | hinside
  · rcases hfirst with hprevious | ⟨heq, _⟩
    · have hsame := hrun.unique hprevious le_rfl hrun.lt hgt.le hbefore
      omega
    · omega
  · exact hnew a hinside (by omega) hmem

/-- Looking at the first entry after the joined start finds the run that begins at
the end. -/
theorem joinNext_spec (h : Represents pending D) (hbound : ∀ x ∈ D, x < bound)
    (hlt : start < stop) (hnew : ∀ x, start ≤ x → x < stop → x ∉ D) {first : ℕ}
    (hfirst : IsRun D first start ∨ (first = start ∧ ∀ x, x + 1 = start → x ∉ D)) :
    ∃ last, CommitState.joinNext pending first stop = (pending.remove stop, last) ∧
      (IsRun D stop last ∨ (last = stop ∧ stop ∉ D)) := by
  have hbefore : first ≤ start := by
    rcases hfirst with hrun | ⟨rfl, _⟩
    · exact hrun.lt.le
    · exact le_rfl
  -- when no entry begins at the end, the map and the end stay as they are
  have hkept : pending.get stop = none → (pending, stop) = (pending.remove stop, stop) ∧
      stop ∉ D := by
    intro hnone
    refine ⟨congrArg (·, stop) (BTreeMap.ext_get fun k => ?_),
      (h.get_none hbound fun x hx => hnew x (by omega) (by omega)).mp hnone⟩
    rw [BTreeMap.get_remove]
    split
    · rename_i hk
      rw [hk, hnone]
    · rfl
  unfold CommitState.joinNext
  rcases hnext : pending.firstWith (first < ·) with _ | ⟨nextStart, nextEnd⟩
  · have hnone : pending.get stop = none := by
      rcases hget : pending.get stop with _ | e
      · rfl
      · have hno := BTreeMap.firstWith_eq_none hnext hget
        exact absurd (show first < stop by omega) (by simpa using hno)
    exact ⟨stop, (hkept hnone).1, .inr ⟨rfl, (hkept hnone).2⟩⟩
  · obtain ⟨hget, hgt, hmin⟩ := BTreeMap.firstWith_eq_some hnext
    by_cases hends : stop = nextStart
    · simp only [if_pos hends]
      exact ⟨nextEnd, by rw [hends], .inl (hends ▸ (h nextStart nextEnd).mp hget)⟩
    · simp only [if_neg hends]
      have hnone : pending.get stop = none := by
        rcases hgetStop : pending.get stop with _ | e
        · rfl
        · have hle := hmin stop e hgetStop (by simpa using (show first < stop by omega))
          have hge := no_entry_between h hnew hfirst hget (by simpa using hgt)
          exact absurd (Nat.le_antisymm hge hle) hends
      exact ⟨stop, (hkept hnone).1, .inr ⟨rfl, (hkept hnone).2⟩⟩

end

theorem released_later (hle : committed ≤ r.1) (hread : r.2 ≤ readPos)
    (hapart : ∀ s ∈ rest, Apart r s) :
    released committed readPos (r :: rest) ∪ Set.Ico r.1 r.2 = released committed readPos rest := by
  ext x
  constructor
  · rintro (⟨h1, h2, hfree⟩ | ⟨h1, h2⟩)
    · exact ⟨h1, h2, fun s hs => hfree s (.tail _ hs)⟩
    · refine ⟨by omega, by omega, fun s hs hin => ?_⟩
      rcases hapart s hs with hafter | hbefore <;> omega
  · rintro ⟨h1, h2, hfree⟩
    by_cases hin : r.1 ≤ x ∧ x < r.2
    · exact .inr hin
    · refine .inl ⟨h1, h2, fun s hs => ?_⟩
      rcases List.mem_cons.mp hs with rfl | hs
      · exact hin
      · exact hfree s hs

theorem Commits.complete_later (h : Commits c readPos (r :: rest)) (hlater : r.1 ≠ c.committed) :
    ∃ pending, c.complete r.1 r.2 = (none, { c with pending := pending }) ∧
      Commits { c with pending := pending } readPos rest := by
  obtain ⟨hle, hlt, hread⟩ := h.inside r (.head _)
  have hnew : ∀ x, r.1 ≤ x → x < r.2 → x ∉ released c.committed readPos (r :: rest) :=
    fun x h1 h2 hx => hx.2.2 r (.head _) ⟨h1, h2⟩
  have hbound : ∀ x ∈ released c.committed readPos (r :: rest), x < readPos := fun x hx => hx.2.1
  have hprevious := joinPrevious_spec h.runs hbound (hnew r.1 le_rfl hlt)
  obtain ⟨last, hjoin, hnext⟩ := joinNext_spec h.runs hbound hlt hnew hprevious
  refine ⟨(c.pending.remove r.2).insert (CommitState.joinPrevious c.pending r.1) last,
    ?_, ?_, ?_, ?_, ?_, h.le⟩
  · unfold CommitState.complete
    rw [if_neg hlater]
    simp only [hjoin]
  · show Represents _ (released c.committed readPos rest)
    rw [← released_later hle hread fun s hs => h.apart_first hs]
    exact h.runs.join hlt hnew hprevious hnext
  · exact fun s hs => h.inside s (.tail _ hs)
  · exact (List.pairwise_cons.mp h.apart).2
  · show c.committed = readPos ∨ ∃ s ∈ rest, s.1 = c.committed
    rcases h.oldest with heq | ⟨s, hs, heq⟩
    · omega
    · rcases List.mem_cons.mp hs with rfl | hs
      · exact absurd heq hlater
      · exact .inr ⟨s, hs, heq⟩

end StackPulse.RingCommits
