import StackPulse.EventHandout

/-!
A drain that ends without an error leaves nothing older than its start. Its first
round reads every ring past the start. What the second round then reads is younger
than the start, so it cannot hold back an older event, and when no second round is
needed nothing waits at all.
-/
namespace StackPulse.EventCoverage

open Attempts OrderedMap Sorter EventOrder EventRounds

variable {G E C : Type} [LinearOrder G] {finish : Finish G E C} {w w' : Recording G E C}
  {perf : PerfGroup G} {readings : List (Reading E)} {heap : List (Item G E)} {date : ℕ} {fd : G}
  {reading : Reading E}

/-- Whatever is queued or unread is dated from `date` on. -/
structure From (date : ℕ) (perf : PerfGroup G) (heap : List (Item G E)) : Prop where
  now : date ≤ perf.now
  heap : ∀ e ∈ heap, date ≤ e.key
  rings : ∀ h l, perf.outputs.get h = some l → date ≤ l

theorem From.subset {heap' : List (Item G E)} (h : From date perf heap)
    (hsub : ∀ e ∈ heap', e ∈ heap) : From date perf heap' :=
  ⟨h.now, fun e he => h.heap e (hsub e he), h.rings⟩

theorem From.detachAll (h : From date perf heap) : From date perf (detachAll heap) :=
  ⟨h.now, List.forall_mem_map.mpr h.heap, h.rings⟩

theorem From.queued {item : Item G E} {lower : ℕ} (h : From date perf heap)
    (hget : perf.outputs.get item.group = some lower) (hkey : lower ≤ item.key) :
    From date perf (insertItem item heap) := by
  refine ⟨h.now, ?_, h.rings⟩
  intro e he
  rcases mem_insertItem.mp he with rfl | he
  · exact (h.rings _ lower hget).trans hkey
  · exact h.heap e he

/-- Rings and the clock move on only. -/
theorem now_le_afterReading (hpub : perf.publishes fd reading = true) :
    perf.now ≤ (perf.afterReading fd reading).now := by
  obtain ⟨-, -, hnow, -⟩ := publishes_eq_true hpub
  unfold PerfGroup.afterReading
  split
  · exact hnow
  · exact hnow

theorem get_afterReading {h : G} {l : ℕ} (hpub : perf.publishes fd reading = true)
    (hget : (perf.afterReading fd reading).outputs.get h = some l) :
    perf.now ≤ l ∨ perf.outputs.get h = some l := by
  obtain ⟨-, -, hnow, -⟩ := publishes_eq_true hpub
  unfold PerfGroup.afterReading at hget
  split at hget
  · rw [BTreeMap.get_insert] at hget
    split at hget
    · cases hget
      exact .inl hnow
    · exact .inr hget
  · exact .inr hget

theorem From.read (h : From date perf heap) (hpub : perf.publishes fd reading = true) :
    From date (perf.afterReading fd reading) heap := by
  refine ⟨h.now.trans (now_le_afterReading hpub), h.heap, ?_⟩
  intro fd' l hget
  rcases get_afterReading hpub hget with hle | hget
  · exact h.now.trans hle
  · exact h.rings fd' l hget

/-- The parts of a round over a first ring. -/
theorem drainEventRound_cons {fds : List G}
    (h : drainEventRound finish (fd :: fds) readings w = .ok (w', true)) :
    ∃ reading rest sink, readings = reading :: rest ∧ w.perf.publishes fd reading = true ∧
      reading.complete = true ∧
      drainEventRound finish fds rest ⟨w.perf.afterReading fd reading, sink⟩ = .ok (w', true) := by
  cases readings with
  | nil => cases h
  | cons reading rest =>
    unfold drainEventRound at h
    obtain ⟨sorter, -, h⟩ := bind_ok.mp h
    split at h
    · rename_i hpub
      obtain ⟨sink, -, h⟩ := bind_ok.mp h
      cases hcomplete : reading.complete with
      | false =>
        rw [hcomplete] at h
        cases h
      | true =>
        rw [hcomplete] at h
        exact ⟨reading, rest, _, rfl, hpub, hcomplete, h⟩
    · cases h

/-- A completed round has read each of its rings past the start. -/
theorem drainEventRound_outputs {fds : List G}
    (h : drainEventRound finish fds readings w = .ok (w', true)) :
    w.perf.now ≤ w'.perf.now ∧ ∀ fd l, w'.perf.outputs.get fd = some l →
      w.perf.now ≤ l ∨ fd ∉ fds ∧ w.perf.outputs.get fd = some l := by
  induction fds generalizing readings w with
  | nil =>
    cases h
    exact ⟨le_rfl, fun fd l hget => .inr ⟨List.not_mem_nil, hget⟩⟩
  | cons fd₀ fds ih =>
    obtain ⟨reading, rest, sink, -, hpub, hcomplete, hrest⟩ := drainEventRound_cons h
    obtain ⟨hnow', hrings⟩ := ih hrest
    have hnow := now_le_afterReading hpub
    refine ⟨hnow.trans hnow', ?_⟩
    intro fd l hget
    rcases hrings fd l hget with hle | ⟨hnot, hget₁⟩
    · exact .inl (hnow.trans hle)
    · simp only [PerfGroup.afterReading, hcomplete, if_true, BTreeMap.get_insert] at hget₁
      split at hget₁
      · cases hget₁
        obtain ⟨-, -, hstop, -⟩ := publishes_eq_true hpub
        exact .inl hstop
      · rename_i hne
        exact .inr ⟨fun hmem => (List.mem_cons.mp hmem).elim hne hnot, hget₁⟩

theorem round_outputs (h : drainEventRound finish w.fds readings w = .ok (w', true)) :
    w.perf.now ≤ w'.perf.now ∧ ∀ fd l, w'.perf.outputs.get fd = some l → w.perf.now ≤ l := by
  obtain ⟨hnow, hrings⟩ := drainEventRound_outputs h
  refine ⟨hnow, fun fd l hget => ?_⟩
  rcases hrings fd l hget with hle | ⟨hnot, hget₀⟩
  · exact hle
  · exact absurd (mem_fds hget₀) hnot

/-- During the second round whatever is unread is dated from `date` on, and so is what
was queued in that round or later. -/
def SecondRound (date round : ℕ) (perf : PerfGroup G) (heap : List (Item G E)) (_ : C) : Prop :=
  From date perf (heap.filter fun e => round ≤ e.round)

theorem secondRound_kept (finish : Finish G E C) (date round : ℕ) :
    Kept finish (fun _ => True) (SecondRound (G := G) (E := E) (C := C) date round) := by
  have hsub : ∀ {item : Item G E} {rest : List (Item G E)},
      ∀ e ∈ rest.filter (fun e => round ≤ e.round),
        e ∈ (item :: rest).filter (fun e => round ≤ e.round) := fun e he => by
    obtain ⟨hmem, hround⟩ := List.mem_filter.mp he
    exact List.mem_filter.mpr ⟨.tail _ hmem, hround⟩
  constructor
  · intro perf heap ctx h
    have heq : (detachAll heap).filter (fun e => round ≤ e.round) =
        detachAll (heap.filter fun e => round ≤ e.round) := by
      unfold EventRounds.detachAll
      rw [List.filter_map]
      rfl
    unfold SecondRound
    rw [heq]
    exact From.detachAll h
  · exact fun h => From.subset h hsub
  · exact fun h _ _ _ => From.subset h hsub
  · exact fun h => From.subset h hsub
  · intro perf heap ctx item r lower h hget hkey _ _ _
    refine (From.queued h hget hkey).subset ?_
    intro e he
    obtain ⟨hmem, hround⟩ := List.mem_filter.mp he
    rcases mem_insertItem.mp hmem with rfl | hmem
    · exact mem_insertItem.mpr (.inl rfl)
    · exact mem_insertItem.mpr (.inr (List.mem_filter.mpr ⟨hmem, hround⟩))
  · exact fun h hpub => From.read h hpub

/-- What still waits after the second round was read in it. -/
theorem Completed.waiting {n : ℕ} {sink : DrainSink G E C} (hc : Completed n sink)
    (hgroup : sink.sorter.currentGroup = none) (hok : sink.failed = false) {e : Item G E}
    {rest : List (Item G E)} (hheap : sink.sorter.heap = e :: rest) : n ≤ e.round := by
  have hpop := hc.drained.resolve_left (by rw [hok]; exact Bool.false_ne_true)
  unfold EventSorter.pop at hpop
  rw [hheap] at hpop
  simp only at hpop
  split at hpop
  · rename_i hheld
    simp only [EventSorter.holdsBack, hc.round, hgroup, Bool.or_eq_true, Bool.and_eq_true,
      decide_eq_true_eq] at hheld
    rcases hheld with hlt | ⟨heq, -⟩
    · exact (Nat.lt_of_succ_lt_succ hlt).le
    · exact (Nat.succ.inj heq).ge
  · cases hpop

/-- What waits after both rounds is not older than the start of the first. -/
theorem second_round_from {n : ℕ} (hw : Settled w) (hc : Completed n w.sink)
    (hnow : date ≤ w.perf.now) (hrings : ∀ h l, w.perf.outputs.get h = some l → date ≤ l)
    (hround : drainEventRound finish w.fds readings w = .ok (w', true))
    (hok : w'.sink.failed = false) : From date w'.perf w'.sink.sorter.heap := by
  have hstart : SecondRound date (n + 1) w.perf w.sink.sorter.heap w.sink.ctx := by
    refine ⟨hnow, ?_, hrings⟩
    intro e he
    obtain ⟨hmem, hle⟩ := List.mem_filter.mp he
    exact absurd (hc.queued e hmem) (Nat.not_le.mpr (of_decide_eq_true hle))
  rcases round_ends (secondRound_kept finish date (n + 1)) (fun _ _ _ _ => trivial) hw hstart
    with herror | ⟨w₂, ok₂, hround₂, hw₂, hkept, hcompleted⟩
  · rw [herror] at hround
    cases hround
  rw [hround₂] at hround
  cases hround
  have hc₂ := hcompleted rfl
  rw [hc.round] at hc₂
  refine ⟨hkept.now, ?_, hkept.rings⟩
  cases hheap : w'.sink.sorter.heap with
  | nil => exact fun e he => (by cases he)
  | cons top rest =>
    have htop : date ≤ top.key := by
      refine hkept.heap top (List.mem_filter.mpr ⟨hheap ▸ (.head _), ?_⟩)
      exact decide_eq_true (Completed.waiting hc₂ hw₂.group hok hheap)
    have hsorted := hw₂.ordered.heap
    rw [hheap] at hsorted
    exact List.forall_mem_cons.mpr ⟨htop, fun e he =>
      htop.trans (key_le_of_before ((List.pairwise_cons.mp hsorted).1 e he))⟩

theorem From.detachIfQueued (h : From date w.perf w.sink.sorter.heap) :
    From date (detachIfQueued w).perf (detachIfQueued w).sink.sorter.heap := by
  unfold Sorter.detachIfQueued
  split
  · exact From.detachAll h
  · exact h

theorem failed_detachIfQueued (w : Recording G E C) :
    (detachIfQueued w).sink.failed = w.sink.failed := by
  unfold detachIfQueued
  split <;> rfl

/-- A drain that ends well leaves nothing older than its start. -/
theorem consumeEvents_from {first second : List (Reading E)} (hw : Settled w)
    (h : consumeEvents finish first second w = .ok (w', true)) (hok : w'.sink.failed = false) :
    From w.perf.now w'.perf w'.sink.sorter.heap := by
  unfold consumeEvents at h
  rcases round_ends (kept_true finish) (fun _ _ _ _ => trivial) hw trivial
    with herror | ⟨w₁, ok₁, hround₁, hw₁, -, hcompleted⟩
  · rw [herror] at h
    cases h
  rw [hround₁] at h
  cases ok₁ with
  | false => cases h
  | true =>
    obtain ⟨hnow, hrings⟩ := round_outputs hround₁
    simp only [bind, Except.bind, if_true] at h
    by_cases hqueued : w₁.sink.hasQueuedEvents = true
    · rw [secondRound, if_pos hqueued] at h
      obtain ⟨⟨w₂, ok₂⟩, hround₂, h⟩ := bind_ok.mp h
      cases ok₂ with
      | false => cases h
      | true =>
        cases h
        rw [failed_detachIfQueued] at hok
        exact (second_round_from hw₁ (hcompleted rfl) hnow hrings hround₂ hok).detachIfQueued
    · rw [secondRound, if_neg hqueued] at h
      cases h
      have hheap : w₁.sink.sorter.heap = [] := by
        simpa [DrainSink.hasQueuedEvents, EventSorter.hasMore] using hqueued
      refine From.detachIfQueued ⟨hnow, ?_, hrings⟩
      rw [hheap]
      exact fun e he => (by cases he)

end StackPulse.EventCoverage
