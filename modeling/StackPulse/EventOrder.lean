import StackPulse.EventSorter

/-!
Events leave the sorter in the order of their timestamps. While rings are read one
after another, an event queued in the previous round is older than whatever the
rings from its own on hold, and than whatever was left by the rings read again since;
that is what the release rule asks for, so a released event is older than everything
still unread.
-/
namespace StackPulse.EventOrder

open Sorter

variable {G K V E C : Type} {e : EventHeapItem G K V} {s : EventSorter G K V}

section

variable [LinearOrder K] {a b : EventHeapItem G K V}

theorem before_trans {c : EventHeapItem G K V} (hab : a.Before b) (hbc : b.Before c) :
    a.Before c := by
  rcases hab with hab | ⟨hab, hab'⟩ <;> rcases hbc with hbc | ⟨hbc, hbc'⟩
  · exact .inl (hab.trans hbc)
  · exact .inl (hbc ▸ hab)
  · exact .inl (hab ▸ hbc)
  · exact .inr ⟨hab.trans hbc, hab'.trans hbc'⟩

theorem before_of_not_before (h : ¬ a.Before b) (hne : b.sequence < a.sequence) : b.Before a := by
  have hle : b.key ≤ a.key := not_lt.mp fun hlt => h (.inl hlt)
  rcases hle.lt_or_eq with hlt | heq
  · exact .inl hlt
  · exact .inr ⟨heq, hne⟩

theorem key_le_of_before (h : a.Before b) : a.key ≤ b.key := by
  rcases h with hlt | ⟨heq, -⟩
  · exact hlt.le
  · exact heq.le

theorem insertItem_perm (a : EventHeapItem G K V) (l : List (EventHeapItem G K V)) :
    (insertItem a l).Perm (a :: l) := by
  induction l with
  | nil => exact .refl _
  | cons b l ih =>
    unfold insertItem
    split
    · exact .refl _
    · exact (ih.cons b).trans (.swap a b l)

theorem mem_insertItem {l : List (EventHeapItem G K V)} : b ∈ insertItem a l ↔ b = a ∨ b ∈ l := by
  rw [(insertItem_perm a l).mem_iff, List.mem_cons]

theorem insertItem_pairwise {l : List (EventHeapItem G K V)}
    (hl : l.Pairwise EventHeapItem.Before) (hlast : ∀ b ∈ l, b.sequence < a.sequence) :
    (insertItem a l).Pairwise EventHeapItem.Before := by
  induction l with
  | nil => exact List.pairwise_singleton _ _
  | cons b l ih =>
    obtain ⟨hb, hl'⟩ := List.pairwise_cons.mp hl
    unfold insertItem
    split
    · rename_i hab
      exact List.pairwise_cons.mpr
        ⟨List.forall_mem_cons.mpr ⟨hab, fun c hc => before_trans hab (hb c hc)⟩, hl⟩
    · rename_i hab
      refine List.pairwise_cons.mpr ⟨?_, ih hl' fun c hc => hlast c (.tail _ hc)⟩
      intro c hc
      rcases mem_insertItem.mp hc with rfl | hc
      · exact before_of_not_before hab (hlast b (.head _))
      · exact hb c hc

end

theorem forcePop_eq_some {s' : EventSorter G K V} (h : s.forcePop = some (e, s')) :
    ∃ rest, s.heap = e :: rest ∧ s' = { s with heap := rest } := by
  unfold EventSorter.forcePop at h
  split at h
  · cases h
  · rename_i event rest hheap
    cases h
    exact ⟨rest, hheap, rfl⟩

section

variable (finish : Finish G E C) (force : Bool) (sink : DrainSink G E C) (item : Item G E)

@[simp] theorem finishEvent_sorter : (sink.finishEvent finish force item).sorter = sink.sorter := by
  unfold DrainSink.finishEvent
  dsimp only
  split <;> rfl

@[simp] theorem finishEvent_handed :
    (sink.finishEvent finish force item).handed = sink.handed ++ [item] := by
  unfold DrainSink.finishEvent
  dsimp only
  split <;> rfl

@[simp] theorem finishEvent_segments :
    (sink.finishEvent finish force item).segments = sink.segments := by
  unfold DrainSink.finishEvent
  dsimp only
  split <;> rfl

@[simp] theorem finishEvent_queued : (sink.finishEvent finish force item).queued = sink.queued := by
  unfold DrainSink.finishEvent
  dsimp only
  split <;> rfl

end

variable [LinearOrder G]

theorem pop_eq_some {s' : EventSorter G K V} (h : s.pop = some (e, s')) :
    s.holdsBack e = false ∧ ∃ rest, s.heap = e :: rest ∧ s' = { s with heap := rest } := by
  unfold EventSorter.pop at h
  split at h
  · cases h
  · rename_i event rest hheap
    split at h
    · cases h
    · rename_i hheld
      cases h
      exact ⟨Bool.eq_false_iff.mpr hheld, rest, hheap, rfl⟩

theorem popWith_eq_some {force : Bool} {s s' : EventSorter G ℕ (PreparedEvent E)} {e : Item G E}
    (h : DrainSink.popWith force s = some (e, s')) :
    (force = false → s.holdsBack e = false) ∧
      ∃ rest, s.heap = e :: rest ∧ s' = { s with heap := rest } := by
  cases force with
  | false =>
    obtain ⟨hheld, hrest⟩ := pop_eq_some h
    exact ⟨fun _ => hheld, hrest⟩
  | true => exact ⟨fun h => (by cases h), forcePop_eq_some h⟩

/-- An event that is not held back is of a round before the previous one, or of the
previous round and of a group already reached again. -/
theorem holdsBack_eq_false (h : s.holdsBack e = false) : e.round + 1 < s.round ∨
      e.round + 1 = s.round ∧ ∃ c, s.currentGroup = some c ∧ e.group ≤ c := by
  simp only [EventSorter.holdsBack, Bool.or_eq_false_iff, Bool.and_eq_false_iff,
    decide_eq_false_iff_not, not_lt] at h
  obtain ⟨hround, hgroup⟩ := h
  rcases hround.lt_or_eq with hlt | heq
  · exact .inl hlt
  refine .inr ⟨heq, ?_⟩
  rcases hgroup with hne | hall
  · exact absurd heq hne
  cases hc : s.currentGroup with
  | none =>
    rw [hc] at hall
    cases hall
  | some c =>
    rw [hc, Option.all_some, decide_eq_false_iff_not, not_lt] at hall
    exact ⟨c, rfl, hall⟩

/-- The heap and the current segment are in order, the segment before the heap, and
whatever was queued has been handed out or waits, once. -/
structure Ordered (sink : DrainSink G E C) : Prop where
  heap : sink.sorter.heap.Pairwise EventHeapItem.Before
  handed : sink.handed.Pairwise EventHeapItem.Before
  ahead : ∀ a ∈ sink.handed, ∀ b ∈ sink.sorter.heap, a.Before b
  segments : ∀ segment ∈ sink.segments, segment.Pairwise EventHeapItem.Before
  unnumbered : ∀ b ∈ sink.sorter.heap, b.sequence < sink.sorter.nextSequence
  accounted : ((sink.segments.flatten ++ sink.handed ++ sink.sorter.heap).map
    EventHeapItem.asQueued).Perm sink.queued
  numbered : sink.queued.map (·.sequence) = List.range sink.sorter.nextSequence

/-- How the queued and handed events are dated against the rings, when the rings in
`done` have been read in this round. -/
structure Dated (perf : PerfGroup G) (done : G → Prop) (sink : DrainSink G E C) : Prop where
  lower_le : ∀ h l, perf.outputs.get h = some l → l ≤ perf.now
  heap_lt : ∀ e ∈ sink.sorter.heap, e.key < perf.now
  handed_lt : ∀ a ∈ sink.handed, a.key < perf.now
  handed_lt_lower : ∀ a ∈ sink.handed, ∀ h l, perf.outputs.get h = some l → a.key < l
  round_le : ∀ e ∈ sink.sorter.heap, e.round ≤ sink.sorter.round
  older : ∀ e ∈ sink.sorter.heap, e.round + 1 < sink.sorter.round →
    ∀ h l, perf.outputs.get h = some l → e.key < l
  previous : ∀ e ∈ sink.sorter.heap, e.round + 1 = sink.sorter.round →
    ∀ h l, perf.outputs.get h = some l → e.group ≤ h ∨ done h → e.key < l
  current : ∀ e ∈ sink.sorter.heap, e.round = sink.sorter.round →
    ∀ h l, perf.outputs.get h = some l → done h → e.group ≤ h → e.key < l

/-- Every ring below the current group has been read in this round. -/
def Reached (perf : PerfGroup G) (done : G → Prop) (current : Option G) : Prop :=
  ∀ c, current = some c → ∀ h l, perf.outputs.get h = some l → h < c → done h

/-- The release rule: what is not held back is older than all that is unread. -/
theorem Dated.released {perf : PerfGroup G} {done : G → Prop} {sink : DrainSink G E C}
    (hd : Dated perf done sink) (hreach : Reached perf done sink.sorter.currentGroup)
    {e : Item G E} (he : e ∈ sink.sorter.heap) (hrel : sink.sorter.holdsBack e = false)
    {h : G} {l : ℕ} (hget : perf.outputs.get h = some l) : e.key < l := by
  rcases holdsBack_eq_false hrel with hround | ⟨hround, c, hc, hgroup⟩
  · exact hd.older e he hround h l hget
  · refine hd.previous e he hround h l hget ?_
    rcases lt_or_ge h c with hlt | hge
    · exact .inr (hreach c hc h l hget hlt)
    · exact .inl (hgroup.trans hge)

section

variable (finish : Finish G E C) {sink : DrainSink G E C}

/-- What every pop keeps holds after the loop. -/
theorem drainLoop_rule (force : Bool) {P : DrainSink G E C → Prop}
    (hstep : ∀ sink item sorter, P sink →
      DrainSink.popWith force sink.sorter = some (item, sorter) →
      P (DrainSink.finishEvent finish force { sink with sorter := sorter } item))
    (rounds : ℕ) (sink : DrainSink G E C) (hsink : P sink) :
    P (DrainSink.drainLoop finish force rounds sink) := by
  induction rounds generalizing sink with
  | zero => exact hsink
  | succ rounds ih =>
    unfold DrainSink.drainLoop
    split
    · exact hsink
    · rename_i item sorter hpop
      have hnext := hstep sink item sorter hsink hpop
      dsimp only
      split
      · exact hnext
      · exact ih _ hnext

/-- The loop queues nothing. -/
theorem mem_of_mem_drainLoop {force : Bool} {rounds : ℕ} {e : Item G E}
    (he : e ∈ (DrainSink.drainLoop finish force rounds sink).sorter.heap) :
    e ∈ sink.sorter.heap := by
  have hsub := drainLoop_rule finish force
    (P := fun s => ∀ e ∈ s.sorter.heap, e ∈ sink.sorter.heap)
    (by
      intro s item sorter hs hpop
      obtain ⟨-, rest, hheap, rfl⟩ := popWith_eq_some hpop
      rw [finishEvent_sorter]
      exact fun e he => hs e (hheap ▸ List.mem_cons_of_mem _ he))
    rounds sink fun e he => he
  exact hsub e he

theorem Ordered.pop {force : Bool} (ho : Ordered sink) {item : Item G E}
    {sorter : EventSorter G ℕ (PreparedEvent E)}
    (hpop : DrainSink.popWith force sink.sorter = some (item, sorter)) :
    Ordered (DrainSink.finishEvent finish force { sink with sorter := sorter } item) := by
  obtain ⟨-, rest, hheap, rfl⟩ := popWith_eq_some hpop
  have hsorted := ho.heap
  rw [hheap] at hsorted
  obtain ⟨hfirst, hrest⟩ := List.pairwise_cons.mp hsorted
  have hmem : ∀ b ∈ rest, b ∈ sink.sorter.heap := fun b hb => hheap ▸ List.mem_cons_of_mem _ hb
  refine ⟨?_, ?_, ?_, ?_, ?_, ?_, ?_⟩
  · simpa using hrest
  · rw [finishEvent_handed]
    refine List.pairwise_append.mpr ⟨ho.handed, List.pairwise_singleton _ _, ?_⟩
    intro a ha b hb
    rw [List.mem_singleton.mp hb]
    exact ho.ahead a ha item (hheap ▸ (.head _))
  · intro a ha b hb
    rw [finishEvent_handed] at ha
    rw [finishEvent_sorter] at hb
    rcases List.mem_append.mp ha with ha | ha
    · exact ho.ahead a ha b (hmem b hb)
    · rw [List.mem_singleton.mp ha]
      exact hfirst b hb
  · simpa using ho.segments
  · intro b hb
    rw [finishEvent_sorter] at hb ⊢
    exact ho.unnumbered b (hmem b hb)
  · have hacc := ho.accounted
    rw [hheap] at hacc
    simpa using hacc
  · simpa using ho.numbered

theorem Dated.pop {perf : PerfGroup G} {done : G → Prop} (hd : Dated perf done sink)
    (hreach : Reached perf done sink.sorter.currentGroup) {item : Item G E}
    {sorter : EventSorter G ℕ (PreparedEvent E)}
    (hpop : DrainSink.popWith false sink.sorter = some (item, sorter)) :
    Dated perf done (DrainSink.finishEvent finish false { sink with sorter := sorter } item) := by
  obtain ⟨hrel, rest, hheap, rfl⟩ := popWith_eq_some hpop
  have hitem : item ∈ sink.sorter.heap := hheap ▸ (.head _)
  have hmem : ∀ b ∈ rest, b ∈ sink.sorter.heap := fun b hb => hheap ▸ List.mem_cons_of_mem _ hb
  constructor
  · exact hd.lower_le
  · rw [finishEvent_sorter]
    exact fun e he => hd.heap_lt e (hmem e he)
  · rw [finishEvent_handed]
    exact List.forall_mem_append.mpr ⟨hd.handed_lt,
      List.forall_mem_singleton.mpr (hd.heap_lt item hitem)⟩
  · rw [finishEvent_handed]
    intro a ha h l hget
    rcases List.mem_append.mp ha with ha | ha
    · exact hd.handed_lt_lower a ha h l hget
    · rw [List.mem_singleton.mp ha]
      exact hd.released hreach hitem (hrel rfl) hget
  · rw [finishEvent_sorter]
    exact fun e he => hd.round_le e (hmem e he)
  · rw [finishEvent_sorter]
    exact fun e he => hd.older e (hmem e he)
  · rw [finishEvent_sorter]
    exact fun e he => hd.previous e (hmem e he)
  · rw [finishEvent_sorter]
    exact fun e he => hd.current e (hmem e he)

/-- The invariant of a drain whose sorter has reached the group `current`. -/
structure Held (perf : PerfGroup G) (done : G → Prop) (current : Option G)
    (sink : DrainSink G E C) : Prop where
  ordered : Ordered sink
  dated : Dated perf done sink
  group : sink.sorter.currentGroup = current

/-- A forced flush ends the segment, whatever was still unread. -/
theorem Held.flushReadyEvents {perf : PerfGroup G} {done : G → Prop} {current : Option G}
    (hh : Held perf done current sink) : Held perf done current (sink.flushReadyEvents finish) := by
  have hloop := drainLoop_rule finish true
    (P := fun s => Ordered s ∧ s.sorter.currentGroup = current ∧
      s.sorter.round = sink.sorter.round)
    (by
      intro s item sorter hs hpop
      obtain ⟨ho, hgroup, hround⟩ := hs
      have hnext := ho.pop finish hpop
      obtain ⟨-, rest, hheap, rfl⟩ := popWith_eq_some hpop
      refine ⟨hnext, ?_, ?_⟩ <;> rw [finishEvent_sorter]
      · exact hgroup
      · exact hround)
    sink.sorter.heap.length sink ⟨hh.ordered, hh.group, rfl⟩
  obtain ⟨ho, hgroup, hround⟩ := hloop
  have hsub : ∀ e ∈ (DrainSink.drainLoop finish true sink.sorter.heap.length sink).sorter.heap,
      e ∈ sink.sorter.heap := fun e he => mem_of_mem_drainLoop finish he
  unfold DrainSink.flushReadyEvents DrainSink.drainSorter
  simp only [if_true]
  generalize DrainSink.drainLoop finish true sink.sorter.heap.length sink = s
    at ho hgroup hround hsub ⊢
  refine ⟨⟨ho.heap, List.Pairwise.nil, fun a ha => (by cases ha), ?_, ho.unnumbered, ?_,
    ho.numbered⟩,
    ⟨hh.dated.lower_le, fun e he => hh.dated.heap_lt e (hsub e he), fun a ha => (by cases ha),
      fun a ha => (by cases ha), ?_, ?_, ?_, ?_⟩, hgroup⟩
  · exact List.forall_mem_append.mpr ⟨ho.segments, List.forall_mem_singleton.mpr ho.handed⟩
  · simpa using ho.accounted
  · exact fun e he => hround ▸ hh.dated.round_le e (hsub e he)
  · exact fun e he hlt => hh.dated.older e (hsub e he) (hround ▸ hlt)
  · exact fun e he heq => hh.dated.previous e (hsub e he) (hround ▸ heq)
  · exact fun e he heq => hh.dated.current e (hsub e he) (hround ▸ heq)

end

end StackPulse.EventOrder
