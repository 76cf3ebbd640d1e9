import StackPulse.EventRounds

/-!
Whole recordings hand their events out in order: whatever rings are opened and closed
and however drains end, no assertion of the sorter fires, the events between two
forced flushes are finished in the order of their timestamps, and each queued event is
handed out or still waits.
-/
namespace StackPulse.EventHandout

open OrderedMap Sorter EventOrder EventRounds

variable {G E C : Type} [LinearOrder G] {w : Recording G E C}

theorem flushEvents_ends (finish : Finish G E C) {first second : List (Reading E)}
    (hw : Settled w) : DrainEnds (fun _ _ _ => True) (flushEvents finish first second w) := by
  have hconsume : DrainEnds (fun _ _ _ => True) (consumeEvents finish first second w) :=
    consumeEvents_ends (kept_true finish) (fun _ _ _ _ => trivial) (fun _ _ _ _ => trivial) hw
      trivial
  unfold flushEvents
  rcases hconsume with herror | ⟨w₁, ok₁, hw₁, hsettled, -⟩
  · rw [herror]
    exact .inl rfl
  · rw [hw₁]
    cases ok₁ with
    | false => exact .inr ⟨w₁, false, rfl, hsettled, trivial⟩
    | true => exact .inr ⟨_, true, rfl, hsettled.flushReadyEvents finish, trivial⟩

theorem Settled.fresh (hw : Settled w) : Settled w.fresh := by
  obtain ⟨ho, hd, hgroup⟩ := hw
  exact ⟨⟨ho.heap, ho.handed, ho.ahead, ho.segments, ho.unnumbered, ho.accounted, ho.numbered⟩,
    ⟨hd.lower_le, hd.heap_lt, hd.handed_lt, hd.handed_lt_lower, hd.round_le, hd.older, hd.previous,
      hd.current⟩, hgroup⟩

/-- A ring opened now holds nothing older than now. -/
theorem Settled.openRing (hw : Settled w) (fd : G) :
    Settled { w with perf := w.perf.openRing fd } := by
  have hd := Dated.ring_read hw.dated fd
  exact ⟨hw.ordered, Dated.of_later hd le_rfl hd.lower_le fun _ l hget =>
    .inr ⟨⟨l, hget, le_rfl⟩, False.elim⟩, hw.group⟩

theorem Settled.closeRing (hw : Settled w) (fd : G) :
    Settled { w with perf := w.perf.closeRing fd } := by
  have hget : ∀ h l, (w.perf.outputs.remove fd).get h = some l →
      w.perf.outputs.get h = some l := by
    intro h l hgot
    rw [BTreeMap.get_remove] at hgot
    split at hgot
    · cases hgot
    · exact hgot
  exact ⟨hw.ordered, Dated.of_later hw.dated le_rfl
    (fun h l hgot => hw.dated.lower_le h l (hget h l hgot))
    fun h l hgot => .inr ⟨⟨l, hget h l hgot, le_rfl⟩, id⟩, hw.group⟩

theorem Settled.wait (hw : Settled w) (now : ℕ) : Settled { w with perf := w.perf.wait now } :=
  ⟨hw.ordered, Dated.wait hw.dated (le_max_left _ _), hw.group⟩

theorem DrainEnds.settled {P : PerfGroup G → List (Item G E) → C → Prop}
    {r : Except Halt (Recording G E C × Bool)} (h : DrainEnds P r) :
    r.map Prod.fst = .error .unpublished ∨ ∃ w, r.map Prod.fst = .ok w ∧ Settled w := by
  rcases h with herror | ⟨w, ok, hr, hw, -⟩
  · exact .inl (by rw [herror]; rfl)
  · exact .inr ⟨w, by rw [hr]; rfl, hw⟩

theorem step_settled (finish : Finish G E C) (hw : Settled w) (op : Op G E) :
    step finish w op = .error .unpublished ∨ ∃ w', step finish w op = .ok w' ∧ Settled w' := by
  cases op with
  | openRing fd => exact .inr ⟨_, rfl, Settled.openRing hw fd⟩
  | closeRing fd => exact .inr ⟨_, rfl, Settled.closeRing hw fd⟩
  | wait now => exact .inr ⟨_, rfl, Settled.wait hw now⟩
  | round readings =>
    exact DrainEnds.settled (round_ends (kept_true finish) (fun _ _ _ _ => trivial)
      (Settled.fresh hw) trivial).drainEnds
  | consume first second =>
    exact DrainEnds.settled (consumeEvents_ends (kept_true finish) (fun _ _ _ _ => trivial)
      (fun _ _ _ _ => trivial) (Settled.fresh hw) trivial)
  | flush first second => exact DrainEnds.settled (flushEvents_ends finish (Settled.fresh hw))
  | force => exact .inr ⟨_, rfl, (Settled.fresh hw).flushReadyEvents finish⟩

theorem settled_start (ctx : C) : Settled (Recording.start ctx : Recording G E C) := by
  have hheap : ∀ e ∈ (Recording.start ctx : Recording G E C).sink.sorter.heap, False :=
    fun e he => (by cases he)
  have hhanded : ∀ e ∈ (Recording.start ctx : Recording G E C).sink.handed, False :=
    fun e he => (by cases he)
  exact ⟨⟨.nil, .nil, fun a ha => (hhanded a ha).elim, fun _ hs => (by cases hs),
    fun b hb => (hheap b hb).elim, .nil, rfl⟩,
    ⟨fun h l hget => (by cases hget), fun e he => (hheap e he).elim,
      fun a ha => (hhanded a ha).elim, fun a ha => (hhanded a ha).elim,
      fun e he => (hheap e he).elim, fun e he => (hheap e he).elim, fun e he => (hheap e he).elim,
      fun e he => (hheap e he).elim⟩, rfl⟩

theorem run_settled (finish : Finish G E C) (hw : Settled w) (ops : List (Op G E)) :
    run finish w ops = .error .unpublished ∨ ∃ w', run finish w ops = .ok w' ∧ Settled w' := by
  induction ops generalizing w with
  | nil => exact .inr ⟨w, rfl, hw⟩
  | cons op ops ih =>
    unfold run
    rw [List.foldlM_cons]
    rcases step_settled finish hw op with herror | ⟨w', hstep, hw'⟩
    · rw [herror]
      exact .inl rfl
    · rw [hstep]
      exact ih hw'

/-- No assertion of the sorter fires. Between two forced flushes the events are handed
out in the order of their timestamps, equal timestamps in the order they were queued.
Each queued event has been handed out or waits, exactly once. -/
theorem events_are_handed_out_in_order (finish : Finish G E C) (ctx : C) (ops : List (Op G E)) :
    (∀ a, run finish (Recording.start ctx) ops ≠ .error (.assertion a)) ∧
      ∀ w, run finish (Recording.start ctx) ops = .ok w →
        (∀ segment ∈ w.sink.segments ++ [w.sink.handed],
          segment.Pairwise EventHeapItem.Before) ∧
        ((w.sink.segments.flatten ++ w.sink.handed ++ w.sink.sorter.heap).map
          EventHeapItem.asQueued).Perm w.sink.queued ∧
        w.sink.queued.map (·.sequence) = List.range w.sink.queued.length := by
  have hstart : Settled (Recording.start ctx : Recording G E C) := settled_start ctx
  rcases run_settled finish hstart ops with herror | ⟨w', hrun, hw'⟩
  · refine ⟨fun a ha => ?_, fun w hw => ?_⟩
    · rw [herror] at ha
      cases ha
    · rw [herror] at hw
      cases hw
  · refine ⟨fun a ha => ?_, fun w hw => ?_⟩
    · rw [hrun] at ha
      cases ha
    rw [hrun] at hw
    cases hw
    obtain ⟨ho, -, -⟩ := hw'
    refine ⟨List.forall_mem_append.mpr ⟨ho.segments, List.forall_mem_singleton.mpr ho.handed⟩,
      ho.accounted, ?_⟩
    have hlength := congrArg List.length ho.numbered
    rw [List.length_map, List.length_range] at hlength
    rw [hlength]
    exact ho.numbered

/-- A record that carries its own timestamp. -/
def recordAt (timestamp : ℕ) : RingRecord ℕ := ⟨some timestamp, some timestamp⟩

/-- Two rings, the second of which cannot be decoded to its end in the second round, a
third ring opened before the next round, and a flush. -/
def abortedOps : List (Op ℕ ℕ) :=
  [.openRing 3, .openRing 5,
   .consume [⟨10, [recordAt 8, recordAt 4], true⟩, ⟨12, [recordAt 11, recordAt 4], true⟩]
     [⟨14, [recordAt 13], true⟩, ⟨20, [recordAt 18], false⟩],
   .openRing 4,
   .round [⟨22, [recordAt 15], true⟩, ⟨24, [recordAt 21], true⟩,
     ⟨26, [recordAt 12, recordAt 25], true⟩],
   .flush [⟨30, [recordAt 27], true⟩, ⟨31, [], true⟩, ⟨32, [recordAt 26], true⟩]
     [⟨40, [], true⟩, ⟨41, [], true⟩, ⟨42, [recordAt 33], true⟩]]

theorem events_are_handed_out_in_order_aborted :
    ∃ w : Recording ℕ ℕ Unit,
      run (fun _ ctx _ => (ctx, true)) (Recording.start ()) abortedOps = .ok w ∧
      w.sink.segments.map (fun segment => segment.map (·.key)) =
        [[4, 4, 8, 11, 12, 13, 15, 18, 21, 25, 26, 27, 33]] ∧
      ∀ segment ∈ w.sink.segments ++ [w.sink.handed], segment.Pairwise EventHeapItem.Before := by
  have hrun : (run (fun _ ctx _ => (ctx, true)) (Recording.start ()) abortedOps).toOption.map
      (fun w : Recording ℕ ℕ Unit => w.sink.segments.map fun segment => segment.map (·.key)) =
        some [[4, 4, 8, 11, 12, 13, 15, 18, 21, 25, 26, 27, 33]] := by
    decide +kernel
  cases hw : run (fun _ ctx _ => (ctx, true)) (Recording.start ()) abortedOps with
  | error halt =>
    rw [hw] at hrun
    cases hrun
  | ok w =>
    rw [hw] at hrun
    have hordered := (events_are_handed_out_in_order _ () abortedOps).2 w hw
    exact ⟨w, rfl, Option.some.inj hrun, hordered.1⟩

end StackPulse.EventHandout
