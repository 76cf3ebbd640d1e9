import StackPulse.RetirementSafety

/-!
Whole recordings: between drains and attaches the table and the log are sound, so no
event of a properly retired process is finished, queued or unread afterwards. An attach
that removes the state of another process than the one it found stale is not among
the proper retirements, and can retire a process whose last events are still unread.
-/
namespace StackPulse.RetirementRuns

open Attempts Sorter EventRounds EventHandout EventCoverage
open Retirement Retirement.ProcessTable RetirementSafety

variable {G I : Type} [LinearOrder G] {death : I → ℕ} {w w' : World G I}

/-- The invariant between the operations of a recording. -/
structure Between (death : I → ℕ) (w : World G I) : Prop where
  settled : Settled w
  sound : Sound death w.perf.now w.perf w.sink.sorter.heap w.sink.ctx

/-- A context may be replaced by one that is as sound. -/
theorem Between.withContext (h : Between death w) {ctx : Context G I}
    (hs : Sound death w.perf.now w.perf w.sink.sorter.heap ctx) :
    Between death (withContext w ctx) := by
  obtain ⟨ho, hd, hgroup⟩ := h.settled
  exact ⟨⟨⟨ho.heap, ho.handed, ho.ahead, ho.segments, ho.unnumbered, ho.accounted, ho.numbered⟩,
    ⟨hd.lower_le, hd.heap_lt, hd.handed_lt, hd.handed_lt_lower, hd.round_le, hd.older, hd.previous,
      hd.current⟩, hgroup⟩, hs⟩

theorem Between.waitUntil (h : Between death w) (now : ℕ) : Between death (waitUntil w now) :=
  ⟨Settled.wait h.settled now, h.sound.owners,
    h.sound.logged.mono fun _ hfrom => From.wait hfrom now,
    h.sound.pending.mono (le_max_left _ _)⟩

theorem Between.openRings (h : Between death w) (fds : List G) :
    Between death (openRings w fds) := by
  induction fds generalizing w with
  | nil => exact h
  | cons fd fds ih =>
    refine ih (w := { w with perf := w.perf.openRing fd }) ⟨Settled.openRing h.settled fd, ?_⟩
    exact ⟨h.sound.owners, h.sound.logged.mono fun _ hfrom => From.openRing hfrom fd,
      h.sound.pending⟩

theorem bookkeep_between {d : Drain G I} {date : ℕ} (h : Drained death date w)
    (hbook : bookkeep death d w = .ok w') :
    Between death w' ∧ From date w'.perf w'.sink.sorter.heap := by
  unfold bookkeep at hbook
  dsimp only at hbook
  have hseen :
      Drained death date (Retirement.waitUntil (Retirement.openRings w d.opened) d.seenAt) :=
    (h.openRings d.opened).waitUntil d.seenAt
  generalize Retirement.waitUntil (Retirement.openRings w d.opened) d.seenAt = w₁ at hbook hseen
  split at hbook
  · rename_i hexited
    simp only [List.all_eq_true] at hexited
    have hretired : Between death (Retirement.withContext w₁ (retireDead d.exited w₁.sink.ctx)) :=
      Between.withContext ⟨hseen.settled, hseen.sound.owners, hseen.sound.logged,
        hseen.sound.pending.mono hseen.covered.now⟩ (hseen.retireDead hexited)
    have hgone := hretired.waitUntil d.goneAt
    have hcovered : From date (w₁.perf.wait d.goneAt) w₁.sink.sorter.heap :=
      From.wait hseen.covered d.goneAt
    split at hbook
    · rename_i hall
      simp only [List.all_eq_true, Bool.and_eq_true] at hall
      cases hbook
      refine ⟨hgone.withContext ⟨hgone.sound.owners, hgone.sound.logged,
        hgone.sound.pending.reconcile ?_ d.recovered⟩, hcovered⟩
      intro pid hmem
      obtain ⟨htracked, hdead⟩ := hall pid hmem
      obtain ⟨i, hi⟩ := process_of_isTracked htracked
      simp only [isDead, hi, decide_eq_true_eq] at hdead
      exact ⟨i, hi, hdead⟩
    · cases hbook
  · cases hbook

theorem drainEventsInner_between {d : Drain G I} (h : Between death w)
    (hdrain : drainEventsInner death d w = .ok w') :
    Between death w' ∧ From w.perf.now w'.perf w'.sink.sorter.heap := by
  unfold drainEventsInner at hdrain
  obtain ⟨w₁, hrings, hdrain⟩ := bind_ok.mp hdrain
  exact bookkeep_between (drainRings_drained h.settled h.sound hrings) hdrain

theorem process_of_stale_none {table : ProcessTable I} {pid : Pid} {exited : Bool}
    (h : trackedProcessIsStale table pid exited = none) : (stateOf table pid).process = none := by
  unfold trackedProcessIsStale at h
  unfold stateOf
  split at h
  · rename_i hlookup
    rw [hlookup]
    rfl
  · rename_i state hlookup
    rw [hlookup, Option.getD_some]
    split at h
    · cases h
    · split at h
      · assumption
      · cases h

section

variable (h : Between death w)

include h

theorem Between.openProcess {a : Attach G I}
    (huntracked : (stateOf w.sink.ctx.table a.pid).process = none) :
    Between death (openProcess a w) := by
  have hopened := h.openRings a.opened
  refine hopened.withContext ⟨hopened.sound.owners, hopened.sound.logged, ?_⟩
  cases a.process with
  | none => exact hopened.sound.pending
  | some i => exact hopened.sound.pending.track huntracked

theorem replaceStale_between {a : Attach G I} (hreplace : replaceStale death a w = .ok w') :
    Between death w' := by
  unfold replaceStale at hreplace
  split at hreplace
  · rename_i hdead
    obtain ⟨w₁, hdrain, hreplace⟩ := bind_ok.mp hreplace
    cases hreplace
    obtain ⟨h₁, hfrom⟩ := drainEventsInner_between h hdrain
    have hclean : Between death (Retirement.withContext w₁ (cleanupProcess
        (.attach (stateOf w.sink.ctx.table a.pid).process) w₁.sink.ctx a.pid)) := by
      refine h₁.withContext (h₁.sound.cleanup fun i _ hproper => ?_)
      -- the process found stale had died when the second drain began
      have hsame : (stateOf w.sink.ctx.table a.pid).process = some i := hproper
      simp only [isDead, hsame, decide_eq_true_eq] at hdead
      exact From.mono hfrom hdead
    refine hclean.openProcess ?_
    show (stateOf (w₁.sink.ctx.table.erase a.pid) a.pid).process = none
    rw [stateOf_erase, if_pos rfl]
  · cases hreplace

theorem attachProcess_between {a : Attach G I} (hattach : attachProcess death a w = .ok w') :
    Between death w' := by
  unfold attachProcess at hattach
  obtain ⟨w₁, hknown, hattach⟩ := bind_ok.mp hattach
  have h₁ : Between death w₁ := by
    unfold drainKnown at hknown
    split at hknown
    · exact (drainEventsInner_between h hknown).1
    · cases hknown
      exact h
  have h₂ := h₁.waitUntil a.seenAt
  unfold attachKnown at hattach
  split at hattach
  · rename_i hstale
    cases hattach
    exact h₂.openProcess (process_of_stale_none hstale)
  · cases hattach
    exact h₂
  · exact replaceStale_between h₂ hattach

theorem step_between {op : Retirement.Op G I} (hstep : Retirement.step death w op = .ok w') :
    Between death w' := by
  cases op with
  | drain d => exact (drainEventsInner_between h hstep).1
  | attach a => exact attachProcess_between h hstep
  | refreshThreads opened =>
    cases hstep
    exact h.openRings opened

theorem run_between {ops : List (Retirement.Op G I)} (hrun : Retirement.run death w ops = .ok w') :
    Between death w' := by
  induction ops generalizing w with
  | nil =>
    cases hrun
    exact h
  | cons op ops ih =>
    unfold Retirement.run at hrun
    rw [List.foldlM_cons] at hrun
    obtain ⟨w₁, hstep, hrun⟩ := bind_ok.mp hrun
    exact ih (step_between h hstep) hrun

end

theorem between_start (death : I → ℕ) : Between death (Retirement.start : World G I) := by
  refine ⟨settled_start _, fun e he => (by cases he), ?_, ?_⟩
  · intro before i cause after hlog
    exact absurd hlog.symm (List.append_ne_nil_of_right_ne_nil _ (List.cons_ne_nil _ _))
  · exact fun pid state hlookup => (by cases hlookup)

/-- Once a process is retired after a deferral, by an attach of the process it found
stale, or by a fork record released in order and dated after its death, no event of the
process is finished any more, none is queued, and whatever a ring still holds is dated
after its death. -/
theorem no_event_outlives_its_process (death : I → ℕ) (ops : List (Retirement.Op G I))
    (w : World G I) (hrun : Retirement.run death Retirement.start ops = .ok w)
    (before after : List (Entry G I)) (i : I) (cause : Cause I)
    (hlog : w.sink.ctx.log = before ++ Entry.retired i cause :: after)
    (hproper : Proper death i cause) :
    (∀ item, Entry.finished item ∈ after → ownerOf item ≠ some i) ∧
      (∀ item ∈ w.sink.sorter.heap, ownerOf item ≠ some i) ∧
      ∀ fd lower, w.perf.outputs.get fd = some lower → death i < lower := by
  have hbetween := run_between (between_start death) hrun
  obtain ⟨hfrom, hafter⟩ := hbetween.sound.logged before i cause after hlog hproper
  refine ⟨hafter, ?_, fun fd lower hget => hfrom.rings fd lower hget⟩
  intro item hmem howner
  have hlate : death i + 1 ≤ item.key := hfrom.heap item hmem
  exact absurd (hbetween.sound.owners item hmem i howner) (Nat.not_le.mpr hlate)

/-- Process 1 dies at 50 and process 2 at 120. -/
def lifetimes (i : ℕ) : ℕ := if i = 1 then 50 else if i = 2 then 120 else 1000

/-- A consuming drain without a sweep. -/
def plainDrain (first second : List (Reading (ProcessEvent ℕ))) (seenAt : ℕ)
    (exited : List Pid) : Drain ℕ ℕ :=
  ⟨.consume, first, second, false, [], seenAt, exited, 0, [], []⟩

def eventOf (owner timestamp : ℕ) : RingRecord (ProcessEvent ℕ) :=
  ⟨some timestamp, some ⟨some owner, .other⟩⟩

/-- Process 1 is attached at pid 7 and opens ring 3. -/
def firstAttach : Attach ℕ ℕ :=
  ⟨7, plainDrain [] [] 0 [], 0, false, plainDrain [] [] 0 [], [3], some 1⟩

/-- The death at 50 is seen at 60, after the rings were read; the next drain reads the
last event, and an event of another process that still waits when process 1 is retired. -/
def deferredOps : List (Retirement.Op ℕ ℕ) :=
  [.attach firstAttach,
   .drain (plainDrain [⟨30, [eventOf 1 20], true⟩] [⟨31, [], true⟩] 60 [7]),
   .drain (plainDrain [⟨65, [eventOf 1 50], true⟩] [⟨70, [eventOf 3 66], true⟩] 71 [])]

theorem no_event_outlives_its_process_deferred :
    ∃ w : World ℕ ℕ, Retirement.run lifetimes Retirement.start deferredOps = .ok w ∧
      w.sink.sorter.heap.map (·.key) = [66] ∧
      ∃ before, w.sink.ctx.log = before ++ [Entry.retired 1 .deferred] ∧
        (∀ item ∈ w.sink.sorter.heap, ownerOf item ≠ some 1) ∧
        ∀ fd lower, w.perf.outputs.get fd = some lower → lifetimes 1 < lower := by
  have hrun : (Retirement.run lifetimes Retirement.start deferredOps).toOption.map
      (fun w : World ℕ ℕ => (w.sink.sorter.heap.map (·.key), w.sink.ctx.log.length,
        w.sink.ctx.log.getLast?)) = some ([66], 3, some (Entry.retired 1 .deferred)) := by
    decide +kernel
  cases hw : Retirement.run lifetimes Retirement.start deferredOps with
  | error stop =>
    rw [hw] at hrun
    cases hrun
  | ok w =>
    rw [hw] at hrun
    have hfacts := Option.some.inj hrun
    simp only [Prod.mk.injEq] at hfacts
    obtain ⟨hheap, -, hlast⟩ := hfacts
    obtain ⟨before, hlog⟩ := List.getLast?_eq_some_iff.mp hlast
    have hsafe := no_event_outlives_its_process lifetimes deferredOps w hw before [] 1 .deferred
      hlog trivial
    exact ⟨w, rfl, hheap, before, hlog, hsafe.2⟩

/-- Process 1 is found stale by an attach. Its second drain handles the fork record of
process 2, which takes over the pid; process 2 writes at 115, after the rings were
read, and dies at 120. -/
def staleAttach : Attach ℕ ℕ :=
  ⟨7, plainDrain [⟨60, [], true⟩] [] 61 [7], 70, true,
    plainDrain [⟨100, [⟨some 95, some ⟨none, .fork 7 2 true⟩⟩], true⟩] [⟨111, [], true⟩] 125 [7],
    [], none⟩

/-- The event of process 2 is read by the next drain. -/
def lastDrain : Drain ℕ ℕ :=
  plainDrain [⟨200, [eventOf 2 115], true⟩] [⟨210, [], true⟩] 211 []

def finishesEventOf (i : ℕ) : Entry ℕ ℕ → Bool
  | .finished item => decide (ownerOf item = some i)
  | .retired _ _ => false

/-- The attach then retires process 2, which is dead and whose event is still unread. -/
theorem attach_retires_before_last_event :
    ∃ w w' : World ℕ ℕ,
      Retirement.run lifetimes Retirement.start [.attach firstAttach, .attach staleAttach] = .ok w ∧
      Retirement.run lifetimes w [.drain lastDrain] = .ok w' ∧
      w.sink.ctx.log.getLast? = some (Entry.retired 2 (.attach (some 1))) ∧
      lifetimes 2 < w.perf.now ∧
      (w'.sink.ctx.log.drop w.sink.ctx.log.length).any (finishesEventOf 2) = true := by
  have hrun : (Retirement.run lifetimes Retirement.start
      [.attach firstAttach, .attach staleAttach]).toOption.bind
      (fun w : World ℕ ℕ => (Retirement.run lifetimes w [.drain lastDrain]).toOption.map
        fun w' => (w.sink.ctx.log.getLast?, decide (lifetimes 2 < w.perf.now),
          (w'.sink.ctx.log.drop w.sink.ctx.log.length).any (finishesEventOf 2))) =
        some (some (Entry.retired 2 (.attach (some 1))), true, true) := by
    decide +kernel
  cases hw : Retirement.run lifetimes Retirement.start
      [.attach firstAttach, .attach staleAttach] with
  | error stop =>
    rw [hw] at hrun
    cases hrun
  | ok w =>
    rw [hw] at hrun
    cases hw' : Retirement.run lifetimes w [.drain lastDrain] with
    | error stop =>
      have hnone : (Retirement.run lifetimes w [.drain lastDrain]).toOption = none := by
        rw [hw']
        rfl
      have hrun' : (Retirement.run lifetimes w [.drain lastDrain]).toOption.map _ = some _ := hrun
      rw [hnone] at hrun'
      cases hrun'
    | ok w' =>
      have hsome : (Retirement.run lifetimes w [.drain lastDrain]).toOption = some w' := by
        rw [hw']
        rfl
      have hrun' : (Retirement.run lifetimes w [.drain lastDrain]).toOption.map _ = some _ := hrun
      rw [hsome] at hrun'
      have hfacts := Option.some.inj hrun'
      simp only [Prod.mk.injEq, decide_eq_true_eq] at hfacts
      exact ⟨w, w', rfl, hw', hfacts⟩

end StackPulse.RetirementRuns
