import StackPulse.EventCoverage
import StackPulse.Model
import StackPulse.Retirement

/-!
A process is retired only after its last event. The drain after the one that saw the
process gone leaves nothing in the rings or the sorter that is as old as its death; a
fork record released in order is older than all that is left, and its process died
before it. Where an attach removes a state that is still the one it found stale, the
flush in between has done the same.
-/
namespace StackPulse.RetirementSafety

open Model (lookup_insert_eq lookup_erase_eq lookup_insert_cases)
open Attempts OrderedMap Sorter EventOrder EventRounds EventHandout EventCoverage
open Retirement Retirement.ProcessTable

variable {G I : Type} [LinearOrder G] {death : I → ℕ} {table : ProcessTable I} {w w' : World G I}
  {heap : List (Item G (ProcessEvent I))} {date now : ℕ} {perf : PerfGroup G} {pid : Pid} {i : I}

abbrev ownerOf (item : Item G (ProcessEvent I)) : Option I := item.value.event.owner

/-- The retirements that wait for the last event: after a deferral, by an attach of the
process it found stale, and by a fork record that is released in order and dated after
the death of the process whose pid it reuses. -/
def Proper (death : I → ℕ) (i : I) : Cause I → Prop
  | .deferred => True
  | .attach stale => stale = some i
  | .reusedPid timestamp forced => forced = false ∧ death i < timestamp

/-- After a proper retirement no event of the process is finished, and all that is
queued or unread is dated after its death. -/
def Logged (death : I → ℕ) (perf : PerfGroup G) (heap : List (Item G (ProcessEvent I)))
    (log : List (Entry G I)) : Prop :=
  ∀ before i cause after, log = before ++ Entry.retired i cause :: after → Proper death i cause →
    From (death i + 1) perf heap ∧ ∀ item, Entry.finished item ∈ after → ownerOf item ≠ some i

/-- A state that waits for retirement tracks a process that died before `date`. -/
def PendingBy (death : I → ℕ) (date : ℕ) (table : ProcessTable I) : Prop :=
  ∀ pid state, table.lookup pid = some state → state.pendingRetirement = true →
    ∃ i, state.process = some i ∧ death i < date

def OwnersAlive (death : I → ℕ) (heap : List (Item G (ProcessEvent I))) : Prop :=
  ∀ e ∈ heap, ∀ i, ownerOf e = some i → e.key ≤ death i

structure Sound (death : I → ℕ) (date : ℕ) (perf : PerfGroup G)
    (heap : List (Item G (ProcessEvent I))) (ctx : Context G I) : Prop where
  owners : OwnersAlive death heap
  logged : Logged death perf heap ctx.log
  pending : PendingBy death date ctx.table

section

variable {perf' : PerfGroup G} {heap' : List (Item G (ProcessEvent I))} {log : List (Entry G I)}

theorem snoc_eq_split {α : Type} {l before after : List α} {x y : α}
    (h : l ++ [x] = before ++ y :: after) :
    (after = [] ∧ x = y) ∨ ∃ rest, after = rest ++ [x] ∧ l = before ++ y :: rest := by
  rcases List.eq_nil_or_concat after with rfl | ⟨rest, z, rfl⟩
  · have hlast := List.append_inj' h rfl
    exact .inl ⟨rfl, List.singleton_inj.mp hlast.2⟩
  · rw [List.concat_eq_append, ← List.cons_append, ← List.append_assoc] at h
    obtain ⟨hl, hx⟩ := List.append_inj' h rfl
    have hxz : x = z := List.singleton_inj.mp hx
    exact .inr ⟨rest, by rw [List.concat_eq_append, hxz], hl⟩

theorem Logged.mono (h : Logged death perf heap log)
    (hfrom : ∀ date, From date perf heap → From date perf' heap') :
    Logged death perf' heap' log := by
  intro before i cause after hlog hproper
  obtain ⟨hdate, hafter⟩ := h before i cause after hlog hproper
  exact ⟨hfrom _ hdate, hafter⟩

/-- An event that was queued cannot belong to a process already retired. -/
theorem Logged.finished {item : Item G (ProcessEvent I)} {rest : List (Item G (ProcessEvent I))}
    (h : Logged death perf (item :: rest) log)
    (howner : ∀ i, ownerOf item = some i → item.key ≤ death i) :
    Logged death perf rest (log ++ [.finished item]) := by
  intro before i cause after hlog hproper
  rcases snoc_eq_split hlog with ⟨-, hentry⟩ | ⟨after', rfl, hlog'⟩
  · cases hentry
  obtain ⟨hdate, hafter⟩ := h before i cause after' hlog' hproper
  refine ⟨hdate.subset fun e he => .tail _ he, ?_⟩
  intro other hmem
  rcases List.mem_append.mp hmem with hmem | hmem
  · exact hafter other hmem
  · cases List.mem_singleton.mp hmem
    intro heq
    have hkey : death i + 1 ≤ item.key := hdate.heap item (.head _)
    exact absurd (howner i heq) (Nat.not_le.mpr hkey)

theorem Logged.retired {cause : Cause I} (h : Logged death perf heap log)
    (hdate : Proper death i cause → From (death i + 1) perf heap) :
    Logged death perf heap (log ++ [.retired i cause]) := by
  intro before j cause' after hlog hproper
  rcases snoc_eq_split hlog with ⟨rfl, hentry⟩ | ⟨after', rfl, hlog'⟩
  · cases hentry
    exact ⟨hdate hproper, fun item hmem => (by cases hmem)⟩
  · obtain ⟨hfrom, hafter⟩ := h before j cause' after' hlog' hproper
    refine ⟨hfrom, fun item hmem => hafter item ?_⟩
    exact (List.mem_append.mp hmem).resolve_right (by simp)

end

section

variable {date' : ℕ}

section

variable (h : PendingBy death date table)

include h

theorem PendingBy.mono (hle : date ≤ date') : PendingBy death date' table := by
  intro pid state hlookup hpending
  obtain ⟨i, hi, hdeath⟩ := h pid state hlookup hpending
  exact ⟨i, hi, hdeath.trans_le hle⟩

theorem PendingBy.insert {state : ProcessState I}
    (hstate : state.pendingRetirement = true → ∃ i, state.process = some i ∧ death i < date) :
    PendingBy death date (table.insert pid state) := by
  intro pid' state' hlookup hpending
  rcases lookup_insert_cases hlookup with ⟨-, rfl⟩ | hlookup
  · exact hstate hpending
  · exact h pid' state' hlookup hpending

theorem PendingBy.erase (pid : Pid) : PendingBy death date (table.erase pid) := by
  intro pid' state hlookup hpending
  rw [lookup_erase_eq] at hlookup
  split at hlookup
  · cases hlookup
  · exact h pid' state hlookup hpending

theorem PendingBy.of_stateOf (hpending : (stateOf table pid).pendingRetirement = true) :
    ∃ i, (stateOf table pid).process = some i ∧ death i < date := by
  unfold stateOf at hpending ⊢
  cases hlookup : table.lookup pid with
  | none =>
    rw [hlookup] at hpending
    cases hpending
  | some state =>
    rw [hlookup] at hpending
    exact h pid state hlookup hpending

theorem PendingBy.ensureTracked (pid : Pid) (opened : I) :
    PendingBy death date (ensureTracked table pid opened) := by
  refine h.insert fun hpending => ?_
  obtain ⟨i, hi, hdeath⟩ := h.of_stateOf hpending
  exact ⟨i, by rw [hi]; rfl, hdeath⟩

/-- A handle takes the place of none, so the state was not waiting. -/
theorem PendingBy.track {process : I} (huntracked : (stateOf table pid).process = none) :
    PendingBy death date (track table pid process) := by
  refine h.insert fun hpending => ?_
  obtain ⟨i, hi, -⟩ := h.of_stateOf hpending
  rw [huntracked] at hi
  cases hi

end

end

section

variable {ctx : Context G I}

theorem Sound.cleanup (h : Sound death date perf heap ctx) {cause : Cause I}
    (hdate : ∀ i, (stateOf ctx.table pid).process = some i → Proper death i cause →
      From (death i + 1) perf heap) :
    Sound death date perf heap (cleanupProcess cause ctx pid) := by
  refine ⟨h.owners, ?_, h.pending.erase pid⟩
  unfold cleanupProcess
  cases hprocess : (stateOf ctx.table pid).process with
  | none => simpa using h.logged
  | some i => exact h.logged.retired (hdate i hprocess)

theorem Sound.finishFork (h : Sound death date perf heap ctx) {timestamp : ℕ} {forced : Bool}
    (hdate : ∀ i, forced = false → death i < timestamp → From (death i + 1) perf heap)
    (child : Pid) (opened : I) (exited : Bool) :
    Sound death date perf heap (finishFork timestamp forced ctx child opened exited) := by
  have hclean : Sound death date perf heap
      (if (trackedProcessIsStale ctx.table child exited).getD false then
        cleanupProcess (.reusedPid timestamp forced) ctx child else ctx) := by
    split
    · exact h.cleanup fun i _ hproper => hdate i hproper.1 hproper.2
    · exact h
  exact ⟨hclean.owners, hclean.logged, hclean.pending.ensureTracked child opened⟩

theorem Sound.finishPrepared {item : Item G (ProcessEvent I)}
    {rest : List (Item G (ProcessEvent I))} (h : Sound death date perf (item :: rest) ctx)
    {forced : Bool}
    (hdate : ∀ i, forced = false → death i < item.key → From (death i + 1) perf rest) :
    Sound death date perf rest (finishPreparedEvent forced ctx item).1 := by
  have hfinished : Sound death date perf rest { ctx with log := ctx.log ++ [.finished item] } :=
    ⟨fun e he => h.owners e (.tail _ he),
      h.logged.finished (h.owners item (.head _)), h.pending⟩
  unfold finishPreparedEvent
  dsimp only
  split
  · exact hfinished
  · exact ⟨hfinished.owners, hfinished.logged, h.pending.insert h.pending.of_stateOf⟩
  · exact hfinished.finishFork hdate _ _ _

/-- Every part of a round keeps the table and the log sound. -/
theorem sound_kept (death : I → ℕ) (date : ℕ) :
    Kept (G := G) finishPreparedEvent (fun r => wellDated death r = true)
      (Sound death date) := by
  constructor
  · intro perf heap ctx h
    exact ⟨List.forall_mem_map.mpr h.owners, h.logged.mono fun _ => From.detachAll, h.pending⟩
  · intro perf item rest ctx h
    exact ⟨fun e he => h.owners e (.tail _ he),
      h.logged.mono fun _ hfrom => hfrom.subset fun e he => .tail _ he, h.pending⟩
  · intro perf item rest ctx h hbefore hnow hrings
    refine h.finishPrepared fun i _ hdeath => ⟨?_, ?_, ?_⟩
    · exact Nat.succ_le_of_lt (hdeath.trans hnow)
    · exact fun e he => Nat.succ_le_of_lt (hdeath.trans_le (key_le_of_before (hbefore e he)))
    · exact fun fd l hget => Nat.succ_le_of_lt (hdeath.trans (hrings fd l hget))
  · intro perf item rest ctx h
    exact h.finishPrepared fun i hforced => (by cases hforced)
  · intro perf heap ctx item r lower h hget hkey hr hitem hevent
    refine ⟨?_, h.logged.mono fun _ hfrom => hfrom.queued hget hkey, h.pending⟩
    intro e he i howner
    rcases mem_insertItem.mp he with rfl | he
    · simp only [wellDated, hevent, howner, decide_eq_true_eq] at hr
      exact hitem ▸ hr
    · exact h.owners e he i howner
  · intro perf heap ctx fd reading h hpub
    exact ⟨h.owners, h.logged.mono fun _ hfrom => hfrom.read hpub, h.pending⟩

end

/-- After the rings of a drain that began at `date` were read. -/
structure Drained (death : I → ℕ) (date : ℕ) (w : World G I) : Prop where
  settled : Settled w
  sound : Sound death date w.perf w.sink.sorter.heap w.sink.ctx
  covered : From date w.perf w.sink.sorter.heap

theorem Drained.flush (h : Drained death date w) :
    Drained death date { w with sink := w.sink.flushReadyEvents finishPreparedEvent } := by
  refine ⟨h.settled.flushReadyEvents _, flushReadyEvents_kept (sound_kept death date) h.sound, ?_⟩
  refine h.covered.subset fun e he => ?_
  exact mem_of_mem_drainLoop finishPreparedEvent
    (show e ∈ (DrainSink.drainLoop finishPreparedEvent true _ w.sink).sorter.heap from he)

/-- A drain that failed stays failed. -/
theorem failed_of_flush (h : w.sink.failed = true) :
    (w.sink.flushReadyEvents finishPreparedEvent).failed = true := by
  refine drainLoop_rule finishPreparedEvent true (P := fun s => s.failed = true) ?_
    w.sink.sorter.heap.length w.sink h
  intro s item sorter hs _
  unfold DrainSink.finishEvent
  dsimp only
  rw [if_pos hs]
  exact hs

theorem consume_drained {first second : List (Reading (ProcessEvent I))}
    (hrecords : ∀ reading ∈ first ++ second, ∀ r ∈ reading.records, wellDated death r = true)
    (hw : Settled w) (hs : Sound death w.perf.now w.perf w.sink.sorter.heap w.sink.ctx)
    (h : consumeEvents finishPreparedEvent first second w = .ok (w', true))
    (hok : w'.sink.failed = false) : Drained death w.perf.now w' := by
  have hends := consumeEvents_ends (sound_kept death w.perf.now)
    (fun reading hr => hrecords reading (List.mem_append_left _ hr))
    (fun reading hr => hrecords reading (List.mem_append_right _ hr)) hw hs
  rcases hends with herror | ⟨w₁, ok, hconsume, hw₁, hs₁⟩
  · rw [herror] at h
    cases h
  · rw [hconsume] at h
    cases h
    exact ⟨hw₁, hs₁, consumeEvents_from hw hconsume hok⟩

theorem flush_drained {first second : List (Reading (ProcessEvent I))}
    (hrecords : ∀ reading ∈ first ++ second, ∀ r ∈ reading.records, wellDated death r = true)
    (hw : Settled w) (hs : Sound death w.perf.now w.perf w.sink.sorter.heap w.sink.ctx)
    (h : flushEvents finishPreparedEvent first second w = .ok (w', true))
    (hok : w'.sink.failed = false) : Drained death w.perf.now w' := by
  unfold flushEvents at h
  obtain ⟨⟨w₁, ok⟩, hconsume, h⟩ := bind_ok.mp h
  cases ok with
  | false => cases h
  | true =>
    cases h
    have hok₁ : w₁.sink.failed = false := by
      cases hfailed : w₁.sink.failed with
      | false => rfl
      | true =>
        rw [failed_of_flush hfailed] at hok
        cases hok
    exact (consume_drained hrecords hw hs hconsume hok₁).flush

theorem drainPerf_drained {d : Drain G I}
    (hrecords : ∀ reading ∈ d.first ++ d.second, ∀ r ∈ reading.records, wellDated death r = true)
    (hw : Settled w) (hs : Sound death w.perf.now w.perf w.sink.sorter.heap w.sink.ctx)
    (h : drainPerf d w = .ok (w', true)) (hok : w'.sink.failed = false) :
    Drained death w.perf.now w' := by
  unfold drainPerf at h
  split at h
  · exact consume_drained hrecords hw hs h hok
  · exact flush_drained hrecords hw hs h hok

theorem drainRings_drained {d : Drain G I} (hw : Settled w)
    (hs : Sound death w.perf.now w.perf w.sink.sorter.heap w.sink.ctx)
    (h : drainRings death d w = .ok w') : Drained death w.perf.now w' := by
  unfold drainRings at h
  split at h
  · rename_i hall
    simp only [List.all_eq_true] at hall
    cases hdrain : drainPerf d w.fresh with
    | error halt =>
      rw [hdrain] at h
      cases h
    | ok r =>
      obtain ⟨w₁, ok⟩ := r
      rw [hdrain] at h
      simp only [Except.mapError, bind, Except.bind] at h
      split at h
      · rename_i hgood
        obtain ⟨rfl, hok⟩ := Bool.and_eq_true_iff.mp hgood
        cases h
        have hdrained : Drained death w.perf.now w₁ :=
          drainPerf_drained (w := w.fresh) hall (Settled.fresh hw) hs hdrain (by simpa using hok)
        unfold flushForSweep
        split
        · exact hdrained.flush
        · exact hdrained
      · cases h
  · cases h

theorem From.mono {date' : ℕ} (h : From date perf heap) (hle : date' ≤ date) :
    From date' perf heap :=
  ⟨hle.trans h.now, fun e he => hle.trans (h.heap e he),
    fun fd l hget => hle.trans (h.rings fd l hget)⟩

theorem From.openRing (h : From date perf heap) (fd : G) : From date (perf.openRing fd) heap := by
  refine ⟨h.now, h.heap, ?_⟩
  intro fd' l hget
  rw [PerfGroup.openRing, BTreeMap.get_insert] at hget
  split at hget
  · cases hget
    exact h.now
  · exact h.rings fd' l hget

theorem From.wait (h : From date perf heap) (now : ℕ) : From date (perf.wait now) heap :=
  ⟨h.now.trans (le_max_left _ _), h.heap, h.rings⟩

theorem Drained.openRings (h : Drained death date w) (fds : List G) :
    Drained death date (openRings w fds) := by
  induction fds generalizing w with
  | nil => exact h
  | cons fd fds ih =>
    refine ih (w := { w with perf := w.perf.openRing fd }) ⟨Settled.openRing h.settled fd, ?_, ?_⟩
    · exact ⟨h.sound.owners, h.sound.logged.mono fun _ hfrom => From.openRing hfrom fd,
        h.sound.pending⟩
    · exact From.openRing h.covered fd

theorem Drained.waitUntil (h : Drained death date w) (now : ℕ) :
    Drained death date (waitUntil w now) :=
  ⟨Settled.wait h.settled now,
    ⟨h.sound.owners, h.sound.logged.mono fun _ hfrom => From.wait hfrom now, h.sound.pending⟩,
    From.wait h.covered now⟩

theorem stateOf_insert (table : ProcessTable I) (pid pid' : Pid) (state : ProcessState I) :
    stateOf (table.insert pid state) pid' = if pid' = pid then state else stateOf table pid' := by
  unfold stateOf
  rw [lookup_insert_eq]
  split <;> rfl

theorem stateOf_erase (table : ProcessTable I) (pid pid' : Pid) :
    stateOf (table.erase pid) pid' = if pid' = pid then ⟨none, false⟩ else stateOf table pid' := by
  unfold stateOf
  rw [lookup_erase_eq]
  split <;> rfl

/-- What deferring a tracked process can do. -/
theorem deferRetirement_cases (hi : (stateOf table pid).process = some i) :
    ((stateOf table pid).pendingRetirement = true ∧ deferRetirement table pid = (table, false)) ∨
      deferRetirement table pid =
        (table.insert pid { stateOf table pid with pendingRetirement := true }, true) := by
  unfold stateOf at hi ⊢
  unfold deferRetirement
  cases hlookup : table.lookup pid with
  | none =>
    rw [hlookup] at hi
    cases hi
  | some state =>
    cases hwaiting : state.pendingRetirement with
    | true => exact .inl ⟨hwaiting, by simp only [hwaiting, if_true]⟩
    | false => exact .inr (by simp only [hwaiting, Bool.false_eq_true, if_false, Option.getD_some])

/-- Deferring a dead process changes no process, and the state then rightly waits. -/
theorem deferRetirement_spec (hi : (stateOf table pid).process = some i) (hdead : death i < now)
    (hpending : PendingBy death now table) :
    PendingBy death now (deferRetirement table pid).1 ∧
      (∀ pid', (stateOf (deferRetirement table pid).1 pid').process =
        (stateOf table pid').process) ∧
      ∀ pid', pid' ≠ pid → stateOf (deferRetirement table pid).1 pid' = stateOf table pid' := by
  rcases deferRetirement_cases hi with ⟨-, hdefer⟩ | hdefer
  · rw [hdefer]
    exact ⟨hpending, fun _ => rfl, fun _ _ => rfl⟩
  · rw [hdefer]
    refine ⟨hpending.insert fun _ => ⟨i, hi, hdead⟩, ?_, ?_⟩
    · intro pid'
      rw [stateOf_insert]
      split
      · rename_i heq
        rw [heq]
      · rfl
    · intro pid' hne
      rw [stateOf_insert, if_neg hne]

/-- Deferring leaves for now only those that already waited. -/
theorem deferAll_spec {pids : List Pid} (hnodup : pids.Nodup)
    (hdead : ∀ pid ∈ pids, ∃ i, (stateOf table pid).process = some i ∧ death i < now ∧
      ((stateOf table pid).pendingRetirement = true → death i < date))
    (hpending : PendingBy death now table) : PendingBy death now (deferAll table pids).1 ∧
      (∀ pid, (stateOf (deferAll table pids).1 pid).process = (stateOf table pid).process) ∧
      ∀ pid ∈ (deferAll table pids).2, ∃ i, (stateOf table pid).process = some i ∧
        death i < date := by
  induction pids generalizing table with
  | nil => exact ⟨hpending, fun _ => rfl, fun pid h => (by cases h)⟩
  | cons pid pids ih =>
    obtain ⟨hnot, hnodup'⟩ := List.nodup_cons.mp hnodup
    obtain ⟨i, hi, hnow, hwaited⟩ := hdead pid (.head _)
    obtain ⟨hpending', hprocess, hother⟩ := deferRetirement_spec hi hnow hpending
    have hdead' : ∀ pid' ∈ pids, ∃ i,
        (stateOf (deferRetirement table pid).1 pid').process = some i ∧ death i < now ∧
          ((stateOf (deferRetirement table pid).1 pid').pendingRetirement = true →
            death i < date) := by
      intro pid' hmem
      rw [hother pid' fun heq => hnot (heq ▸ hmem)]
      exact hdead pid' (.tail _ hmem)
    obtain ⟨hrest, hsame, hretired⟩ := ih hnodup' hdead' hpending'
    refine ⟨hrest, fun pid' => (hsame pid').trans (hprocess pid'), ?_⟩
    have hretired' : ∀ pid' ∈ (deferAll (deferRetirement table pid).1 pids).2,
        ∃ i, (stateOf table pid').process = some i ∧ death i < date := by
      intro pid' hmem
      obtain ⟨j, hj, hdeath⟩ := hretired pid' hmem
      exact ⟨j, (hprocess pid').symm.trans hj, hdeath⟩
    rcases deferRetirement_cases hi with ⟨hwaiting, hdefer⟩ | hdefer
    · simp only [deferAll, hdefer, Bool.false_eq_true, if_false]
      intro pid' hmem
      rcases List.mem_cons.mp hmem with rfl | hmem
      · exact ⟨i, hi, hwaited hwaiting⟩
      · exact hretired' pid' (by rw [hdefer]; exact hmem)
    · simp only [deferAll, hdefer, if_true]
      intro pid' hmem
      exact hretired' pid' (by rw [hdefer]; exact hmem)

/-- Retiring processes that died before the drain began. -/
theorem Sound.retireAll (hfrom : From date perf heap) {pids : List Pid} {ctx : Context G I}
    (h : Sound death now perf heap ctx)
    (hdead : ∀ pid ∈ pids, ∀ i, (stateOf ctx.table pid).process = some i → death i < date) :
    Sound death now perf heap (pids.foldl (cleanupProcess .deferred) ctx) := by
  induction pids generalizing ctx with
  | nil => exact h
  | cons pid pids ih =>
    refine ih (h.cleanup fun i hi _ => From.mono hfrom (hdead pid (.head _) i hi)) ?_
    intro pid' hmem i hi
    have herased : (stateOf (ctx.table.erase pid) pid').process = some i := hi
    rw [stateOf_erase] at herased
    split at herased
    · cases herased
    · exact hdead pid' (.tail _ hmem) i herased

/-- The pids found gone are tracked, and each process among them is dead. -/
theorem mem_deadOrReusedPids {exited : List Pid} (h : pid ∈ deadOrReusedPids table exited) :
    (stateOf table pid).pendingRetirement = true ∨
      (stateOf table pid).process.isSome = true ∧ pid ∈ exited := by
  obtain ⟨-, hstate⟩ := List.mem_filter.mp h
  unfold stateOf
  split at hstate
  · cases hstate
  · rename_i state hlookup
    rw [hlookup, Option.getD_some]
    simpa using hstate

theorem Drained.retireDead (h : Drained death date w) {exited : List Pid}
    (hexited : ∀ pid ∈ exited, isDead death w pid = true) :
    Sound death w.perf.now w.perf w.sink.sorter.heap (retireDead exited w.sink.ctx) := by
  have hdead : ∀ pid ∈ deadOrReusedPids w.sink.ctx.table exited,
      ∃ i, (stateOf w.sink.ctx.table pid).process = some i ∧ death i < w.perf.now ∧
        ((stateOf w.sink.ctx.table pid).pendingRetirement = true → death i < date) := by
    intro pid hmem
    rcases mem_deadOrReusedPids hmem with hwaiting | ⟨hsome, hpid⟩
    · obtain ⟨i, hi, hdeath⟩ := h.sound.pending.of_stateOf hwaiting
      exact ⟨i, hi, hdeath.trans_le h.covered.now, fun _ => hdeath⟩
    · obtain ⟨i, hi⟩ := Option.isSome_iff_exists.mp hsome
      have hdeath := hexited pid hpid
      simp only [isDead, hi, decide_eq_true_eq] at hdeath
      refine ⟨i, hi, hdeath, fun hwaiting => ?_⟩
      obtain ⟨j, hj, hbefore⟩ := h.sound.pending.of_stateOf hwaiting
      rw [hi] at hj
      cases hj
      exact hbefore
  have hnodup : (deadOrReusedPids w.sink.ctx.table exited).Nodup :=
    w.sink.ctx.table.keys_nodup.filter _
  obtain ⟨hpending, hsame, hretired⟩ :=
    deferAll_spec hnodup hdead (h.sound.pending.mono h.covered.now)
  refine Sound.retireAll h.covered ⟨h.sound.owners, h.sound.logged, hpending⟩ ?_
  intro pid hmem i hi
  obtain ⟨j, hj, hdeath⟩ := hretired pid hmem
  have hij : some i = some j := hi.symm.trans ((hsame pid).trans hj)
  cases hij
  exact hdeath

/-- A tracked pid has a process; an untracked one has none. -/
theorem process_of_isTracked (h : isTracked table pid = true) :
    ∃ i, (stateOf table pid).process = some i := by
  unfold isTracked at h
  unfold stateOf
  split at h
  · rename_i state hlookup
    rw [hlookup, Option.getD_some]
    exact Option.isSome_iff_exists.mp h
  · cases h

theorem process_of_not_isTracked (h : ¬ isTracked table pid = true) :
    (stateOf table pid).process = none := by
  unfold isTracked at h
  unfold stateOf
  split at h
  · rename_i state hlookup
    rw [hlookup, Option.getD_some]
    exact Option.not_isSome_iff_eq_none.mp h
  · rename_i hlookup
    rw [hlookup]
    rfl

theorem PendingBy.reconcile (h : PendingBy death now table) {gone : List Pid}
    (hgone : ∀ pid ∈ gone, ∃ i, (stateOf table pid).process = some i ∧ death i < now)
    (recovered : List (Pid × I)) : PendingBy death now (reconcile gone recovered table) := by
  have hdeferred : PendingBy death now
      (gone.foldl (fun table pid => (deferRetirement table pid).1) table) := by
    induction gone generalizing table with
    | nil => exact h
    | cons pid gone ih =>
      obtain ⟨i, hi, hdead⟩ := hgone pid (.head _)
      obtain ⟨hpending, hprocess, -⟩ := deferRetirement_spec hi hdead h
      refine ih hpending fun pid' hmem => ?_
      rw [hprocess pid']
      exact hgone pid' (.tail _ hmem)
  unfold Retirement.reconcile
  dsimp only
  generalize gone.foldl (fun table pid => (deferRetirement table pid).1) table = deferred
    at hdeferred
  induction recovered generalizing deferred with
  | nil => exact hdeferred
  | cons child recovered ih =>
    rw [List.foldl_cons]
    refine ih _ ?_
    split
    · exact hdeferred
    · rename_i huntracked
      exact hdeferred.track (process_of_not_isTracked huntracked)

end StackPulse.RetirementSafety
