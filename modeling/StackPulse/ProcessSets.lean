import StackPulse.Recovery
import StackPulse.SampledThreads
import StackPulse.TailProcesses

/-!
The processes of a recording as its readers report them. Opening a spool reports
the processes of modules, threads, runtime records and retirements; the
incremental reader reports those of modules, samples, runtime records and
retirements. The writer puts a thread right in front of its first sample, so the
two differ only where the spool ends between the two.
-/
namespace StackPulse.ProcessSets

open Bytes Varint Model Decode Encode Records Scanning OpenSpool Safety Sessions WireRuns TailReader
  TailRefinement TailEquivalence TailProcesses SampledThreads

variable {V : IntegerEncoding} {results : List (Except Stop TailBatch)} {header : SpoolHeader}
  {ending : Ending Stop} {snapshot : OpenedSpool} {mmap : Mmap}

theorem mem_destutter' {a p : Pid} {l : List Pid} : p ∈ l.destutter' (· ≠ ·) a ↔ p = a ∨ p ∈ l := by
  induction l generalizing a with
  | nil => simp
  | cons b l ih =>
    by_cases hab : a = b
    · subst hab
      rw [List.destutter'_cons_neg (h := not_not.mpr rfl), ih, List.mem_cons]
      tauto
    · rw [List.destutter'_cons_pos (h := hab), List.mem_cons, ih, List.mem_cons]

theorem mem_destutter {p : Pid} (l : List Pid) : p ∈ l.destutter (· ≠ ·) ↔ p ∈ l := by
  cases l with
  | nil => rfl
  | cons a l => rw [List.destutter_cons', mem_destutter', List.mem_cons]

theorem mem_sortProcesses {p : Pid} {processes : List Pid} :
    p ∈ sortProcesses processes ↔ p ∈ processes :=
  (mem_destutter _).trans List.mem_mergeSort

variable {s t : ReaderState} {c d : Cursor} {entries : List SpoolEntry}

/-- Modules and threads come from their records. -/
theorem commit_defines {record : DecodedSpoolRecord} (h : s.commit record = .ok t) :
    (∀ m, m ∈ t.modules ↔ m ∈ s.modules ∨ record = .module m) ∧
      ∀ th, th ∈ t.threads ↔ th ∈ s.threads ∨ record = .thread th := by
  cases record with
  | deactivateProcess | deactivateModule =>
    obtain ⟨contexts, rfl⟩ := commit_deactivate h (by simp)
    simp
  | module module =>
    cases h
    simp [ReaderState.pushModule, eq_comm]
  | thread thread =>
    cases h
    simp [ReaderState.pushThread, eq_comm]
  | _ =>
    cases h
    simp [ReaderState.pushFrame, ReaderState.pushStack]

theorem run_defines (h : Run (spoolFormat V) s c entries t d) (hc : c.Valid) :
    (∀ m, m ∈ t.modules ↔ m ∈ s.modules ∨ ∃ e ∈ entries, e.record = .module m) ∧
      ∀ th, th ∈ t.threads ↔ th ∈ s.threads ∨ ∃ e ∈ entries, e.record = .thread th := by
  induction h with
  | nil s c => simp
  | @cons s s' t c c' d record entries hnext _ ih =>
    obtain ⟨hmodules, hthreads⟩ := commit_defines (next_accepts hc hnext).2
    obtain ⟨hmodules', hthreads'⟩ := ih (next_valid hc hnext)
    constructor
    · intro m
      rw [hmodules' m, hmodules m]
      simp [or_assoc]
    · intro th
      rw [hthreads' th, hthreads th]
      simp [or_assoc]

section

variable (h : Reading V mmap header c entries t d ending)

include h

/-- The processes of an opened spool. -/
theorem mem_processes (storage : SampleStorage) (rangeLimit : ℕ) (truncatedTail : Bool) (p : Pid) :
    p ∈ ((Reading.final storage rangeLimit entries).finish header mmap
        truncatedTail).definitions.processes ↔
      (∃ e ∈ entries, e.record.process? = some p) ∨ (∃ m ∈ t.modules, m.pid = some p) ∨
        ∃ th ∈ t.threads, th.processId = p := by
  have hstate := h.final_state storage rangeLimit
  unfold OpenState.finish
  simp only
  rw [mem_sortProcesses, hstate]
  unfold Reading.final
  rw [OpenState.processes_absorbAll]
  simp [OpenState.initial]

/-- They do not depend on what is kept of the samples. -/
theorem processes_storage (storage other : SampleStorage) (rangeLimit : ℕ) (truncatedTail : Bool) :
    ((Reading.final storage rangeLimit entries).finish header mmap
        truncatedTail).definitions.processes =
      ((Reading.final other rangeLimit entries).finish header mmap
        truncatedTail).definitions.processes := by
  have hstate := h.final_state storage rangeLimit
  have hother := h.final_state other rangeLimit
  unfold OpenState.finish
  simp only
  rw [hstate, hother]
  unfold Reading.final
  rw [OpenState.processes_absorbAll, OpenState.processes_absorbAll]
  rfl

/-- Beside the processes of threads, opening reports what the records name to the incremental
reader. -/
theorem named_or_thread (storage : SampleStorage) (rangeLimit : ℕ) (truncatedTail : Bool)
    (p : Pid) :
    p ∈ ((Reading.final storage rangeLimit entries).finish header mmap
        truncatedTail).definitions.processes ↔
      (∃ e ∈ entries, entryProcess e = some p) ∨ ∃ th ∈ t.threads, th.processId = p := by
  obtain ⟨-, hvalid⟩ := Reading.header_valid h.header
  obtain ⟨hmodules, -⟩ := run_defines h.scan.run hvalid
  rw [mem_processes h, ← or_assoc]
  constructor
  · rintro ((⟨e, he, hprocess⟩ | ⟨m, hm, hpid⟩) | hthread)
    · refine .inl ⟨e, he, ?_⟩
      unfold entryProcess
      rcases hrecord : e.record with _ | _ | _ | _ | _ | _ | _ | _ <;> rw [hrecord] at hprocess
      all_goals first | exact hprocess | cases hprocess
    · rcases (hmodules m).mp hm with hnone | ⟨e, he, hrecord⟩
      · exact absurd hnone List.not_mem_nil
      · refine .inl ⟨e, he, ?_⟩
        unfold entryProcess
        rw [hrecord]
        exact hpid
    · exact .inr hthread
  · rintro (⟨e, he, hnamed⟩ | hthread)
    · unfold entryProcess at hnamed
      rcases hrecord : e.record with m | _ | _ | _ | sample | runtime | pid | moduleId <;>
        rw [hrecord] at hnamed
      · exact .inl (.inr ⟨m, (hmodules m).mpr (.inr ⟨e, he, hrecord⟩), hnamed⟩)
      · cases hnamed
      · cases hnamed
      · cases hnamed
      · cases hnamed
        exact .inr ⟨_, (sample_run h.scan.run hvalid he hrecord).2, rfl⟩
      · refine .inl (.inl ⟨e, he, ?_⟩)
        rw [hrecord]
        exact hnamed
      · refine .inl (.inl ⟨e, he, ?_⟩)
        rw [hrecord]
        exact hnamed
      · obtain ⟨m, hm, hpid⟩ := Option.bind_eq_some_iff.mp hnamed
        obtain ⟨pre, post, rfl⟩ := List.append_of_mem he
        obtain ⟨s', c', c'', hpre, hnext, _, _, hpost⟩ := h.scan.run.at_entry
        have hgrows := grows_run hpost (next_valid (hpre.valid hvalid) hnext)
        exact .inl (.inr ⟨m, hgrows.modules.subset (List.mem_of_getElem? hm), hpid⟩)
    · exact .inr hthread

end

/-- The last record of the stream defines a thread of the process. -/
def EndsInThread (records : List SpoolRecord) (p : Pid) : Prop :=
  ∃ id threadId, records.getLast? = some (.thread id p.get threadId)

/-- The threads of a cut stream add the process of the thread it ends with. -/
theorem named_or_last (h : Reading V mmap header c entries t d ending)
    {records all : List SpoolRecord} (hreads : Reads .initial records (entries.map (·.record)) t)
    (hall : Paired all) (hcut : records <+: all) (p : Pid) :
    ((∃ e ∈ entries, entryProcess e = some p) ∨ ∃ th ∈ t.threads, th.processId = p) ↔
      (∃ e ∈ entries, entryProcess e = some p) ∨ EndsInThread records p := by
  obtain ⟨-, hvalid⟩ := Reading.header_valid h.header
  obtain ⟨-, hthreads⟩ := run_defines h.scan.run hvalid
  constructor
  · rintro (hnamed | ⟨thread, hthread, rfl⟩)
    · exact .inl hnamed
    · rcases (hthreads thread).mp hthread with hnone | ⟨e, he, hrecord⟩
      · exact absurd hnone List.not_mem_nil
      · have hvalue : .thread thread ∈ entries.map (·.record) := by
          rw [← hrecord]
          exact List.mem_map_of_mem he
        rcases sampled_or_last hreads hall hcut hvalue with ⟨sample, hmem, hsample⟩ | hlast
        · obtain ⟨e', he', hrecord'⟩ := List.mem_map.mp hmem
          refine .inl ⟨e', he', ?_⟩
          unfold entryProcess
          rw [hrecord', ← hsample]
          rfl
        · exact .inr hlast
  · rintro (hnamed | ⟨id, threadId, hlast⟩)
    · exact .inl hnamed
    · obtain ⟨thread, hmem, hpid⟩ := thread_of_record hreads (List.mem_of_getLast? hlast)
      obtain ⟨e, he, hrecord⟩ := List.mem_map.mp hmem
      refine .inr ⟨thread, (hthreads thread).mpr (.inr ⟨e, he, hrecord⟩), ?_⟩
      rcases hpids : thread.processId with ⟨raw, hpos⟩
      rw [hpids] at hpid
      cases hpid
      rfl

variable {B : Mmap} {n : ℕ} {tail : Tail}

/-- A batch that announces another one has read a record. -/
theorem poll_progress (h : Follows V B n tail entries)
    (hpending : tail.initialSamplesPending = false) {batch : TailBatch}
    (hpoll : (poll V (B.take n) tail).1 = .ok batch) (hmore : batch.hasMore = true) :
    tail.position < (poll V (B.take n) tail).2.position := by
  have hclear : Follows V B n tail.clearBatch entries := ⟨h.unbounded, h.mapped, h.run⟩
  obtain ⟨group, hparsed, -⟩ := parse_follows hclear.remap (by show 0 < MAX_BATCH_SAMPLES; decide)
  unfold poll at hpoll ⊢
  rw [hpending] at hpoll ⊢
  simp only [Bool.false_eq_true, if_false, hclear.remapIfGrown_eq] at hpoll ⊢
  rcases hresult : parseAvailable V { tail.clearBatch with mmap := B.take n } with
    ⟨e | more, parsed⟩
  · rw [hresult] at hpoll
    cases hpoll
  · rw [hresult] at hpoll hparsed
    cases hpoll
    have htrue : more = true := hmore
    subst htrue
    have hne : group ≠ [] := by
      generalize hok : (Except.ok true : Except Stop Bool) = result at hparsed
      rcases hparsed.outcome with ⟨hne, -, -⟩ | _ | _
      · exact hne
      · cases hok
      · cases hok
    have hadvance := hparsed.run.length_le hclear.remap.valid
    have hlength := List.length_pos_of_ne_nil hne
    show tail.position < parsed.position
    have hstart : tail.position + group.length ≤ parsed.position := hadvance
    omega

theorem poll_live_session (hsession : Session V B n tail results)
    (hopen : openSpool V .retain (B.take n) = .ok snapshot) :
    (∃ batches : List TailBatch, results = batches.map .ok) ∧
      ∃ batch, (poll V (B.take n) tail).1 = .ok batch ∧
        (poll V (B.take n) tail).2.initialSamplesPending = false ∧
        (poll V (B.take n) tail).2.position ≤ (B.take n).len := by
  have hcondition := condition_of_session hsession
  obtain ⟨hok, batch, hbatch⟩ := polls_of_ok hcondition hopen
  refine ⟨hok, batch, hbatch, ?_⟩
  rcases hcondition with ⟨hfollows, hpending, _, _⟩ | ⟨hfollows, hpending, _⟩ |
    ⟨hfollows, hpending, _, _, _⟩
  · rw [poll_pending hfollows hpending]
    exact ⟨rfl, hfollows.remap.valid⟩
  all_goals
    obtain ⟨group, -, hfollows', hmmap, hpending', -⟩ := poll_live hfollows hpending
    have hvalid : (poll V (B.take n) tail).2.position ≤ (poll V (B.take n) tail).2.mmap.len :=
      hfollows'.valid
    rw [hmmap] at hvalid
    exact ⟨hpending', hvalid⟩

theorem follows_of_session (h : Session V B n tail results) :
    ∃ entries, Follows V B n tail entries := by
  rcases condition_of_session h with ⟨hfollows, _⟩ | ⟨hfollows, _⟩ | ⟨hfollows, _⟩ <;>
    exact ⟨_, hfollows⟩

/-- Polling an accepted file comes to an end: each batch that announces another one moves on. -/
theorem exhausts_live (hsession : Session V B n tail results)
    (hpending : tail.initialSamplesPending = false)
    (hopen : openSpool V .retain (B.take n) = .ok snapshot) :
    ∃ k batch, (poll V (B.take n) (pollTimes V (B.take n) k tail)).1 = .ok batch ∧
      batch.hasMore = false := by
  induction hk : (B.take n).len - tail.position using Nat.strong_induction_on
    generalizing tail results with
  | _ k ih =>
    obtain ⟨-, batch, hbatch, hpending', hbound⟩ := poll_live_session hsession hopen
    rcases hmore : batch.hasMore with _ | _
    · exact ⟨0, batch, hbatch, hmore⟩
    · obtain ⟨entries, hfollows⟩ := follows_of_session hsession
      have hprogress := poll_progress hfollows hpending hbatch hmore
      obtain ⟨k', last, hlast⟩ := ih _ (by omega) hsession.poll hpending' rfl
      exact ⟨k' + 1, last, hlast⟩

theorem exhausts (hsession : Session V B n tail results)
    (hopen : openSpool V .retain (B.take n) = .ok snapshot) :
    ∃ k batch, (poll V (B.take n) (pollTimes V (B.take n) k tail)).1 = .ok batch ∧
      batch.hasMore = false := by
  obtain ⟨-, -, -, hpending, -⟩ := poll_live_session hsession hopen
  obtain ⟨k, batch, hbatch⟩ := exhausts_live hsession.poll hpending hopen
  exact ⟨k + 1, batch, hbatch⟩

/-- The batches up to one that announces no other report what the records name. -/
theorem reports_of_exhausted {tail' : Tail} {batches : List TailBatch} {batch : TailBatch}
    (h : Reading V (B.take n) header c entries t d ending) (hsession : Session V B n tail results)
    (hok : results = batches.map .ok) (hpoll : poll V (B.take n) tail = (.ok batch, tail'))
    (hmore : batch.hasMore = false) (p : Pid) :
    Reports (batches ++ [batch]) p ↔ ∃ e ∈ entries, entryProcess e = some p := by
  obtain ⟨⟨ending', hhalts, -⟩, hmmap⟩ :=
    drained_of_poll (condition_of_session hsession) hpoll hmore
  have hall : results ++ [(poll V (B.take n) tail).1] = (batches ++ [batch]).map .ok := by
    rw [hpoll, hok, List.map_append]
    rfl
  obtain ⟨seen, htally⟩ := tally_of_session hsession.poll hall
  rw [hpoll] at htally
  obtain ⟨c', hreading⟩ := htally.follows.scan_of_halts hmmap hhalts
  have hsame := h.header.symm.trans hreading.header
  cases hsame
  obtain ⟨rfl, -, -⟩ := h.scan.unique (Reading.header_valid h.header).2 hreading.scan
  have hpending : tail'.initialSamplesPending = false := by
    rcases condition_of_session hsession with ⟨hfollows, hpending, _, _⟩ |
      ⟨hfollows, hpending, _⟩ | ⟨hfollows, hpending, _, _, _⟩
    · rw [poll_pending hfollows hpending] at hpoll
      cases hpoll
      rfl
    all_goals
      obtain ⟨_, _, _, _, hpending', _⟩ := poll_live hfollows hpending
      rw [hpoll] at hpending'
      exact hpending'
  rw [← htally.reports p, hpending]
  simp

/-- Cut behind any record, an accepted stream of the writer has the same processes for
`Snapshot` and `Replay`, and for `Tail` once it is polled to the end, except that a thread
definition at the very end is only counted by the first two. -/
theorem tail_processes_eq_snapshot (V : IntegerEncoding) (header : SpoolHeader) (ops : List Op)
    (k : ℕ) (B : Mmap) (n : ℕ)
    (hcut : (B.take n).bytes = file V header ((planOps ops .empty).1.take k))
    (snapshot : OpenedSpool) (hopen : openSpool V .retain (B.take n) = .ok snapshot) :
    (∃ replay, openSpool V .replay (B.take n) = .ok replay ∧
      replay.definitions.processes = snapshot.definitions.processes) ∧
    (∃ tail, openTail V (B.take n) = .ok tail) ∧
    ∀ tail results, Session V B n tail results →
      (∃ j batch, (poll V (B.take n) (pollTimes V (B.take n) j tail)).1 = .ok batch ∧
        batch.hasMore = false) ∧
      ∀ batch tail', poll V (B.take n) tail = (.ok batch, tail') → batch.hasMore = false →
        ∃ batches : List TailBatch, results = batches.map .ok ∧
          ∀ p, p ∈ snapshot.definitions.processes ↔
            Reports (batches ++ [batch]) p ∨ EndsInThread ((planOps ops .empty).1.take k) p := by
  obtain ⟨values, t, hreads⟩ := reads_of_open hcut hopen
  obtain ⟨entries, d, hreading, hvalues, -⟩ := reading_of_reads hcut hreads
  have hsnapshot := hreading.open_eq_ok .retain MAX_REPLAY_SAMPLE_RANGES rfl
  have hreplay := hreading.open_eq_ok .replay MAX_REPLAY_SAMPLE_RANGES rfl
  have hsame := Except.ok.inj (hopen.symm.trans hsnapshot)
  refine ⟨⟨_, hreplay, ?_⟩, opens_of_ok hopen, ?_⟩
  · rw [hsame]
    exact processes_storage hreading .replay .retain MAX_REPLAY_SAMPLE_RANGES false
  intro tail results hsession
  refine ⟨exhausts hsession hopen, fun batch tail' hpoll hmore => ?_⟩
  obtain ⟨⟨batches, hok⟩, -⟩ := poll_live_session hsession hopen
  refine ⟨batches, hok, fun p => ?_⟩
  rw [hsame, reports_of_exhausted hreading hsession hok hpoll hmore]
  rw [← hvalues] at hreads
  have hpaired := planOps_paired ops .empty
  exact (named_or_thread hreading _ _ _ p).trans
    (named_or_last hreading hreads hpaired (List.take_prefix k _) p)

/-- The process of the sample in the file of two records. -/
def samplePid : Pid := ⟨1, Pid.one_pos⟩

/-- Behind the sample of the file, all three readers report its process. -/
theorem tail_processes_eq_snapshot_sample : ∃ snapshot tail batch tail',
    openSpool Varint.standard .retain (Recovery.twoRecordFile.take 31) = .ok snapshot ∧
      openTail Varint.standard (Recovery.twoRecordFile.take 31) = .ok tail ∧
      poll Varint.standard (Recovery.twoRecordFile.take 31) tail = (.ok batch, tail') ∧
      samplePid ∈ snapshot.definitions.processes ∧ samplePid ∈ batch.processes := by
  have hbytes : (Recovery.twoRecordFile.take 31).bytes =
      file Varint.standard ⟨0, 0, none⟩ ((planOps Recovery.twoRecordOps .empty).1.take 4) := by
    decide +kernel
  have hlast : ((planOps Recovery.twoRecordOps .empty).1.take 4).getLast? =
      some (.sample 7 0 0) := by
    decide +kernel
  have hprocesses : (openSpool Varint.standard .retain
      (Recovery.twoRecordFile.take 31)).toOption.map (·.definitions.processes) =
        some [samplePid] := by
    decide +kernel
  have hmore : ((openTail Varint.standard (Recovery.twoRecordFile.take 31)).toOption.bind
      fun tail => (poll Varint.standard (Recovery.twoRecordFile.take 31) tail).1.toOption.map
        (·.hasMore)) = some false := by
    decide +kernel
  rcases hopen : openSpool Varint.standard .retain (Recovery.twoRecordFile.take 31) with
    e | snapshot
  · rw [hopen] at hprocesses
    cases hprocesses
  rw [hopen] at hprocesses
  have hmem : samplePid ∈ snapshot.definitions.processes := by
    have hsingle : snapshot.definitions.processes = [samplePid] := Option.some.inj hprocesses
    rw [hsingle]
    exact List.mem_singleton_self _
  obtain ⟨-, ⟨tail, htail⟩, hsessions⟩ := tail_processes_eq_snapshot Varint.standard ⟨0, 0, none⟩
    Recovery.twoRecordOps 4 Recovery.twoRecordFile 31 hbytes snapshot hopen
  rw [htail] at hmore
  rcases hpoll : poll Varint.standard (Recovery.twoRecordFile.take 31) tail with
    ⟨e | batch, tail'⟩
  · rw [Except.toOption, Option.bind_some, hpoll] at hmore
    cases hmore
  rw [Except.toOption, Option.bind_some, hpoll] at hmore
  obtain ⟨batches, hok, hreports⟩ :=
    (hsessions tail [] (.start htail)).2 batch tail' hpoll (Option.some.inj hmore)
  have hnil : batches = [] := List.map_eq_nil_iff.mp hok.symm
  subst hnil
  refine ⟨snapshot, tail, batch, tail', rfl, htail, hpoll, hmem, ?_⟩
  rcases (hreports samplePid).mp hmem with ⟨found, hfound, hreported⟩ | ⟨id, threadId, hthread⟩
  · cases List.mem_singleton.mp hfound
    exact hreported
  · rw [hlast] at hthread
    cases hthread

/-- Between the thread and its sample, only `Snapshot` reports the process. -/
theorem thread_without_sample :
    (Recovery.twoRecordFile.take 27).bytes =
        file Varint.standard ⟨0, 0, none⟩ ((planOps Recovery.twoRecordOps .empty).1.take 3) ∧
      (openSpool Varint.standard .retain (Recovery.twoRecordFile.take 27)).toOption.map
        (·.definitions.processes) = some [samplePid] ∧
      ((openTail Varint.standard (Recovery.twoRecordFile.take 27)).toOption.bind fun tail =>
        (poll Varint.standard (Recovery.twoRecordFile.take 27) tail).1.toOption.map fun batch =>
          (batch.hasMore, batch.processes)) = some (false, []) := by
  refine ⟨?_, ?_, ?_⟩ <;> decide +kernel

end StackPulse.ProcessSets
