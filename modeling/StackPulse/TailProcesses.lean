import StackPulse.TailEquivalence

/-!
The processes an incremental reader reports. Committing a record notes the
process it names, every pass notes the processes of the records it commits, and
the batches of a session together name the processes of all records committed
since the reader was opened.
-/
namespace StackPulse.TailProcesses

open Attempts (bind_ok)
open Bytes Varint Model Records Scanning OpenSpool Safety TailReader TailBatches TailRefinement

variable {V : IntegerEncoding}

/-- The set and the list of noted processes agree. -/
def Tallied (tail : Tail) : Prop := ∀ p, p ∈ tail.observedProcessSet ↔ p ∈ tail.observedProcesses

/-- `tail'` has noted these processes beside those of `tail`. -/
structure Notes (tail tail' : Tail) (named : Option Pid) : Prop where
  tallied : Tallied tail'
  noted : ∀ p, p ∈ tail'.observedProcesses ↔ p ∈ tail.observedProcesses ∨ named = some p

theorem observeProcess_notes (tail : Tail) (h : Tallied tail) (process : Pid) :
    Notes tail (tail.observeProcess process) (some process) := by
  unfold Tail.observeProcess
  by_cases hnew : tail.observedProcesses.getLast? ≠ some process ∧
      process ∉ tail.observedProcessSet
  · rw [if_pos hnew]
    refine ⟨?_, ?_⟩
    · intro p
      rw [Finset.mem_insert, List.mem_append, List.mem_singleton, h p]
      exact or_comm
    · intro p
      rw [List.mem_append, List.mem_singleton, Option.some.injEq]
      exact or_congr_right eq_comm
  · rw [if_neg hnew]
    have hmem : process ∈ tail.observedProcesses := by
      by_cases hlast : tail.observedProcesses.getLast? = some process
      · exact List.mem_of_getLast? hlast
      · by_contra hnot
        exact hnew ⟨hlast, fun hset => hnot ((h process).mp hset)⟩
    refine ⟨h, ?_⟩
    intro p
    constructor
    · exact Or.inl
    · rintro (hp | hp)
      · exact hp
      · cases hp
        exact hmem

theorem observeOption_notes (tail : Tail) (h : Tallied tail) (process : Option Pid) :
    Notes tail (tail.observeOption process) process := by
  rcases process with _ | process
  · refine ⟨h, fun p => ?_⟩
    simp [Tail.observeOption]
  · exact observeProcess_notes tail h process

/-- The process that a committed record names to the incremental reader; `after` is the state
behind the record. Definitions of threads name none. -/
def recordProcess (after : ReaderState) : DecodedSpoolRecord → Option Pid
  | .module module => module.pid
  | .sample sample => some sample.processId
  | .pythonRuntime record => some record.processId
  | .deactivateProcess processId => some processId
  | .deactivateModule moduleId => after.modules[moduleId]?.bind ModuleRecord.pid
  | _ => none

def entryProcess (entry : SpoolEntry) : Option Pid := recordProcess entry.after entry.record

theorem changeOf_process {tail : Tail} {record : DecodedSpoolRecord} {change : Change}
    (h : changeOf tail record = .ok change) :
    recordProcess change.state record = change.process := by
  rcases record with module | frame | node | thread | sample | runtime | processId | moduleId
  iterate 6
    · cases h
      rfl
  · unfold changeOf at h
    obtain ⟨deactivated, -, h⟩ := bind_ok.mp h
    obtain ⟨retired, -, h⟩ := bind_ok.mp h
    cases h
    rfl
  · unfold changeOf at h
    obtain ⟨module, hmodule, h⟩ := bind_ok.mp h
    obtain ⟨state, hdeactivate, h⟩ := bind_ok.mp h
    cases h
    have hcommit : tail.toReaderState.commit (.deactivateModule moduleId) = .ok state := hdeactivate
    obtain ⟨contexts, rfl⟩ := commit_deactivate hcommit (Or.inr ⟨moduleId, rfl⟩)
    have hget : tail.modules[moduleId]? = some module := by
      unfold Tail.moduleAt at hmodule
      split at hmodule
      · next heq =>
        cases hmodule
        exact heq
      · cases hmodule
    unfold recordProcess
    simp only [hget, Option.bind_some]

theorem commitRecord_notes {tail tail' : Tail} {record : DecodedSpoolRecord} (h : Tallied tail)
    (hcommit : tail.commitRecord record = .ok tail') :
    Notes tail tail' (recordProcess tail'.toReaderState record) := by
  rw [commitRecord_eq_change] at hcommit
  rcases hchange : changeOf tail record with e | change
  · rw [hchange] at hcommit
    cases hcommit
  · rw [hchange] at hcommit
    cases hcommit
    rw [(applyChange_advances tail change).1, changeOf_process hchange]
    have hnotes := observeOption_notes { tail with
      toReaderState := change.state
      retiredModules := tail.retiredModules ++ change.retired
      kernelMappingsChanged := tail.kernelMappingsChanged || change.kernel } h change.process
    exact ⟨hnotes.tallied, hnotes.noted⟩

/-- The processes noted along a run of records. -/
structure NotesAll (tail tail' : Tail) (entries : List SpoolEntry) : Prop where
  tallied : Tallied tail'
  noted : ∀ p, p ∈ tail'.observedProcesses ↔
    p ∈ tail.observedProcesses ∨ ∃ entry ∈ entries, entryProcess entry = some p

/-- A pass notes the processes of the records that it commits. -/
theorem parseLoop_notes (fuel : ℕ) {tail : Tail} (hc : tail.cursor.Valid)
    (hs : Tracked tail.toReaderState tail.cursor) (h : Tallied tail)
    (hsamples : tail.samples.length < MAX_BATCH_SAMPLES) :
    ∃ entries, Run (spoolFormat V) tail.toReaderState tail.cursor entries
        (parseLoop V fuel tail).2.toReaderState (parseLoop V fuel tail).2.cursor ∧
      NotesAll tail (parseLoop V fuel tail).2 entries := by
  induction fuel generalizing tail with
  | zero => exact ⟨[], .nil _ _, h, fun p => by simp [parseLoop]⟩
  | succ fuel ih =>
    rcases next_or_halts (F := spoolFormat V) (s := tail.toReaderState) hc with
      ⟨record, t, c', hnext⟩ | ⟨ending, hhalts⟩
    · obtain ⟨next, hone⟩ := parsedOne_of_next hc hs hnext
      obtain ⟨committed, hrecord, hcommitted⟩ := hone.commit
      have hnotes := commitRecord_notes h hrecord
      have hfirst : NotesAll tail next [⟨tail.position, next.position, record, t⟩] := by
        rw [hcommitted]
        have hstate : committed.toReaderState = t :=
          (congrArg Tail.toReaderState hcommitted).symm.trans hone.state
        refine ⟨hnotes.tallied, fun p => ?_⟩
        rw [hstate] at hnotes
        simpa [entryProcess] using hnotes.noted p
      rw [hone.loop]
      by_cases hstop : next.samples.length = MAX_BATCH_SAMPLES ∨ endsBatch record = true
      · rw [if_pos hstop]
        exact ⟨_, hone.run, hfirst⟩
      · rw [if_neg hstop]
        obtain ⟨entries, hmore, hrest⟩ := ih hone.valid (tracked_run hone.run hc hs) hfirst.tallied
          (hone.short hsamples (not_or.mp hstop).1)
        refine ⟨_, hone.run.append hmore, hrest.tallied, fun p => ?_⟩
        rw [hrest.noted p, hfirst.noted p, or_assoc]
        simp only [List.mem_append, List.mem_singleton, or_and_right, exists_or, exists_eq_left]
    · obtain ⟨hstay, -⟩ := parseLoop_halts hc hs hsamples hhalts fuel
      rw [hstay]
      exact ⟨[], .nil _ _, h, fun p => by simp⟩

variable {B : Mmap} {n : ℕ} {tail : Tail} {entries : List SpoolEntry}

theorem parse_notes (h : Follows V B n tail entries)
    (hsamples : tail.samples.length < MAX_BATCH_SAMPLES) (htallied : Tallied tail) :
    ∃ group, Follows V B n (parseAvailable V tail).2 (entries ++ group) ∧
      NotesAll tail (parseAvailable V tail).2 group := by
  obtain ⟨_, hparsed, hfollows⟩ := parse_follows h hsamples
  obtain ⟨group, hrun, hnotes⟩ := parseLoop_notes (V := V) (tail.mmap.len + 1) h.valid
    h.tracked htallied hsamples
  obtain ⟨c, hheader, hbefore⟩ := h.run
  refine ⟨group, ⟨hfollows.unbounded, hfollows.mapped, c, ?_, hbefore.append hrun⟩, hnotes⟩
  rw [hparsed.advances.mmap, hparsed.advances.header]
  exact hheader

/-- The processes of some batches. -/
def Reports (batches : List TailBatch) (p : Pid) : Prop := ∃ batch ∈ batches, p ∈ batch.processes

/-- The batches so far, and the first one while it waits, report the processes of all
committed records. -/
structure Tally (V : IntegerEncoding) (B : Mmap) (n : ℕ) (tail : Tail) (batches : List TailBatch)
    (entries : List SpoolEntry) : Prop where
  follows : Follows V B n tail entries
  tallied : Tallied tail
  reports : ∀ p, (Reports batches p ∨
      (tail.initialSamplesPending = true ∧ p ∈ tail.observedProcesses)) ↔
    ∃ entry ∈ entries, entryProcess entry = some p

theorem tallied_clearBatch (tail : Tail) : Tallied { tail.clearBatch with mmap := B.take n } := by
  intro p
  simp [Tail.clearBatch]

theorem reports_append (batches : List TailBatch) (batch : TailBatch) (p : Pid) :
    Reports (batches ++ [batch]) p ↔ Reports batches p ∨ p ∈ batch.processes := by
  simp [Reports, or_and_right, exists_or]

theorem tally_start (h : openTail V (B.take n) = .ok tail) :
    ∃ entries, Tally V B n tail [] entries := by
  obtain ⟨header, c, hheader⟩ := header_of_open h
  have htallied : Tallied (.start (B.take n) none header c.position) := fun p => by
    simp [Tail.start]
  obtain ⟨group, hfollows, hnotes⟩ :=
    parse_notes (follows_start hheader) (by show 0 < MAX_BATCH_SAMPLES; decide) htallied
  obtain ⟨_, hparsed, -⟩ :=
    parse_follows (follows_start hheader) (by show 0 < MAX_BATCH_SAMPLES; decide)
  unfold openTail fromFileBounded at h
  simp only [hheader] at h
  rcases hresult : parseAvailable V (.start (B.take n) none header c.position) with
    ⟨e | more, parsed⟩
  · rw [hresult] at h
    cases h
  · rw [hresult] at h hfollows hnotes hparsed
    cases h
    refine ⟨group, ⟨hfollows.unbounded, hfollows.mapped, hfollows.run⟩, hnotes.tallied, ?_⟩
    intro p
    have hpending : parsed.initialSamplesPending = true := hparsed.advances.pending
    have hnoted := hnotes.noted p
    simp only [Tail.start, List.not_mem_nil, false_or] at hnoted
    simp only [hpending, Reports, List.not_mem_nil, false_and, exists_false, false_or, true_and]
    exact hnoted

theorem Tally.poll {batches : List TailBatch} (h : Tally V B n tail batches entries)
    {batch : TailBatch} (hpoll : (poll V (B.take n) tail).1 = .ok batch) :
    ∃ entries, Tally V B n (TailReader.poll V (B.take n) tail).2 (batches ++ [batch]) entries := by
  rcases hpending : tail.initialSamplesPending with _ | _
  · have hclear : Follows V B n tail.clearBatch entries :=
      ⟨h.follows.unbounded, h.follows.mapped, h.follows.run⟩
    obtain ⟨group, hfollows, hnotes⟩ := parse_notes hclear.remap
      (by show 0 < MAX_BATCH_SAMPLES; decide) (tallied_clearBatch tail)
    obtain ⟨_, _, _, _, hpending', _⟩ := poll_live h.follows hpending
    unfold TailReader.poll at hpoll hpending' ⊢
    rw [hpending] at hpoll hpending' ⊢
    simp only [Bool.false_eq_true, if_false, hclear.remapIfGrown_eq] at hpoll hpending' ⊢
    rcases hresult : parseAvailable V { tail.clearBatch with mmap := B.take n } with
      ⟨e | more, parsed⟩
    · rw [hresult] at hpoll
      cases hpoll
    · rw [hresult] at hpoll hfollows hnotes hpending'
      cases hpoll
      refine ⟨entries ++ group, ⟨hfollows.unbounded, hfollows.mapped, hfollows.run⟩,
        hnotes.tallied, ?_⟩
      intro p
      have hlive : parsed.initialSamplesPending = false := hpending'
      have hbefore := h.reports p
      have hnoted := hnotes.noted p
      simp only [hpending, Bool.false_eq_true, false_and, or_false] at hbefore
      simp only [Tail.clearBatch, List.not_mem_nil, false_or] at hnoted
      simp only [hlive, Bool.false_eq_true, false_and, or_false, List.mem_append,
        or_and_right, exists_or]
      rw [reports_append, hbefore, ← hnoted]
      rfl
  · rw [poll_pending h.follows hpending] at hpoll ⊢
    cases hpoll
    have hremap := h.follows.remap
    refine ⟨entries, ⟨hremap.unbounded, hremap.mapped, hremap.run⟩, h.tallied, ?_⟩
    intro p
    rw [reports_append, ← h.reports p, hpending]
    simp [TailBatch.processes, Tail.batch]

/-- While every poll returns a batch, the batches report the processes of the records. -/
theorem tally_of_session {results : List (Except Stop TailBatch)}
    (h : Session V B n tail results) {batches : List TailBatch}
    (hok : results = batches.map .ok) : ∃ entries, Tally V B n tail batches entries := by
  induction h generalizing batches with
  | start hopen =>
    cases batches with
    | nil => exact tally_start hopen
    | cons batch batches => cases hok
  | reveal _ hle ih =>
    obtain ⟨entries, htally⟩ := ih hok
    exact ⟨entries, htally.follows.mono hle, htally.tallied, htally.reports⟩
  | @poll n tail results hsession ih =>
    obtain ⟨before, last, rfl, hbefore, hlast⟩ := List.map_eq_append_iff.mp hok.symm
    obtain ⟨batch, rfl, hbatch⟩ := List.map_eq_singleton_iff.mp hlast
    obtain ⟨entries, htally⟩ := ih hbefore.symm
    exact htally.poll hbatch.symm

end StackPulse.TailProcesses
