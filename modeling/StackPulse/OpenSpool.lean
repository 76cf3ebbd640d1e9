import StackPulse.Records
import Mathlib.Data.List.Destutter

/-!
The eager reader. One loop decodes every record in place, keeps the samples or
an index of where they stand, and stops at the end of the file, at a record cut
short by a crash, or at corruption. The loop is compared with the scan of the
file: what it returns is a function of the records of that scan.
-/
namespace StackPulse.OpenSpool

open Bytes Bytes.ByteReader Varint Model SpoolCursor FrameContexts Decode ReaderFacts Records
  Scanning

variable {c : Cursor} {s : ReaderState}

def MAX_REPLAY_SAMPLE_RANGES : ℕ := 512 * 1024

inductive SampleStorage
  | retain
  | replay
  deriving DecidableEq

structure ReplayRecordState where
  moduleCount : ℕ
  frameCount : ℕ
  stackCount : ℕ
  threadCount : ℕ
  deriving DecidableEq

structure ReplayScanStart where
  position : ℕ
  state : ReplayRecordState
  deriving DecidableEq

/-- The bytes of a group of sample records. -/
structure SampleRange where
  start : ℕ
  stop : ℕ
  deriving DecidableEq

/-- What the loop accumulates. -/
structure OpenState extends ReaderState where
  samples : List SampleRecord
  processes : List Pid
  sampleCount : ℕ
  sampleRanges : Option (List SampleRange)
  scanStart : Option ReplayScanStart

/-- The counters with which a later scan resumes. -/
def recordCounts (s : ReaderState) : ReplayRecordState where
  moduleCount := s.modules.length
  frameCount := s.frames.length
  stackCount := s.stackNodes.length
  threadCount := s.threads.length

namespace OpenState

def initial (storage : SampleStorage) : OpenState where
  toReaderState := .initial
  samples := []
  processes := []
  sampleCount := 0
  sampleRanges := if storage = .replay then some [] else none
  scanStart := none

/-- Count a sample, and keep it where samples are retained. -/
def addSample (storage : SampleStorage) (st : OpenState) (sample : SampleRecord) :
    Except Stop OpenState :=
  if st.sampleCount + 1 < 2 ^ 64 then
    .ok { st with
      lastTimestampNs := sample.timestampNs
      sampleCount := st.sampleCount + 1
      samples := if storage = .retain then st.samples ++ [sample] else st.samples }
  else .error (invalidData "sample count exceeds address space")

/-- Index the sample record between two positions: it extends the last range,
opens a new one, or, with all ranges used up, starts the scanned part. -/
def indexSample (rangeLimit recordStart position : ℕ) (st : OpenState) : OpenState :=
  match st.scanStart, st.sampleRanges with
  | none, some ranges =>
      match ranges.getLast?.filter fun range => range.stop = recordStart with
      | some range =>
          { st with sampleRanges := some (ranges.dropLast ++ [⟨range.start, position⟩]) }
      | none =>
          if ranges.length < rangeLimit then
            { st with sampleRanges := some (ranges ++ [⟨recordStart, position⟩]) }
          else { st with scanStart := some ⟨recordStart, recordCounts st.toReaderState⟩ }
  | _, _ => st

end OpenState

/-- Locate a decode error in the file; its kind stays. -/
def recordError (e : Stop) (tag : UInt8) (recordStart : ℕ) : Stop :=
  match e with
  | .io error => .io (.new error.kind
      s!"{error.message} (record tag {tag} at byte offset {recordStart})")
  | other => other

variable (V : IntegerEncoding)

/-- Read the record behind a tag into the accumulated state. -/
def parseRecord (storage : SampleStorage) (tag : UInt8) (st : OpenState) : Reader OpenState :=
  if tag = REC_MODULE ∨ tag = REC_JIT_MODULE then do
    let module ← readModuleRecord V st.modules.length tag
    return { st with toReaderState := st.pushModule module }
  else if tag = REC_FRAME then do
    let frame ← readFrame V st.modules st.frames.length
    return { st with toReaderState := st.pushFrame frame }
  else if tag = REC_STACK then do
    let node ← readStackNode V st.stackNodes st.frames.length
    return { st with toReaderState := st.pushStack node }
  else if tag = REC_THREAD then do
    let thread ← readThread V st.threads.length
    return { st with toReaderState := st.pushThread thread }
  else if tag = REC_SAMPLE then do
    let sample ← readSample V st.threads st.stackNodes.length st.lastTimestampNs
    ofExcept (st.addSample storage sample)
  else if tag = REC_PYTHON_RUNTIME then do
    let record ← readPythonRuntime V
    return { st with processes := st.processes ++ [record.processId] }
  else if tag = REC_MODULE_DEACTIVATE then do
    let processId ← readPid V
    let state ← ofExcept ((·.2) <$> st.toReaderState.deactivateProcess processId)
    return { st with toReaderState := state, processes := st.processes ++ [processId] }
  else if tag = REC_MODULE_DEACTIVATE_ONE then do
    let moduleId ← readIndexWithin V st.modules.length "module deactivation"
    let state ← ofExcept (st.toReaderState.deactivateModule moduleId)
    return { st with toReaderState := state }
  else fail (invalidData s!"unknown spool record tag {tag}")

/-- The record loop. The flag reports a record cut short at the end of the file;
`pending` marks a loop stopped before it was done. -/
def openLoop (storage : SampleStorage) (rangeLimit : ℕ) :
    ℕ → OpenState → Cursor → Except Stop (OpenState × Bool)
  | 0, _, _ => .error .pending
  | fuel + 1, st, c =>
      match readTag c with
      | (.error e, _) => .error e
      | (.ok none, _) => .ok (st, false)
      | (.ok (some tag), d) =>
          match parseRecord V storage tag st d with
          | (.error e, d') =>
              if e.isEof && atEof d' then .ok (st, true)
              else .error (recordError e tag c.position)
          | (.ok st', d') =>
              openLoop storage rangeLimit fuel
                (if tag = REC_SAMPLE then st'.indexSample rangeLimit c.position d'.position
                  else st') d'

structure SpoolDefinitions where
  clockOrigin : Option ClockOrigin
  processes : List Pid
  startTimestampUs : UInt64
  sampleIntervalNs : UInt64
  modules : List ModuleRecord
  frames : List FrameRecord
  frameContexts : SpoolFrameModuleContexts
  stackNodes : List StackNodeRecord
  truncatedTail : Bool

structure OpenedSpool where
  definitions : SpoolDefinitions
  samples : List SampleRecord
  threads : List ThreadRecord
  mmap : Mmap
  sampleRanges : List SampleRange
  scanStart : Option ReplayScanStart
  sampleCount : ℕ

/-- Sorted, without repetitions. -/
def sortProcesses (processes : List Pid) : List Pid :=
  (processes.mergeSort fun p q => p.get ≤ q.get).destutter (· ≠ ·)

def OpenState.finish (st : OpenState) (header : SpoolHeader) (mmap : Mmap)
    (truncatedTail : Bool) : OpenedSpool where
  definitions :=
    { clockOrigin := header.clockOrigin
      processes := sortProcesses (st.processes ++
        (st.modules.filterMap ModuleRecord.pid ++ st.threads.map ThreadRecord.processId))
      startTimestampUs := header.startTimestampUs
      sampleIntervalNs := header.sampleIntervalNs
      modules := st.modules
      frames := st.frames
      frameContexts := st.frameContexts
      stackNodes := st.stackNodes
      truncatedTail := truncatedTail }
  samples := st.samples
  threads := st.threads
  mmap := mmap
  sampleRanges := st.sampleRanges.getD []
  scanStart := st.scanStart
  sampleCount := st.sampleCount

/-- Every record takes at least one byte, so the loop needs no more rounds than
there are bytes, and one to see the end. -/
def openSpoolWithRangeLimit (storage : SampleStorage) (rangeLimit : ℕ) (mmap : Mmap) :
    Except Stop OpenedSpool :=
  match readHeader V ⟨mmap, 0⟩ with
  | (.error e, _) => .error e
  | (.ok header, c) =>
      match openLoop V storage rangeLimit (mmap.len + 1) (.initial storage) c with
      | .error e => .error e
      | .ok (st, truncatedTail) => .ok (st.finish header mmap truncatedTail)

def openSpool (storage : SampleStorage) (mmap : Mmap) : Except Stop OpenedSpool :=
  openSpoolWithRangeLimit V storage MAX_REPLAY_SAMPLE_RANGES mmap

abbrev SpoolEntry := Entry ReaderState DecodedSpoolRecord

namespace OpenState

/-- The accumulated state after a committed record. -/
def absorbRecord (storage : SampleStorage) (st : OpenState) (record : DecodedSpoolRecord)
    (after : ReaderState) : OpenState :=
  { st with
    toReaderState := after
    samples := if storage = .retain then st.samples ++ record.sample?.toList else st.samples
    processes := st.processes ++ record.process?.toList
    sampleCount := st.sampleCount + record.sample?.toList.length }

def absorb (storage : SampleStorage) (rangeLimit : ℕ) (st : OpenState) (entry : SpoolEntry) :
    OpenState :=
  if entry.record.sample?.isSome then
    (st.absorbRecord storage entry.record entry.after).indexSample rangeLimit
      entry.start entry.stop
  else st.absorbRecord storage entry.record entry.after

end OpenState

variable {V} {st : OpenState} {storage : SampleStorage} {rangeLimit : ℕ}

theorem absorbRecord_of_none (st : OpenState) (record : DecodedSpoolRecord)
    (after : ReaderState) (hsample : record.sample? = none) :
    st.absorbRecord storage record after =
      { st with toReaderState := after, processes := st.processes ++ record.process?.toList } := by
  unfold OpenState.absorbRecord
  rw [hsample]
  simp

theorem addSample_eq (st : OpenState) (sample : SampleRecord)
    (hcount : st.sampleCount + 1 < 2 ^ 64) :
    st.addSample storage sample = .ok (st.absorbRecord storage (.sample sample)
      { st.toReaderState with lastTimestampNs := sample.timestampNs }) := by
  unfold OpenState.addSample
  rw [if_pos hcount]
  simp [OpenState.absorbRecord, DecodedSpoolRecord.sample?, DecodedSpoolRecord.process?]

/-- A read that is followed by what committing its record does. -/
theorem bind_eq_absorb {α : Type} (st : OpenState) (m : Reader α) (f : α → DecodedSpoolRecord)
    (g : α → Reader OpenState)
    (h : ∀ a, g a = (fun after => st.absorbRecord storage (f a) after) <$>
      (ofExcept (st.toReaderState.commit (f a)) : Reader ReaderState)) :
    m >>= g = (fun p => st.absorbRecord storage p.1 p.2) <$> (do
      let record ← f <$> m
      let after ← ofExcept (st.toReaderState.commit record)
      return (record, after)) := by
  rw [funext h]
  simp only [map_eq_pure_bind, bind_assoc, pure_bind]

/-- Reading in place is decoding followed by committing. -/
theorem parseRecord_eq (tag : UInt8) (st : OpenState) (hcount : st.sampleCount + 1 < 2 ^ 64) :
    parseRecord V storage tag st =
      (fun p => st.absorbRecord storage p.1 p.2) <$> commitTagged V st.toReaderState tag := by
  have other : ∀ (record : DecodedSpoolRecord) (after : ReaderState), record.sample? = none →
      record.process? = none →
      st.absorbRecord storage record after = { st with toReaderState := after } := by
    intro record after hsample hprocess
    rw [absorbRecord_of_none st record after hsample, hprocess, Option.toList_none, List.append_nil]
  apply decodeTagged_cases V st.toReaderState fun tag m => parseRecord V storage tag st =
    (fun p => st.absorbRecord storage p.1 p.2) <$> (do
      let record ← m
      let after ← ofExcept (st.toReaderState.commit record)
      return (record, after))
  · intro tag htag
    unfold parseRecord
    rw [if_pos htag]
    apply bind_eq_absorb
    intro module
    exact congrArg pure (other (.module module) _ rfl rfl).symm
  · apply bind_eq_absorb
    intro frame
    exact congrArg pure (other (.frame frame) _ rfl rfl).symm
  · apply bind_eq_absorb
    intro node
    exact congrArg pure (other (.stack node) _ rfl rfl).symm
  · apply bind_eq_absorb
    intro thread
    exact congrArg pure (other (.thread thread) _ rfl rfl).symm
  · apply bind_eq_absorb
    intro sample
    rw [addSample_eq st sample hcount]
    rfl
  · apply bind_eq_absorb
    intro record
    exact congrArg pure (absorbRecord_of_none st (.pythonRuntime record) _ rfl).symm
  · apply bind_eq_absorb
    intro processId
    rw [← bind_pure_comp]
    apply bind_congr
    intro after
    exact congrArg pure (absorbRecord_of_none st (.deactivateProcess processId) _ rfl).symm
  · apply bind_eq_absorb
    intro moduleId
    rw [← bind_pure_comp]
    apply bind_congr
    intro after
    exact congrArg pure (other (.deactivateModule moduleId) _ rfl rfl).symm
  · intro tag htag
    simp only [recordTags, List.mem_cons, List.not_mem_nil, or_false, not_or] at htag
    unfold parseRecord
    simp only [htag, or_self, if_false]
    rfl

/-- Only the sample tag selects a sample. -/
theorem sample?_isSome {tag : UInt8} {d : Cursor} {record : DecodedSpoolRecord}
    (h : decodeTagged V s tag c = (.ok record, d)) : record.sample?.isSome ↔ tag = REC_SAMPLE := by
  revert h
  have kind : ∀ {α : Type} (m : Reader α) (f : α → DecodedSpoolRecord) (tag : UInt8),
      (∀ a, (f a).sample?.isSome ↔ tag = REC_SAMPLE) → (f <$> m) c = (.ok record, d) →
      (record.sample?.isSome ↔ tag = REC_SAMPLE) := by
    intro α m f tag hf h
    obtain ⟨a, c', _, hrest⟩ := bind_eq_ok h
    cases hrest
    exact hf a
  have other : ∀ {tag : UInt8}, tag ≠ REC_SAMPLE →
      ((none : Option SampleRecord).isSome ↔ tag = REC_SAMPLE) := by
    intro tag htag
    simp [htag]
  apply decodeTagged_cases V s fun tag m => m c = (.ok record, d) →
    (record.sample?.isSome ↔ tag = REC_SAMPLE)
  · intro tag htag
    apply kind
    intro module
    rcases htag with rfl | rfl
    · exact other (by decide)
    · exact other (by decide)
  · exact kind _ _ _ fun _ => other (by decide)
  · exact kind _ _ _ fun _ => other (by decide)
  · exact kind _ _ _ fun _ => other (by decide)
  · exact kind _ _ _ fun _ => by simp [DecodedSpoolRecord.sample?]
  · exact kind _ _ _ fun _ => other (by decide)
  · exact kind _ _ _ fun _ => other (by decide)
  · exact kind _ _ _ fun _ => other (by decide)
  · intro tag _ h
    cases h

theorem openLoop_next {after : ReaderState} {record : DecodedSpoolRecord} {d : Cursor}
    (hc : c.Valid) (hcount : st.sampleCount + 1 < 2 ^ 64)
    (h : (spoolFormat V).next st.toReaderState c = (.ok (record, after), d)) (fuel : ℕ) :
    openLoop V storage rangeLimit (fuel + 1) st c =
      openLoop V storage rangeLimit fuel
        (st.absorb storage rangeLimit ⟨c.position, d.position, record, after⟩) d := by
  rcases readTag_cases c hc with ⟨hend, _⟩ | ⟨tag, _, _, htag⟩
  · have hhalts : Halts (spoolFormat V) st.toReaderState c .complete := hend
    exact absurd h (hhalts.next_ne hc)
  · rw [next_of_readTag V htag] at h
    have hparse : parseRecord V storage tag st (c.advance 1) =
        (.ok (st.absorbRecord storage record after), d) := by
      rw [parseRecord_eq tag st hcount]
      exact map_of_ok h
    obtain ⟨record', c', hdecode, hrest⟩ := bind_eq_ok h
    obtain ⟨after', c'', _, hpure⟩ := bind_eq_ok hrest
    cases hpure
    have hkind := sample?_isSome hdecode
    rw [openLoop, htag]
    simp only [hparse]
    unfold OpenState.absorb
    simp only [hkind]

/-- Where the scan stops, so does the loop. -/
theorem openLoop_complete (h : c.position = c.mmap.len) (fuel : ℕ) :
    openLoop V storage rangeLimit (fuel + 1) st c = .ok (st, false) := by
  have htag : readTag c = (.ok none, c) := if_pos h
  rw [openLoop, htag]

theorem openLoop_stop (storage : SampleStorage) (rangeLimit : ℕ) {e : Stop} (hc : c.Valid)
    (hcount : st.sampleCount + 1 < 2 ^ 64) (hlt : c.position < c.mmap.len)
    (h : ((spoolFormat V).next st.toReaderState c).1 = .error e) (fuel : ℕ) :
    ∃ tag, openLoop V storage rangeLimit (fuel + 1) st c =
      if e.isEof = true then .ok (st, true) else .error (recordError e tag c.position) := by
  rcases readTag_cases c hc with ⟨hend, _⟩ | ⟨tag, _, hvalid, htag⟩
  · omega
  · refine ⟨tag, ?_⟩
    rw [next_of_readTag V htag] at h
    rcases hnext : commitTagged V st.toReaderState tag (c.advance 1) with ⟨result, d⟩
    rw [hnext] at h
    cases h
    have hparse : parseRecord V storage tag st (c.advance 1) = (.error e, d) := by
      rw [parseRecord_eq tag st hcount]
      exact map_of_error hnext
    rw [openLoop, htag]
    simp only [hparse]
    by_cases heof : e.isEof = true
    · have hended := (commitTagged_stable V st.toReaderState tag).ended (c.advance 1) e hvalid
        (by rw [hnext]) heof
      have hmmap := (commitTagged_stable V st.toReaderState tag).mmap_eq (c.advance 1) hvalid
      rw [hnext] at hended hmmap
      have hat : atEof d = true := by
        unfold atEof
        rw [hended, hmmap]
        exact beq_self_eq_true _
      rw [heof, hat]
      rfl
    · rw [Bool.eq_false_iff.mpr heof]
      rfl

namespace OpenState

/-- Indexing a sample touches the index only. -/
theorem indexSample_eq (st : OpenState) (recordStart position : ℕ) :
    ∃ ranges start, st.indexSample rangeLimit recordStart position =
      { st with sampleRanges := ranges, scanStart := start } := by
  unfold indexSample
  split
  · split
    · exact ⟨_, _, rfl⟩
    · split <;> exact ⟨_, _, rfl⟩
  · exact ⟨_, _, rfl⟩

theorem absorb_eq (storage : SampleStorage) (rangeLimit : ℕ) (st : OpenState)
    (entry : SpoolEntry) : ∃ ranges start, st.absorb storage rangeLimit entry =
      { st.absorbRecord storage entry.record entry.after with
        sampleRanges := ranges, scanStart := start } := by
  unfold absorb
  split
  · exact indexSample_eq _ _ _
  · exact ⟨_, _, rfl⟩

/-- The accumulated state after several records. -/
def absorbAll (storage : SampleStorage) (rangeLimit : ℕ) (st : OpenState)
    (entries : List SpoolEntry) : OpenState :=
  entries.foldl (absorb storage rangeLimit) st

theorem sampleCount_absorbAll (st : OpenState) (entries : List SpoolEntry) :
    (st.absorbAll storage rangeLimit entries).sampleCount =
      st.sampleCount + (entries.filterMap (·.record.sample?)).length := by
  induction entries generalizing st with
  | nil => rfl
  | cons entry entries ih =>
    obtain ⟨ranges, start, h⟩ := absorb_eq storage rangeLimit st entry
    have hcount : (st.absorb storage rangeLimit entry).sampleCount =
        st.sampleCount + entry.record.sample?.toList.length := by
      rw [h]
      rfl
    refine (ih (st.absorb storage rangeLimit entry)).trans ?_
    rw [hcount, List.filterMap_cons]
    rcases entry.record.sample? with _ | sample
    · rfl
    · simp only [Option.toList_some, List.length_cons, List.length_nil]
      omega

/-- A list to which every record adds at most one element. -/
theorem absorbAll_collects {β : Type} (π : OpenState → List β) (g : DecodedSpoolRecord → Option β)
    (hstep : ∀ st entry, π (st.absorb storage rangeLimit entry) = π st ++ (g entry.record).toList)
    (st : OpenState) (entries : List SpoolEntry) :
    π (st.absorbAll storage rangeLimit entries) = π st ++ entries.filterMap (g ·.record) := by
  induction entries generalizing st with
  | nil => exact (List.append_nil _).symm
  | cons entry entries ih =>
    refine (ih (st.absorb storage rangeLimit entry)).trans ?_
    rw [hstep, List.filterMap_cons, List.append_assoc]
    rcases g entry.record with _ | b <;> rfl

theorem samples_absorbAll (st : OpenState) (entries : List SpoolEntry) :
    (st.absorbAll storage rangeLimit entries).samples =
      st.samples ++ if storage = .retain then entries.filterMap (·.record.sample?) else [] := by
  have hsamples : ∀ (st : OpenState) entry, (st.absorb storage rangeLimit entry).samples =
      if storage = .retain then st.samples ++ entry.record.sample?.toList else st.samples := by
    intro st entry
    obtain ⟨ranges, start, h⟩ := absorb_eq storage rangeLimit st entry
    rw [h]
    rfl
  by_cases hretain : storage = .retain
  · rw [if_pos hretain]
    exact absorbAll_collects _ _ (fun st entry => (hsamples st entry).trans (if_pos hretain))
      st entries
  · have hkept := absorbAll_collects samples (fun _ => none)
      (fun st entry => by rw [hsamples, if_neg hretain]; simp) st entries
    rw [if_neg hretain, hkept]
    simp

theorem processes_absorbAll (st : OpenState) (entries : List SpoolEntry) :
    (st.absorbAll storage rangeLimit entries).processes =
      st.processes ++ entries.filterMap (·.record.process?) := by
  refine absorbAll_collects _ _ (fun st entry => ?_) st entries
  obtain ⟨ranges, start, h⟩ := absorb_eq storage rangeLimit st entry
  rw [h]
  rfl

end OpenState

/-- The loop reads the records of a run one by one. -/
theorem openLoop_run (storage : SampleStorage) (rangeLimit : ℕ) {t : ReaderState} {d : Cursor}
    {entries : List SpoolEntry} (h : Run (spoolFormat V) s c entries t d) (hc : c.Valid)
    (st : OpenState) (hst : st.toReaderState = s)
    (hcount : st.sampleCount + (c.mmap.len - c.position) < 2 ^ 64) (fuel : ℕ) :
    openLoop V storage rangeLimit (entries.length + fuel) st c =
        openLoop V storage rangeLimit fuel (st.absorbAll storage rangeLimit entries) d ∧
      (st.absorbAll storage rangeLimit entries).toReaderState = t := by
  induction h generalizing st with
  | nil s c =>
    rw [List.length_nil, Nat.zero_add]
    exact ⟨rfl, hst⟩
  | @cons s s' t c c' d record entries hnext hrun ih =>
    subst hst
    have hvalid := next_valid hc hnext
    have hmmap := next_mmap hc hnext
    have hlt := (spoolFormat V).progress _ _ _ _ hc hnext
    have hle : c'.position ≤ c'.mmap.len := hvalid
    rw [hmmap] at hle
    obtain ⟨ranges, start, habsorb⟩ := OpenState.absorb_eq storage rangeLimit st
      ⟨c.position, c'.position, record, s'⟩
    have hsample : record.sample?.toList.length ≤ 1 := by
      rcases record.sample? with _ | sample <;> simp
    have hcount' : (st.absorb storage rangeLimit
        ⟨c.position, c'.position, record, s'⟩).sampleCount + (c'.mmap.len - c'.position) <
          2 ^ 64 := by
      rw [habsorb, hmmap]
      change st.sampleCount + record.sample?.toList.length + _ < _
      omega
    obtain ⟨hloop, hstate⟩ := ih hvalid _ (by rw [habsorb]; rfl) hcount'
    refine ⟨?_, hstate⟩
    rw [List.length_cons, Nat.add_right_comm, openLoop_next hc (by omega) hnext]
    exact hloop

/-- What the loop returns where a scan stops. -/
def outcome (ending : Ending Stop) (st : OpenState) (tag : UInt8) (recordStart : ℕ) :
    Except Stop (OpenState × Bool) :=
  match ending with
  | .complete => .ok (st, false)
  | .torn => .ok (st, true)
  | .fault e => .error (recordError e tag recordStart)

theorem openLoop_halts (storage : SampleStorage) (rangeLimit : ℕ) {ending : Ending Stop}
    (hc : c.Valid) (hcount : st.sampleCount + (c.mmap.len - c.position) < 2 ^ 64)
    (h : Halts (spoolFormat V) st.toReaderState c ending) (fuel : ℕ) :
    ∃ tag, openLoop V storage rangeLimit (fuel + 1) st c = outcome ending st tag c.position := by
  rcases ending with _ | _ | e
  · exact ⟨0, openLoop_complete h fuel⟩
  · obtain ⟨hlt, e, he, heof⟩ := h
    obtain ⟨tag, htag⟩ := openLoop_stop storage rangeLimit hc (by omega) hlt he fuel
    have heof' : e.isEof = true := heof
    rw [if_pos heof'] at htag
    exact ⟨tag, htag⟩
  · obtain ⟨hlt, he, heof⟩ := h
    obtain ⟨tag, htag⟩ := openLoop_stop storage rangeLimit hc (by omega) hlt he fuel
    have heof' : e.isEof = false := heof
    rw [heof'] at htag
    exact ⟨tag, htag⟩

/-- With enough rounds the loop returns what the scan of the file determines. -/
theorem openLoop_scan (storage : SampleStorage) (rangeLimit : ℕ) {t : ReaderState} {d : Cursor}
    {entries : List SpoolEntry} {ending : Ending Stop}
    (h : Scan (spoolFormat V) s c entries t d ending) (hc : c.Valid) (st : OpenState)
    (hst : st.toReaderState = s) (hcount : st.sampleCount + (c.mmap.len - c.position) < 2 ^ 64)
    (fuel : ℕ) (hfuel : c.mmap.len - c.position < fuel) :
    ∃ tag, openLoop V storage rangeLimit fuel st c =
      outcome ending (st.absorbAll storage rangeLimit entries) tag d.position := by
  obtain ⟨hmmap, hvalid⟩ := h.run.mmap_eq hc
  have hlength := h.run.length_le hc
  have hle : d.position ≤ d.mmap.len := hvalid
  rw [hmmap] at hle
  obtain ⟨fuel', rfl⟩ : ∃ n, fuel = entries.length + (n + 1) :=
    ⟨fuel - entries.length - 1, by omega⟩
  obtain ⟨hloop, hstate⟩ := openLoop_run storage rangeLimit h.run hc st hst hcount (fuel' + 1)
  have hsamples : (entries.filterMap (·.record.sample?)).length ≤ entries.length :=
    List.length_filterMap_le _ _
  have hcount' : (st.absorbAll storage rangeLimit entries).sampleCount +
      (d.mmap.len - d.position) < 2 ^ 64 := by
    rw [OpenState.sampleCount_absorbAll, hmmap]
    omega
  have hhalts := h.halts
  rw [← hstate] at hhalts
  obtain ⟨tag, htag⟩ := openLoop_halts storage rangeLimit hvalid hcount' hhalts fuel'
  exact ⟨tag, hloop.trans htag⟩

/-- The records of a file with a complete header. -/
structure Reading (V : IntegerEncoding) (mmap : Mmap) (header : SpoolHeader) (c : Cursor)
    (entries : List SpoolEntry) (t : ReaderState) (d : Cursor) (ending : Ending Stop) : Prop where
  header : readHeader V ⟨mmap, 0⟩ = (.ok header, c)
  scan : Scan (spoolFormat V) .initial c entries t d ending

/-- An opened spool holds the definitions of a reader state. -/
structure Holds (opened : OpenedSpool) (t : ReaderState) : Prop where
  modules : opened.definitions.modules = t.modules
  frames : opened.definitions.frames = t.frames
  frameContexts : opened.definitions.frameContexts = t.frameContexts
  stackNodes : opened.definitions.stackNodes = t.stackNodes
  threads : opened.threads = t.threads

namespace Reading

variable {mmap : Mmap} {header : SpoolHeader} {d : Cursor} {entries : List SpoolEntry}
  {t : ReaderState} {ending : Ending Stop}

theorem valid_zero (mmap : Mmap) : (⟨mmap, 0⟩ : Cursor).Valid := Nat.zero_le _

theorem header_valid (h : readHeader V ⟨mmap, 0⟩ = (.ok header, c)) : c.mmap = mmap ∧ c.Valid := by
  have hmmap := (readHeader_reads V).stable.mmap_eq ⟨mmap, 0⟩ (valid_zero mmap)
  have hvalid := (readHeader_reads V).stable.within ⟨mmap, 0⟩ (valid_zero mmap)
  rw [h] at hmmap hvalid
  exact ⟨hmmap, hvalid⟩

theorem exists_reading (h : readHeader V ⟨mmap, 0⟩ = (.ok header, c)) :
    ∃ entries t d ending, Reading V mmap header c entries t d ending := by
  obtain ⟨entries, t, d, ending, hscan⟩ :=
    Scan.exists_scan (F := spoolFormat V) .initial (header_valid h).2
  exact ⟨entries, t, d, ending, h, hscan⟩

/-- The state of the eager reader after the records of a file. -/
def final (storage : SampleStorage) (rangeLimit : ℕ) (entries : List SpoolEntry) : OpenState :=
  (OpenState.initial storage).absorbAll storage rangeLimit entries

theorem final_state (storage : SampleStorage) (rangeLimit : ℕ)
    (h : Reading V mmap header c entries t d ending) :
    (final storage rangeLimit entries).toReaderState = t := by
  obtain ⟨hmmap, hvalid⟩ := header_valid h.header
  have hlen := mmap.length_lt
  refine (openLoop_run storage rangeLimit h.scan.run hvalid (.initial storage) rfl ?_ 0).2
  rw [hmmap]
  change 0 + (mmap.bytes.length - _) < _
  omega

/-- Eager reading retains the samples of all records. -/
theorem final_samples (rangeLimit : ℕ) (entries : List SpoolEntry) :
    (final .retain rangeLimit entries).samples = entries.filterMap (·.record.sample?) :=
  OpenState.samples_absorbAll _ _

theorem final_sampleCount (storage : SampleStorage) (rangeLimit : ℕ)
    (entries : List SpoolEntry) :
    (final storage rangeLimit entries).sampleCount =
      (entries.filterMap (·.record.sample?)).length :=
  (OpenState.sampleCount_absorbAll _ _).trans (Nat.zero_add _)

theorem finish_holds (storage : SampleStorage) (rangeLimit : ℕ)
    (h : Reading V mmap header c entries t d ending) (truncatedTail : Bool) :
    Holds ((final storage rangeLimit entries).finish header mmap truncatedTail) t := by
  have hstate := h.final_state storage rangeLimit
  constructor
  · exact congrArg ReaderState.modules hstate
  · exact congrArg ReaderState.frames hstate
  · exact congrArg ReaderState.frameContexts hstate
  · exact congrArg ReaderState.stackNodes hstate
  · exact congrArg ReaderState.threads hstate

theorem open_eq (storage : SampleStorage) (rangeLimit : ℕ)
    (h : Reading V mmap header c entries t d ending) :
    ∃ tag, openSpoolWithRangeLimit V storage rangeLimit mmap =
      (outcome ending (final storage rangeLimit entries) tag d.position).map
        fun p => p.1.finish header mmap p.2 := by
  obtain ⟨hmmap, hvalid⟩ := header_valid h.header
  have hlen := mmap.length_lt
  have hcount : (OpenState.initial storage).sampleCount + (c.mmap.len - c.position) < 2 ^ 64 := by
    rw [hmmap]
    change 0 + (mmap.bytes.length - _) < _
    omega
  have hfuel : c.mmap.len - c.position < mmap.len + 1 := by
    rw [hmmap]
    omega
  obtain ⟨tag, htag⟩ :=
    openLoop_scan storage rangeLimit h.scan hvalid (.initial storage) rfl hcount _ hfuel
  refine ⟨tag, ?_⟩
  unfold openSpoolWithRangeLimit
  rw [h.header]
  simp only [htag]
  unfold final
  rcases outcome ending _ tag d.position with e | p <;> rfl

/-- The reader accepts exactly the files that scan without a fault. -/
theorem open_eq_ok (storage : SampleStorage) (rangeLimit : ℕ)
    (h : Reading V mmap header c entries t d ending) (hending : ending.isFault = false) :
    openSpoolWithRangeLimit V storage rangeLimit mmap =
      .ok ((final storage rangeLimit entries).finish header mmap ending.isTorn) := by
  obtain ⟨tag, htag⟩ := h.open_eq storage rangeLimit
  rw [htag]
  rcases ending with _ | _ | e
  · rfl
  · rfl
  · cases hending

theorem of_open_eq_ok {opened : OpenedSpool}
    (h : openSpoolWithRangeLimit V storage rangeLimit mmap = .ok opened) :
    ∃ header c entries t d ending, Reading V mmap header c entries t d ending ∧
      ending.isFault = false ∧
      opened = (final storage rangeLimit entries).finish header mmap ending.isTorn := by
  rcases hheader : readHeader V ⟨mmap, 0⟩ with ⟨e | header, c⟩
  · unfold openSpoolWithRangeLimit at h
    rw [hheader] at h
    cases h
  · obtain ⟨entries, t, d, ending, hreading⟩ := exists_reading hheader
    refine ⟨header, c, entries, t, d, ending, hreading, ?_⟩
    rcases hfault : ending.isFault with _ | _
    · rw [hreading.open_eq_ok storage rangeLimit hfault] at h
      cases h
      exact ⟨rfl, rfl⟩
    · obtain ⟨tag, htag⟩ := hreading.open_eq storage rangeLimit
      rw [htag] at h
      rcases ending with _ | _ | e
      · cases hfault
      · cases hfault
      · cases h

end Reading

end StackPulse.OpenSpool
