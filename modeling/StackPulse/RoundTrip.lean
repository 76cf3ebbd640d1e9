import StackPulse.Acceptance
import StackPulse.Resolution

/-!
The round trip of a session. Whatever valid calls a caller makes on a sink that
accepts everything, the file opens as a whole and gives back the header, the
modules and one sample for each call that wrote one, frame by frame.
-/
namespace StackPulse.RoundTrip

open Bytes Varint Model Decode DecodeFacts Output Sessions Interning Records OpenSpool WireRuns
  Stacks Recall Acceptance Resolution

variable {written : WrittenSample}

/-- A sample that was read back is the one that was written. -/
structure Returns (opened : OpenedSpool) (written : WrittenSample) (sample : SampleRecord) :
    Prop where
  timestampNs : sample.timestampNs = written.timestampNs
  processId : sample.processId.get = written.processId
  threadId : sample.threadId.get.toInt = written.threadId.toNat
  frames : ∃ refs, stackFrames opened.definitions sample.stackId = .ok refs ∧
    refs.map (·.frame) = written.frames

/-- An opened spool gives back a session. -/
structure ReturnsSession (opened : OpenedSpool) (header : SpoolHeader) (ops : List Op)
    (outcomes : List Outcome) : Prop where
  complete : opened.definitions.truncatedTail = false
  startTimestampUs : opened.definitions.startTimestampUs = header.startTimestampUs
  sampleIntervalNs : opened.definitions.sampleIntervalNs = header.sampleIntervalNs
  clockOrigin : opened.definitions.clockOrigin = header.clockOrigin
  modules : opened.definitions.modules = ops.filterMap writtenModule
  samples : List.Forall₂ (Returns opened) (writtenSamples [] ops outcomes) opened.samples

/-- The frames of every written sample are valid for the modules of the session. -/
theorem valid_of_written {ops : List Op} {outcomes : List Outcome}
    {modules active : List ModuleRecord} (h : ValidOps modules ops)
    (hwritten : written ∈ writtenSamples active ops outcomes) :
    ∀ frame ∈ written.frames, ValidFrame (modules ++ ops.filterMap writtenModule) frame := by
  induction ops generalizing modules active outcomes with
  | nil => cases hwritten
  | cons op ops ih =>
    rcases outcomes with _ | ⟨outcome, outcomes⟩
    · cases hwritten
    have hmodules : modules ++ (op :: ops).filterMap writtenModule =
        modules ++ (writtenModule op).toList ++ ops.filterMap writtenModule := by
      rw [List.append_assoc, filterMap_cons_toList]
    rw [hmodules]
    rcases List.mem_append.mp hwritten with hfirst | hrest
    · obtain ⟨rfl, rfl⟩ := call_of_writtenSample (Option.mem_toList.mp hfirst)
      intro frame hframe
      rw [List.append_assoc]
      apply ValidFrame.append
      exact h.1.2 frame hframe
    · exact ih h.2 hrest

/-- A valid frame is read back as it was written. -/
theorem frame_of_recalled {t : ReaderState} {frame : FrameRecord} {ref : StackFrameRef}
    (hvalid : ValidFrame t.modules frame) (h : FrameRecalled t written frame ref) :
    ref.frame = frame := by
  obtain ⟨key, hkey, hwire⟩ := hvalid.wire
  obtain ⟨key', hkey', hwire'⟩ := h.decoded
  rw [hkey] at hkey'
  cases hkey'
  rw [hwire] at hwire'
  exact (Except.ok.inj hwire').symm

theorem frames_of_recalled {t : ReaderState} {frames : List FrameRecord}
    {refs : List StackFrameRef} (hvalid : ∀ frame ∈ frames, ValidFrame t.modules frame)
    (h : List.Forall₂ (FrameRecalled t written) frames refs) : refs.map (·.frame) = frames := by
  induction h with
  | nil => rfl
  | @cons frame ref frames refs hframe _ ih =>
    have hfirst := frame_of_recalled (hvalid frame (.head _)) hframe
    have hrest := ih fun f hf => hvalid f (List.mem_cons_of_mem frame hf)
    rw [List.map_cons, hfirst, hrest]

/-- Every valid session round trips through its file. -/
theorem session_round_trips (V : IntegerEncoding) (header : SpoolHeader) (ops : List Op)
    (hvalid : ValidOps [] ops) (mmap : Mmap)
    (hbytes : mmap.bytes = (session V (⟨[]⟩ : Vec) header ops).2.writer.inner.bytes)
    (rangeLimit : ℕ) :
    ∃ opened, openSpoolWithRangeLimit V .retain rangeLimit mmap = .ok opened ∧
      ReturnsSession opened header ops (session V (⟨[]⟩ : Vec) header ops).1 := by
  rw [session_buffered] at hbytes ⊢
  have hfile : mmap.bytes = file V header (planOps ops .empty).1 := hbytes
  obtain ⟨values, t, hreads⟩ := planOps_reads_readable ops inStep_initial hvalid.readable
  obtain ⟨opened, hopen, hholds, hsamples, hstart, hinterval, horigin, htail⟩ :=
    open_of_reads hfile hreads rangeLimit
  have hin := inStep_initial.absorbAll (planOps_planned ops sane_empty) hreads
  have hfollowed := planOps_followed ops inStep_initial hreads
  have hmodules : t.modules = ops.filterMap writtenModule := hfollowed.modules
  refine ⟨opened, hopen, htail, hstart, hinterval, horigin, ?_, ?_⟩
  · rw [hholds.modules]
    exact hmodules
  · rw [hsamples]
    refine List.forall₂_iff_zip.mpr ⟨hfollowed.samples.length_eq, fun {written sample} hmem => ?_⟩
    have h := List.forall₂_zip hfollowed.samples hmem
    obtain ⟨refs, hyield, hframes⟩ := stackFrames_of_recalls hin.wellFormed hholds h
    refine ⟨h.timestampNs, h.processId, toInt_of_tidTryFrom h.threadId, refs, hyield, ?_⟩
    refine frames_of_recalled ?_ hframes
    rw [hmodules]
    exact valid_of_written hvalid (List.of_mem_zip hmem).1

/-- A module, and a sample with a frame pinned to it, one outside and the marker. -/
def mixedOps : List Op :=
  [.writeModule mappedModule,
    .writeSampleFrames 7 1 1
      [⟨some 0, 1416, 5000, .user⟩, ⟨none, 18446744071562067968, 18446744071562067968, .kernel⟩,
        .truncatedStackMarker],
    .writeModuleDeactivationOne 0]

def mixedFile : Mmap where
  bytes := CURRENT_MAGIC ++ [0, 0, 0] ++
    [1, 0, 2, 128, 32, 128, 64, 128, 4, 3, 8, 1, 0, 0, 2, 47, 97] ++
    [2, 0, 5, 0] ++ [3, 0, 255, 255, 255, 255, 15, 0] ++
    [2, 1, 3, 128, 128, 128, 128, 248, 255, 255, 255, 255, 1] ++ [3, 1, 0, 1] ++
    [2, 2, 0, 136, 11] ++ [3, 2, 1, 2] ++ [4, 0, 2, 1] ++ [5, 14, 0, 2] ++ [8, 0]
  length_lt := by decide

theorem validOps_mixedOps : ValidOps [] mixedOps := by
  have hframe : PinnedTo mappedModule ⟨some 0, 1416, 5000, .user⟩ :=
    ⟨by decide, by decide, by decide, rfl⟩
  refine ⟨⟨rfl, fun symbols h => by cases h⟩, ⟨⟨by decide, by decide, by decide⟩, ?_⟩,
    Nat.zero_lt_one, trivial⟩
  intro frame hmem
  simp only [List.mem_cons, List.not_mem_nil, or_false] at hmem
  rcases hmem with rfl | rfl | rfl
  · exact .pinned 0 mappedModule rfl rfl hframe
  · exact .unpinned rfl (by decide) rfl
  · exact .marker rfl

theorem session_round_trips_mixed : ∃ opened,
    openSpoolWithRangeLimit Varint.standard .retain 4 mixedFile = .ok opened ∧
      ReturnsSession opened ⟨0, 0, none⟩ mixedOps [.ok none, .ok (some 2), .ok none] := by
  have hbytes : mixedFile.bytes =
      (session Varint.standard (⟨[]⟩ : Vec) ⟨0, 0, none⟩ mixedOps).2.writer.inner.bytes := by
    decide +kernel
  have houtcomes : (session Varint.standard (⟨[]⟩ : Vec) ⟨0, 0, none⟩ mixedOps).1 =
      [.ok none, .ok (some 2), .ok none] := by
    decide +kernel
  rw [← houtcomes]
  exact session_round_trips Varint.standard ⟨0, 0, none⟩ mixedOps validOps_mixedOps mixedFile
    hbytes 4

end StackPulse.RoundTrip
