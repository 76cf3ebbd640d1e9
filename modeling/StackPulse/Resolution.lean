import StackPulse.Recall

/-!
Sessions read back. An accepted file of a session holds one sample for each call
that wrote one, and a frame of it without a module id resolves to the newest
module that was active at that call and covers the frame.
-/
namespace StackPulse.Resolution

open Bytes Varint Model FrameContexts Decode Output Encode Sessions Interning Records OpenSpool
  WireRuns Stacks Safety Visibility Recall

variable {V : IntegerEncoding}

/-- Opening a file whose records the reader goes through. -/
theorem open_of_reads {mmap : Mmap} {header : SpoolHeader} {records : List SpoolRecord}
    {values : List DecodedSpoolRecord} {t : ReaderState}
    (hbytes : mmap.bytes = file V header records) (h : Reads .initial records values t)
    (rangeLimit : ℕ) :
    ∃ opened, openSpoolWithRangeLimit V .retain rangeLimit mmap = .ok opened ∧ Holds opened t ∧
      opened.samples = values.filterMap (·.sample?) ∧
      opened.definitions.startTimestampUs = header.startTimestampUs ∧
      opened.definitions.sampleIntervalNs = header.sampleIntervalNs ∧
      opened.definitions.clockOrigin = header.clockOrigin ∧
      opened.definitions.truncatedTail = false := by
  obtain ⟨entries, d, hreading, hvalues, _⟩ := reading_of_reads hbytes h
  refine ⟨_, hreading.open_eq_ok .retain rangeLimit rfl,
    hreading.finish_holds .retain rangeLimit false, ?_, rfl, rfl, rfl, rfl⟩
  rw [← hvalues, List.filterMap_map]
  exact Reading.final_samples rangeLimit entries

/-- The frames of a sample, as its iterator yields them. -/
theorem stackFrames_of_recalls {t : ReaderState} (ht : WellFormed t) {opened : OpenedSpool}
    (hholds : Holds opened t) {written : WrittenSample} {sample : SampleRecord}
    (h : Recalls t written sample) :
    ∃ refs, stackFrames opened.definitions sample.stackId = .ok refs ∧
      List.Forall₂ (FrameRecalled t written) written.frames refs := by
  obtain ⟨chain, refs, hchain, hrefs, hframes⟩ := h.stack
  rw [← hholds.stackNodes] at hchain
  rw [← hholds.frames] at hrefs
  have hlinked : Linked opened.definitions.stackNodes opened.definitions.frames.length := by
    rw [hholds.stackNodes, hholds.frames]
    exact ht.linked
  have hlt : sample.stackId.toNat < opened.definitions.stackNodes.length := by
    rcases hchain with ⟨hnode, _⟩ | ⟨hnode, _, _⟩
    · exact (List.getElem?_eq_some_iff.mp hnode).1
    · exact (List.getElem?_eq_some_iff.mp hnode).1
  obtain ⟨chain', refs', hchain', _, _, hyield, hrefs'⟩ := stackFrames_eq _ hlinked _ hlt
  have hsame := hchain'.unique hchain
  subst hsame
  have hunique : Relator.RightUnique (FrameOf opened.definitions.frames) := by
    rintro node ⟨id, frame⟩ ⟨id', frame'⟩ ⟨hid, hget⟩ ⟨hid', hget'⟩
    rw [hget] at hget'
    cases hget'
    cases hid.trans hid'.symm
    rfl
  rw [List.right_unique_forall₂' hunique hrefs' hrefs] at hyield
  exact ⟨refs, hyield, hframes⟩

theorem exists_of_mem_right {α β : Type} {R : α → β → Prop} {l : List α} {l' : List β}
    (h : List.Forall₂ R l l') {b : β} (hb : b ∈ l') : ∃ a, R a b := by
  induction h with
  | nil => cases hb
  | cons hab _ ih =>
    rcases List.mem_cons.mp hb with rfl | hb
    · exact ⟨_, hab⟩
    · exact ih hb

/-- A sample of an opened spool, against the call that wrote it: every frame
without a module id resolves in the modules that were active at the call. -/
structure ResolvesInEpoch (opened : OpenedSpool) (written : WrittenSample)
    (sample : SampleRecord) : Prop where
  timestampNs : sample.timestampNs = written.timestampNs
  processId : sample.processId.get = written.processId
  frames : ∃ refs, stackFrames opened.definitions sample.stackId = .ok refs ∧
    refs.length = written.frames.length ∧
    ∀ ref ∈ refs, ref.frame.moduleId = none →
      moduleForFrameWithContext opened.definitions.modules opened.definitions.frameContexts
          ref.id sample.processId.get ref.frame =
        resolveIn written.active sample.processId.get ref.frame

/-- In every accepted file of a session, each frame without a module id resolves
to the newest covering module among those written and not deactivated before its
sample, whatever was written before or after, and however ids are used again. -/
theorem unpinned_frames_resolve_in_epoch (V : IntegerEncoding) (header : SpoolHeader)
    (ops : List Op) (mmap : Mmap)
    (hbytes : mmap.bytes = (session V (⟨[]⟩ : Vec) header ops).2.writer.inner.bytes)
    (rangeLimit : ℕ) (opened : OpenedSpool)
    (hopen : openSpoolWithRangeLimit V .retain rangeLimit mmap = .ok opened) :
    List.Forall₂ (ResolvesInEpoch opened)
      (writtenSamples [] ops (session V (⟨[]⟩ : Vec) header ops).1) opened.samples := by
  rw [session_buffered] at hbytes ⊢
  have hfile : mmap.bytes = file V header (planOps ops .empty).1 := hbytes
  obtain ⟨values, t, hreads⟩ := reads_of_open hfile hopen
  obtain ⟨opened', hopen', hholds, hsamples, _⟩ := open_of_reads hfile hreads rangeLimit
  rw [hopen] at hopen'
  cases hopen'
  have hin := inStep_initial.absorbAll (planOps_planned ops sane_empty) hreads
  have hfollowed := planOps_followed ops inStep_initial hreads
  rw [hsamples]
  refine hfollowed.samples.imp fun written sample h => ?_
  obtain ⟨refs, hyield, hframes⟩ := stackFrames_of_recalls hin.wellFormed hholds h
  refine ⟨h.timestampNs, h.processId, refs, hyield, hframes.length_eq.symm, ?_⟩
  intro ref hmem hunpinned
  obtain ⟨frame, hrecalled⟩ := exists_of_mem_right hframes hmem
  rw [hholds.modules, hholds.frameContexts, h.processId]
  exact hrecalled.resolved hunpinned

/-- The same address, sampled before and after its module is deactivated. -/
def mappedModule : ModuleRecord where
  id := 0
  owner := .process ⟨1, Pid.one_pos⟩
  start := 4096
  stop := 8192
  fileOffset := 512
  inode := 3
  deviceMajor := 8
  deviceMinor := 1
  inodeGeneration := 0
  path := ⟨[47, 97]⟩
  jitSymbols := none

def unpinnedFrame : FrameRecord := ⟨none, 5000, 5000, .user⟩

def twoEpochOps : List Op :=
  [.writeModule mappedModule, .writeSampleFrames 7 1 1 [unpinnedFrame],
    .writeModuleDeactivation 1, .writeSampleFrames 9 1 1 [unpinnedFrame]]

def twoEpochFile : Mmap where
  bytes := CURRENT_MAGIC ++ [0, 0, 0] ++
    [1, 0, 2, 128, 32, 128, 64, 128, 4, 3, 8, 1, 0, 0, 2, 47, 97] ++
    [2, 0, 1, 136, 39] ++ [3, 0, 255, 255, 255, 255, 15, 0] ++ [4, 0, 2, 1] ++ [5, 14, 0, 0] ++
    [7, 2] ++ [2, 1, 1, 136, 39] ++ [3, 1, 255, 255, 255, 255, 15, 1] ++ [5, 4, 0, 1]
  length_lt := by decide

/-- The first sample resolves in the module, the second one in nothing. -/
theorem unpinned_frames_resolve_in_two_epochs : ∃ opened first second,
    openSpoolWithRangeLimit Varint.standard .retain 4 twoEpochFile = .ok opened ∧
      opened.samples = [first, second] ∧
      ResolvesInEpoch opened ⟨7, 1, 1, [unpinnedFrame], [mappedModule]⟩ first ∧
      ResolvesInEpoch opened ⟨9, 1, 1, [unpinnedFrame], []⟩ second := by
  have hbytes : twoEpochFile.bytes =
      (session Varint.standard (⟨[]⟩ : Vec) ⟨0, 0, none⟩ twoEpochOps).2.writer.inner.bytes := by
    decide +kernel
  have hwritten : writtenSamples [] twoEpochOps
      (session Varint.standard (⟨[]⟩ : Vec) ⟨0, 0, none⟩ twoEpochOps).1 =
        [⟨7, 1, 1, [unpinnedFrame], [mappedModule]⟩, ⟨9, 1, 1, [unpinnedFrame], []⟩] := by
    decide +kernel
  have haccepted : (openSpoolWithRangeLimit Varint.standard .retain 4 twoEpochFile).toOption.isSome
      := by decide +kernel
  rcases hopen : openSpoolWithRangeLimit Varint.standard .retain 4 twoEpochFile with e | opened
  · rw [hopen] at haccepted
    cases haccepted
  have hresolves := unpinned_frames_resolve_in_epoch Varint.standard ⟨0, 0, none⟩ twoEpochOps
    twoEpochFile hbytes 4 opened hopen
  rw [hwritten] at hresolves
  rcases hsamples : opened.samples with _ | ⟨first, _ | ⟨second, _ | _⟩⟩
  all_goals rw [hsamples] at hresolves
  · cases hresolves
  · rcases hresolves with _ | ⟨_, hrest⟩
    cases hrest
  · rcases hresolves with _ | ⟨hfirst, _ | ⟨hsecond, _⟩⟩
    exact ⟨opened, first, second, rfl, hsamples, hfirst, hsecond⟩
  · rcases hresolves with _ | ⟨_, _ | ⟨_, hrest⟩⟩
    cases hrest

end StackPulse.Resolution
