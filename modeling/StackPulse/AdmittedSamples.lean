import StackPulse.Acceptance
import StackPulse.IdSpaces
import StackPulse.Resolution
import StackPulse.SampleAdmission
import StackPulse.SampledThreads

/-!
Admitted samples and the reader. Admission checks that the ids of a sample fit in
`i32` and that the thread is not the idle one; the reader wants both ids positive.
The two differ for process 0, and there one sample makes the file unreadable.
-/
namespace StackPulse.AdmittedSamples

open Bytes Varint Model Decode DecodeFacts Output Encode Writer Plans Sessions Interning Records
  OpenSpool WireFacts WireRuns Recall Acceptance SampledThreads SampleAdmission Visibility IdSpaces
  Attempts

variable {modules : List ModuleRecord} {frames : List FrameRecord} {s : ReaderState}

/-- A frame that names a module lies in it: the module was written, and the file address is
one of its addresses. -/
def Located (modules : List ModuleRecord) (frame : FrameRecord) : Prop :=
  ∀ id, frame.moduleId = some id → ∃ module, modules[id.toNat]? = some module ∧
    module.fileOffset.toNat ≤ frame.fileRelativeIp.toNat ∧
    frame.fileRelativeIp.toNat + module.start.toNat <
      module.stop.toNat + module.fileOffset.toNat

theorem exists_pinned {id : UInt32} {module : ModuleRecord} {address : UInt64}
    (hle : module.fileOffset.toNat ≤ address.toNat)
    (hlt : address.toNat + module.start.toNat < module.stop.toNat + module.fileOffset.toNat) :
    ∃ found, pinnedFrame id module address = .ok found := by
  have hstop := module.stop.toNat_lt
  have hsub : (address - module.fileOffset).toNat = address.toNat - module.fileOffset.toNat :=
    UInt64.toNat_sub_of_le _ _ hle
  have hsum : (module.start + (address - module.fileOffset)).toNat =
      module.start.toNat + (address.toNat - module.fileOffset.toNat) := by
    rw [UInt64.toNat_add, hsub, Nat.mod_eq_of_lt (by omega)]
  refine ⟨⟨some id, address, module.start + (address - module.fileOffset),
    frameMode module.isKernel⟩, pinnedFrame_ok.mpr ⟨rfl, rfl, ?_, ?_, ?_, rfl⟩⟩
  all_goals
    simp only [hsum]
    omega

/-- A frame that names a module is written as that module and the file address. -/
theorem compactFrame_pinned {frame : FrameRecord} {key : UInt64 × UInt64} {id : UInt32}
    (hkey : compactFrame frame = .ok key) (hid : frame.moduleId = some id) :
    key = (id.toUInt64 <<< 1, frame.fileRelativeIp) := by
  unfold compactFrame at hkey
  by_cases hmode : frame.mode = .truncatedStackMarker
  · rw [if_pos hmode] at hkey
    by_cases hmarker : frame = .truncatedStackMarker
    · rw [hmarker] at hid
      cases hid
    · rw [if_pos hmarker] at hkey
      cases hkey
  · rw [if_neg hmode, hid] at hkey
    cases hkey
    rfl

theorem compactFrame_unpinned {frame : FrameRecord} {key : UInt64 × UInt64}
    (hkey : compactFrame frame = .ok key) (hid : frame.moduleId = none) :
    ∃ found, frameFromWire modules key.1 key.2 = .ok found := by
  unfold compactFrame at hkey
  by_cases hmode : frame.mode = .truncatedStackMarker
  · rw [if_pos hmode] at hkey
    by_cases hmarker : frame ≠ .truncatedStackMarker
    · rw [if_pos hmarker] at hkey
      cases hkey
    · rw [if_neg hmarker] at hkey
      cases hkey
      exact ⟨_, rfl⟩
  rw [if_neg hmode, hid] at hkey
  cases hkey
  by_cases hkernel : frame.mode = .kernel
  · rw [if_pos hkernel]
    exact ⟨_, frameFromWire_unpinned modules frame.absIp true⟩
  · rw [if_neg hkernel]
    exact ⟨_, frameFromWire_unpinned modules frame.absIp false⟩

theorem Located.placeable {frame : FrameRecord} (h : Located modules frame) :
    Placeable modules frame := by
  intro key hkey
  rcases hid : frame.moduleId with _ | id
  · exact compactFrame_unpinned hkey hid
  · obtain ⟨module, hget, hle, hlt⟩ := h id hid
    obtain ⟨found, hfound⟩ := exists_pinned hle hlt
    rw [compactFrame_pinned hkey hid]
    exact ⟨found, (frameFromWire_pinned hget frame.fileRelativeIp).trans hfound⟩

/-- A frame that the reader places lies in the module it names. -/
theorem located_of_wire {frame found : FrameRecord} {key : UInt64 × UInt64}
    (hkey : compactFrame frame = .ok key)
    (hfound : frameFromWire modules key.1 key.2 = .ok found) : Located modules frame := by
  intro id hid
  have hfound : frameFromWire modules (id.toUInt64 <<< 1) frame.fileRelativeIp = .ok found := by
    rw [compactFrame_pinned hkey hid] at hfound
    exact hfound
  have hlt := frameFromWire_bounded hfound
  have hget := List.getElem?_eq_getElem hlt
  rw [frameFromWire_pinned hget] at hfound
  obtain ⟨-, haddress, hpinned⟩ := pinnedFrame_ok.mp hfound
  have hstart := hpinned.start_le
  have hstop := hpinned.lt_stop
  have hfile := hpinned.fileRelative
  rw [haddress] at hfile
  exact ⟨_, hget, by omega, by omega⟩

variable {V : IntegerEncoding}

theorem planOps_concat (ops : List Op) (op : Op) (c : Caches) :
    planOps (ops ++ [op]) c =
      ((planOps ops c).1 ++ (op.plan (c.absorbAll (planOps ops c).1)).1,
        (planOps ops c).2 ++ [(op.plan (c.absorbAll (planOps ops c).1)).2]) := by
  induction ops generalizing c with
  | nil => simp [planOps, Caches.absorbAll]
  | cons first ops ih =>
    rw [List.cons_append, planOps_cons, planOps_cons, ih, ← Caches.absorbAll_append]
    simp

/-- A written sample that is read belongs to a process, and its frames lie in their modules. -/
theorem sample_of_reads {c : Caches} {t : ReaderState} (hin : InStep c s) {timestampNs : UInt64}
    {processId : Int32} {threadId : UInt64} {values : List DecodedSpoolRecord} {stackId : UInt32}
    (hreads : Reads s (planSample timestampNs processId threadId frames c).1 values t)
    (hresult : (planSample timestampNs processId threadId frames c).2 = .ok (some stackId)) :
    0 < processId ∧ ∀ frame ∈ frames, Located s.modules frame := by
  have hfollowed := plan_followed (.writeSampleFrames timestampNs processId threadId frames) hin
    hreads
  have hframes : frames ≠ [] := by
    rintro rfl
    cases hresult
  have hwritten : writtenSample (activeModules s)
      (.writeSampleFrames timestampNs processId threadId frames)
      (planSample timestampNs processId threadId frames c).2 =
        some ⟨timestampNs, processId, threadId, frames, activeModules s⟩ := by
    rw [hresult]
    exact if_neg hframes
  have hmodules : t.modules = s.modules := hfollowed.modules.trans (List.append_nil _)
  have hsamples := hfollowed.samples
  change List.Forall₂ (Recalls t) (writtenSample _ _ (planSample timestampNs processId threadId
    frames c).2).toList _ at hsamples
  rw [hwritten] at hsamples
  obtain ⟨sample, -, hrecalls, -, -⟩ := List.forall₂_cons_left_iff.mp hsamples
  have hprocess : sample.processId.get = processId := hrecalls.processId
  obtain ⟨chain, refs, -, -, hrecalled⟩ := hrecalls.stack
  refine ⟨?_, fun frame hmem => ?_⟩
  · rw [← hprocess]
    exact sample.processId.pos
  · refine ((List.forall₂_and_left _ _).mp (hrecalled.imp fun frame ref h => ⟨?_, h⟩)).1 frame hmem
    obtain ⟨key, hkey, hwire⟩ := h.decoded
    rw [hmodules] at hwire
    exact located_of_wire hkey hwire

/-- The reader goes through the records of a sample of a process other than 0, and through
those of a call that writes no sample. -/
theorem reads_of_sample {c : Caches} (hin : InStep c s) {timestampNs : UInt64} {processId : Int32}
    {threadId : UInt64} (htid : ∃ tid, tidTryFrom threadId = .ok tid)
    (hframes : ∀ frame ∈ frames, Located s.modules frame)
    (h : 0 < processId ∨ ∀ stackId,
      (planSample timestampNs processId threadId frames c).2 ≠ .ok (some stackId)) :
    ∃ values t, Reads s (planSample timestampNs processId threadId frames c).1 values t := by
  refine reads_of_acceptable hin
    (planSample_cases timestampNs processId threadId frames hin.sane).1 fun record hmem => ?_
  have hclean := (planSample_clean (fun frame hframe => (hframes frame hframe).placeable)
    timestampNs processId threadId).records c record hmem
  rcases h with hpid | hnone
  · exact hclean.clean hpid htid
  · rcases hplan : planSample timestampNs processId threadId frames c with ⟨records, result⟩
    rw [hplan] at hmem hnone
    rcases planSample_split hplan with ⟨hnodes, -⟩ | ⟨_, _, _, _, stackId, -, -, hresult, -⟩
    · rcases hclean with hclean | ⟨id, rfl⟩
      · exact hclean
      · exact (hnodes _ hmem).elim
    · exact absurd hresult (hnone stackId)

theorem pid_pos_iff {task : UInt32 × UInt32} {sample : PreparedSampleMeta}
    (h : Admitted task sample) : 0 < sample.pid ↔ task.1 ≠ 0 := by
  have hzero : (0 : UInt32).toNat = 0 := rfl
  rw [Int32.lt_iff_toInt_lt, h.pid, ne_eq, ← UInt32.toNat_inj, hzero]
  show (0 : ℤ) < _ ↔ _
  omega

/-- A readable file and a call that writes an admitted sample with frames that lie in the modules
they name: the file stays readable unless the process is 0, the stack has frames and the writer
finds nothing to refuse. Behind a call that is not refused, no other frames are readable. -/
theorem admitted_sample_readable (V : IntegerEncoding) (header : SpoolHeader) (ops : List Op)
    (storage : SampleStorage) (rangeLimit : ℕ) (mmap : Mmap) (opened : OpenedSpool)
    (hbytes : mmap.bytes = (session V (⟨[]⟩ : Vec) header ops).2.writer.inner.bytes)
    (hopen : openSpoolWithRangeLimit V storage rangeLimit mmap = .ok opened)
    (summary : RecordingSummary) (task : UInt32 × UInt32) (timestampNs : Option UInt64)
    (sample : PreparedSampleMeta)
    (hsample : (prepareSampleMeta summary (some task) timestampNs).1 = some sample)
    (frames : List FrameRecord) (mmap' : Mmap)
    (hbytes' : mmap'.bytes = (session V (⟨[]⟩ : Vec) header (ops ++ [.writeSampleFrames
      sample.timestampNs sample.pid sample.tid frames])).2.writer.inner.bytes) :
    ((∀ frame ∈ frames, Located opened.definitions.modules frame) →
      ((∃ opened', openSpoolWithRangeLimit V storage rangeLimit mmap' = .ok opened') ↔
        task.1 ≠ 0 ∨ frames = [] ∨ ¬SampleFits (session V (⟨[]⟩ : Vec) header ops).2.toCaches
          sample.timestampNs sample.pid sample.tid frames)) ∧
    (SampleFits (session V (⟨[]⟩ : Vec) header ops).2.toCaches sample.timestampNs sample.pid
        sample.tid frames →
      (∃ opened', openSpoolWithRangeLimit V storage rangeLimit mmap' = .ok opened') →
      ∀ frame ∈ frames, Located opened.definitions.modules frame) := by
  have hadmitted := admitted_of_prepare hsample
  rw [session_buffered] at hbytes hbytes' ⊢
  have hfile : mmap.bytes = file V header (planOps ops .empty).1 := hbytes
  obtain ⟨values, t, hreads⟩ := reads_of_open hfile hopen
  have hin := inStep_initial.absorbAll (planOps_planned ops sane_empty) hreads
  have hmodules : opened.definitions.modules = t.modules := by
    obtain ⟨entries, d, hreading, -⟩ := reading_of_reads hfile hreads
    rw [hreading.open_eq_ok storage rangeLimit rfl] at hopen
    cases hopen
    exact (hreading.finish_holds storage rangeLimit false).modules
  have htid : ∃ tid, tidTryFrom sample.tid = .ok tid := by
    apply exists_tid
    · rw [hadmitted.tid]
      exact hadmitted.tid_pos
    · rw [hadmitted.tid]
      exact hadmitted.tid_lt
  rw [planOps_concat] at hbytes'
  rw [← pid_pos_iff hadmitted, hmodules]
  change (_ → (_ ↔ _ ∨ _ ∨ ¬SampleFits (Caches.empty.absorbAll (planOps ops .empty).1) _ _ _ _)) ∧
    (SampleFits (Caches.empty.absorbAll (planOps ops .empty).1) _ _ _ _ → _)
  set c := Caches.empty.absorbAll (planOps ops .empty).1
  have hwritten := fun hframes : frames ≠ [] => sample_written_iff (numbered_of_inStep hin)
    hin.sane hframes sample.timestampNs sample.pid sample.tid
  -- What the reader has to have found, if it went through the records of a written sample.
  have hread : frames ≠ [] → SampleFits c sample.timestampNs sample.pid sample.tid frames →
      (∃ opened', openSpoolWithRangeLimit V storage rangeLimit mmap' = .ok opened') →
      0 < sample.pid ∧ ∀ frame ∈ frames, Located t.modules frame := by
    rintro hframes hfits ⟨opened', hopen'⟩
    obtain ⟨values', t', hreads'⟩ := reads_of_open hbytes' hopen'
    obtain ⟨u, first, rest, hfirst, hrest, -⟩ := hreads'.split
    obtain ⟨-, rfl⟩ := hreads.unique hfirst
    obtain ⟨stackId, hstack⟩ := (hwritten hframes).mpr hfits
    exact sample_of_reads hin hrest hstack
  refine ⟨fun hlocated => ⟨fun hopened => ?_, fun h => ?_⟩, fun hfits hopened frame hmem => ?_⟩
  · by_contra hnot
    obtain ⟨hpid, hnot⟩ := not_or.mp hnot
    obtain ⟨hframes, hfits⟩ := not_or.mp hnot
    exact hpid (hread hframes (not_not.mp hfits) hopened).1
  · have hnone : 0 < sample.pid ∨ ∀ stackId, (planSample sample.timestampNs sample.pid sample.tid
        frames c).2 ≠ .ok (some stackId) := by
      refine h.imp_right fun h stackId hstack => ?_
      have hframes : frames ≠ [] := by
        rintro rfl
        cases hstack
      exact h.resolve_left hframes ((hwritten hframes).mp ⟨stackId, hstack⟩)
    obtain ⟨more, u, hmore⟩ := reads_of_sample hin htid hlocated hnone
    obtain ⟨entries, d, hreading, -⟩ := reading_of_reads hbytes' (hreads.append hmore)
    exact ⟨_, hreading.open_eq_ok storage rangeLimit rfl⟩
  · exact (hread (List.ne_nil_of_mem hmem) hfits hopened).2 frame hmem

/-- A frame in the module of the file, below one that an earlier sample has. -/
def laterFrames : List FrameRecord := [⟨some 0, 1416, 5000, .user⟩, Resolution.unpinnedFrame]

/-- The file with one more sample, of the process with this id on the wire. -/
def laterFile (process : UInt8) : Mmap where
  bytes := Resolution.twoEpochFile.bytes ++ [2, 2, 0, 136, 11] ++ [3, 2, 1, 2] ++
    [4, 1, process, 9] ++ [5, 1, 1, 2]
  length_lt := by
    simp only [List.length_append, List.length_cons, List.length_nil]
    decide

/-- The sample is read back for process 2, and makes the file unreadable for process 0. -/
theorem admitted_sample_readable_later :
    (∃ opened, openSpoolWithRangeLimit Varint.standard .retain 4 (laterFile 4) = .ok opened) ∧
      ¬∃ opened, openSpoolWithRangeLimit Varint.standard .retain 4 (laterFile 0) = .ok opened := by
  have hbytes : Resolution.twoEpochFile.bytes = (session Varint.standard (⟨[]⟩ : Vec) ⟨0, 0, none⟩
      Resolution.twoEpochOps).2.writer.inner.bytes := by
    decide +kernel
  have hmodules : (openSpoolWithRangeLimit Varint.standard .retain 4
      Resolution.twoEpochFile).toOption.map (·.definitions.modules) =
        some [Resolution.mappedModule] := by
    decide +kernel
  obtain ⟨opened, hopen, hmodules⟩ := exists_ok_of_toOption hmodules
  have hlocated : ∀ frame ∈ laterFrames, Located opened.definitions.modules frame := by
    rw [hmodules]
    refine List.forall_mem_cons.mpr ⟨?_, List.forall_mem_singleton.mpr ?_⟩
    · intro id hid
      cases hid
      exact ⟨_, rfl, by decide, by decide⟩
    · intro id hid
      cases hid
  have hdelta : checkedSampleTimestampDelta (session Varint.standard (⟨[]⟩ : Vec) ⟨0, 0, none⟩
      Resolution.twoEpochOps).2.toCaches.lastTimestampNs 8 = .ok (-1) :=
    eq_ok_of_toOption (by decide +kernel)
  have hwire : ∀ frame ∈ laterFrames.reverse, ∃ key, compactFrame frame = .ok key :=
    List.forall_mem_cons.mpr ⟨⟨_, rfl⟩, List.forall_mem_singleton.mpr ⟨_, rfl⟩⟩
  have hfits : SampleFits (session Varint.standard (⟨[]⟩ : Vec) ⟨0, 0, none⟩
      Resolution.twoEpochOps).2.toCaches 8 0 9 laterFrames :=
    ⟨⟨-1, hdelta⟩, ⟨hwire, by decide +kernel, by decide +kernel⟩, by decide +kernel⟩
  have hlater := fun task sample hsample mmap hbytes' =>
    (admitted_sample_readable Varint.standard ⟨0, 0, none⟩ Resolution.twoEpochOps .retain 4
      Resolution.twoEpochFile opened hbytes hopen .default task (some 8) sample hsample laterFrames
      mmap hbytes').1 hlocated
  refine ⟨?_, fun hopened => ?_⟩
  · exact (hlater (2, 9) ⟨8, 2, 9⟩ (by decide +kernel) (laterFile 4) (by decide +kernel)).mpr
      (.inl (by decide))
  · rcases (hlater (0, 9) ⟨8, 0, 9⟩ (by decide +kernel) (laterFile 0) (by decide +kernel)).mp
      hopened with hpid | hframes | hrefused
    · exact hpid rfl
    · cases hframes
    · exact hrefused hfits

/-- A sample of process 0 in an empty file. -/
def zeroPidFile : Mmap where
  bytes := CURRENT_MAGIC ++ [0, 0, 0] ++ [2, 0, 5, 0] ++ [3, 0, 255, 255, 255, 255, 15, 0] ++
    [4, 0, 0, 5] ++ [5, 14, 0, 0]
  length_lt := by decide

/-- It is admitted and written, and the reader refuses the file. -/
theorem admitted_sample_unreadable :
    (prepareSampleMeta .default (some (0, 5)) (some 7)).1 = some ⟨7, 0, 5⟩ ∧
      (session Varint.standard (⟨[]⟩ : Vec) ⟨0, 0, none⟩
        [.writeSampleFrames 7 0 5 [.truncatedStackMarker]]).1 = [.ok (some 0)] ∧
      zeroPidFile.bytes = (session Varint.standard (⟨[]⟩ : Vec) ⟨0, 0, none⟩
        [.writeSampleFrames 7 0 5 [.truncatedStackMarker]]).2.writer.inner.bytes ∧
      openSpoolWithRangeLimit Varint.standard .retain 4 zeroPidFile matches
        .error (.io (.new .invalidData
          "invalid process id 0 (record tag 4 at byte offset 23)")) := by
  refine ⟨?_, ?_, ?_, ?_⟩ <;> decide +kernel

end StackPulse.AdmittedSamples
