import StackPulse.ModuleRuns
import StackPulse.RoundTrip

/-!
Recorder and reader. Changes of the module table and samples come in any order, and a
sample is written with the frames that the table resolves at that moment. The reader
goes through the spool and gives every frame the module and the file address that the
table reported, and at the end it has the modules of the table.
-/
namespace StackPulse.RecorderAgreement

open Bytes Varint Model FrameContexts Visibility Decode Output Writer Sessions Interning Records
  OpenSpool WireRuns Stacks Recall Acceptance Resolution RoundTrip Attempts Modules ModuleSearch
  ModuleRepresentation ModuleChanges ModuleRuns

variable {m : ModuleRecord}

/-- A call to the table, or a sample at some addresses. -/
inductive RecorderEvent
  | table (call : TableCall)
  | sample (timestampNs : UInt64) (processId : Int32) (threadId : UInt64)
      (ips : List (UInt64 × FrameMode))

section

variable {σ : Type} (write : Op → σ → Except Stop Unit × σ)

/-- Resolve the addresses of a sample. -/
def resolveAll (processId : Int32) : List (UInt64 × FrameMode) → Recording σ (List FrameRecord)
  | [] => return []
  | (absIp, mode) :: ips => do
      let frame ← resolveFrame processId absIp mode
      let frames ← resolveAll processId ips
      return frame :: frames

def RecorderEvent.perform : RecorderEvent → Recording σ Unit
  | .table call => call.perform write
  | .sample timestampNs processId threadId ips => do
      let frames ← resolveAll processId ips
      emit write (.writeSampleFrames timestampNs processId threadId frames)

/-- Go through the events one after another. -/
def recordAll : List RecorderEvent → Recorder σ → Recorder σ
  | [], s => s
  | event :: events, s => recordAll events (event.perform write s).2

end

section

variable {σ : Type} {write : Op → σ → Except Stop Unit × σ} {writer : σ} {log : List Op}
  {s : Recorder σ}

section

variable (hs : Recorded write writer log s)

include hs

theorem resolveAll_ok (processId : Int32) (ips : List (UInt64 × FrameMode)) :
    ∃ s', resolveAll processId ips s =
        (.ok (ips.map fun ip => frameIn (activeOf log) processId ip.1 ip.2), s') ∧
      Recorded write writer log s' := by
  induction ips generalizing s with
  | nil => exact ⟨s, rfl, hs⟩
  | cons ip ips ih =>
    obtain ⟨absIp, mode⟩ := ip
    obtain ⟨s', hframe, hs'⟩ := resolveFrame_ok hs processId absIp mode
    obtain ⟨s'', hframes, hs''⟩ := ih hs'
    refine ⟨s'', ?_, hs''⟩
    rw [resolveAll, bind_of_ok hframe, bind_of_ok hframes]
    rfl

/-- Every event keeps the table and the calls in step. -/
theorem event_recorded (event : RecorderEvent) :
    ∃ ops, Recorded write writer (log ++ ops) (event.perform write s).2 := by
  cases event with
  | table call => exact (perform_performed hs call).recorded
  | sample timestampNs processId threadId ips =>
    obtain ⟨s', hframes, hs'⟩ := resolveAll_ok hs processId ips
    refine ⟨[.writeSampleFrames timestampNs processId threadId
      (ips.map fun ip => frameIn (activeOf log) processId ip.1 ip.2)], ?_⟩
    have hperform : RecorderEvent.perform write (.sample timestampNs processId threadId ips) s =
        emit write (.writeSampleFrames timestampNs processId threadId
          (ips.map fun ip => frameIn (activeOf log) processId ip.1 ip.2)) s' := bind_of_ok hframes
    rw [hperform]
    refine hs'.extend _ (fun _ => rfl) hs'.table ⟨fun frame hframe => ?_, rfl⟩
    obtain ⟨ip, -, rfl⟩ := List.mem_map.mp hframe
    exact ⟨ip.1, ip.2, rfl⟩

theorem recordAll_recorded (events : List RecorderEvent) :
    ∃ ops, Recorded write writer (log ++ ops) (recordAll write events s) := by
  induction events generalizing log s with
  | nil => exact ⟨[], by rwa [List.append_nil]⟩
  | cons event events ih =>
    obtain ⟨ops, hs'⟩ := event_recorded hs event
    obtain ⟨more, hrest⟩ := ih hs'
    exact ⟨ops ++ more, by rw [← List.append_assoc]; exact hrest⟩

end

end

/-- Every active module stands where its id says. -/
def Placed (modules active : List ModuleRecord) : Prop :=
  ∀ m ∈ active, modules[m.id.toNat]? = some m

theorem Placed.append {modules active : List ModuleRecord} (h : Placed modules active)
    (more : List ModuleRecord) : Placed (modules ++ more) active := by
  intro m hm
  have hget := h m hm
  rw [List.getElem?_append_left (List.getElem?_eq_some_iff.mp hget).1]
  exact hget

section

variable {active modules : List ModuleRecord} {processId : Int32} {absIp : UInt64}
  {mode : FrameMode}

theorem mem_of_newestAround {owner : Option ModuleOwner}
    (h : newestAround active owner absIp = some m) :
    m ∈ active ∧ owner = some m.owner ∧ Around m absIp := by
  have hdecide := List.find?_some h
  exact ⟨List.mem_reverse.mp (List.mem_of_find?_eq_some h), of_decide_eq_true hdecide⟩

/-- A frame is pinned to a module around it, or it is not pinned. -/
theorem frameIn_cases (active : List ModuleRecord) (processId : Int32) (absIp : UInt64)
    (mode : FrameMode) :
    (∃ m ∈ active, frameOwner processId mode = some m.owner ∧ Around m absIp ∧
      newestAround active (frameOwner processId mode) absIp = some m ∧
      ∃ fileRelativeIp, addressIn m ⟨none, absIp, absIp, mode⟩ = some fileRelativeIp ∧
        frameIn active processId absIp mode = ⟨some m.id, fileRelativeIp, absIp, mode⟩) ∨
    frameIn active processId absIp mode = ⟨none, absIp, absIp, mode⟩ ∧
      (newestAround active (frameOwner processId mode) absIp).bind
        (fun m => addressIn m ⟨none, absIp, absIp, mode⟩) = none := by
  unfold frameIn
  rcases hnewest : newestAround active (frameOwner processId mode) absIp with _ | m
  · exact .inr ⟨rfl, rfl⟩
  · obtain ⟨hm, howner, haround⟩ := mem_of_newestAround hnewest
    rw [Option.map_some, frameFor_around haround]
    rcases haddress : addressIn m ⟨none, absIp, absIp, mode⟩ with _ | fileRelativeIp
    · exact .inr ⟨rfl, haddress⟩
    · exact .inl ⟨m, hm, howner, haround, rfl, fileRelativeIp, haddress, rfl⟩

theorem frameMode_of_owner (h : frameOwner processId mode = some m.owner) :
    mode = frameMode m.isKernel := by
  unfold ModuleRecord.isKernel
  cases mode with
  | user =>
    obtain ⟨pid, -, howner⟩ := Option.map_eq_some_iff.mp h
    rw [← howner]
    rfl
  | kernel =>
    rw [← Option.some.inj h]
    rfl
  | truncatedStackMarker => cases h

theorem toNat_of_addressIn {frame : FrameRecord} {address : UInt64}
    (h : addressIn m frame = some address) :
    address.toNat = frame.absIp.toNat - m.start.toNat + m.fileOffset.toNat := by
  unfold addressIn at h
  simp only at h
  split at h
  · rename_i hlt
    rw [← Option.some.inj h]
    exact UInt64.toNat_ofNat_of_lt' hlt
  · cases h

/-- A resolved frame that the writer takes is valid. -/
theorem frameIn_valid (hplaced : Placed modules active) {key : UInt64 × UInt64}
    (hkey : compactFrame (frameIn active processId absIp mode) = .ok key) :
    ValidFrame modules (frameIn active processId absIp mode) := by
  rcases frameIn_cases active processId absIp mode with
    ⟨m, hm, howner, haround, -, fileRelativeIp, haddress, hframe⟩ | ⟨hframe, -⟩
  · rw [hframe]
    refine .pinned m.id m rfl (hplaced m hm) ⟨haround.1, haround.2, ?_, frameMode_of_owner howner⟩
    show absIp.toNat + m.fileOffset.toNat = fileRelativeIp.toNat + m.start.toNat
    have hstart := haround.1
    have hfile : fileRelativeIp.toNat = absIp.toNat - m.start.toNat + m.fileOffset.toNat :=
      toNat_of_addressIn haddress
    omega
  · rw [hframe] at hkey ⊢
    by_cases hmode : mode = .truncatedStackMarker
    · subst hmode
      refine .marker ?_
      by_contra hne
      unfold compactFrame at hkey
      rw [if_pos rfl, if_pos hne] at hkey
      cases hkey
    · exact .unpinned rfl hmode rfl

/-- A frame that the table leaves unpinned resolves to no module. -/
theorem resolveIn_frameIn (h : (frameIn active processId absIp mode).moduleId = none) :
    resolveIn active processId (frameIn active processId absIp mode) = none := by
  rcases frameIn_cases active processId absIp mode with
    ⟨m, -, -, -, -, fileRelativeIp, -, hframe⟩ | ⟨hframe, hnone⟩
  · rw [hframe] at h
    cases h
  · rw [hframe]
    unfold resolveIn
    have hsame : (active.reverse.find? fun m => Covers processId ⟨none, absIp, absIp, mode⟩ m) =
        newestAround active (frameOwner processId mode) absIp := rfl
    rw [hsame]
    rcases hnewest : newestAround active (frameOwner processId mode) absIp with _ | m
    · rfl
    · rw [hnewest, Option.bind_some] at hnone
      rw [Option.bind_some, hnone]
      rfl

end

/-- What the format asks of a call beyond what the table gives it: symbols within the limits of the
reader, and ids of a process and of a thread. -/
def WithinFormat : Op → Prop
  | .writeModule m => ∀ symbols, m.jitSymbols = some symbols → ValidSymbols m symbols
  | .writeSampleFrames _ processId threadId _ =>
      0 < processId ∧ 0 < threadId.toNat ∧ threadId.toNat < 2 ^ 31
  | _ => True

section

variable {modules active : List ModuleRecord} {count next : ℕ} {ops : List Op}

/-- One call keeps the modules where their ids say. -/
theorem Placed.step {op : Op} (h : Placed modules active) (hissued : OpIssued count active op)
    (hcount : modules.length = count) :
    Placed (modules ++ (writtenModule op).toList) (activeAfter active op) := by
  cases op with
  | writeModule m =>
    intro m' hm'
    rcases List.mem_append.mp hm' with hm' | hm'
    · exact h.append _ m' hm'
    · have hid : m.id.toNat = modules.length := hissued.trans hcount.symm
      rw [List.mem_singleton.mp hm', hid]
      exact List.getElem?_concat_length
  | writeModuleDeactivation processId =>
    exact fun m hm => h.append _ m (List.mem_of_mem_filter hm)
  | writeModuleDeactivationOne id =>
    exact fun m hm => h.append _ m (List.mem_of_mem_filter hm)
  | _ => exact h.append _

theorem readableOps_of_issued (hissued : Issued count active ops next)
    (hcount : modules.length = count) (hplaced : Placed modules active)
    (hformat : ∀ op ∈ ops, WithinFormat op) : ReadableOps modules ops := by
  induction ops generalizing count active modules with
  | nil => trivial
  | cons op ops ih =>
    obtain ⟨hop, hrest⟩ := hissued
    have hfirst := hformat op (.head _)
    refine ⟨?_, ih hrest (by rw [List.length_append, hcount]) (hplaced.step hop hcount)
      fun op' hop' => hformat op' (.tail _ hop')⟩
    cases op with
    | writeModule m => exact ⟨hop.trans hcount.symm, hfirst⟩
    | writeSampleFrames timestampNs processId threadId frames =>
      refine ⟨hfirst, fun frame hframe key hkey => ?_⟩
      obtain ⟨absIp, mode, rfl⟩ := hop frame hframe
      exact (frameIn_valid hplaced hkey).placeable key hkey
    | writePythonRuntime timestampNs processId isPythonRuntime => exact hop
    | writeModuleDeactivation processId => exact hop
    | writeModuleDeactivationOne id => exact hop.trans_eq hcount.symm
    | flush => trivial

/-- The frames of a written sample are those that the table resolved, among modules that are all
known at the end. -/
theorem written_of_issued (hissued : Issued count active ops next)
    (hcount : modules.length = count) (hplaced : Placed modules active) {outcomes : List Outcome}
    {written : WrittenSample} (hwritten : written ∈ writtenSamples active ops outcomes) :
    Placed (modules ++ ops.filterMap writtenModule) written.active ∧
      ∀ frame ∈ written.frames, ∃ absIp mode,
        frame = frameIn written.active written.processId absIp mode := by
  induction ops generalizing count active modules outcomes with
  | nil => cases hwritten
  | cons op ops ih =>
    obtain ⟨hop, hrest⟩ := hissued
    rcases outcomes with _ | ⟨outcome, outcomes⟩
    · cases hwritten
    have hmodules : modules ++ (op :: ops).filterMap writtenModule =
        modules ++ (writtenModule op).toList ++ ops.filterMap writtenModule := by
      rw [List.append_assoc, filterMap_cons_toList]
    rw [hmodules]
    rcases List.mem_append.mp hwritten with hfirst | hlater
    · obtain ⟨rfl, rfl⟩ := call_of_writtenSample (Option.mem_toList.mp hfirst)
      rw [List.append_assoc]
      exact ⟨hplaced.append _, hop⟩
    · exact ih hrest (by rw [List.length_append, hcount]) (hplaced.step hop hcount) hlater

end

/-- The reader gives a frame the module and the file address that were reported. -/
structure FrameAgrees (opened : OpenedSpool) (processId : Int32) (frame : FrameRecord)
    (ref : StackFrameRef) : Prop where
  same : ref.frame = frame
  module : (moduleForFrameWithContext opened.definitions.modules opened.definitions.frameContexts
      ref.id processId ref.frame).map (fun found => (found.module.id, found.fileRelativeIp)) =
    frame.moduleId.map (·, frame.fileRelativeIp)

/-- The reader gives back a sample, frame by frame. -/
structure SampleAgrees (opened : OpenedSpool) (written : WrittenSample) (sample : SampleRecord) :
    Prop where
  timestampNs : sample.timestampNs = written.timestampNs
  processId : sample.processId.get = written.processId
  threadId : sample.threadId.get.toInt = written.threadId.toNat
  frames : ∃ refs, stackFrames opened.definitions sample.stackId = .ok refs ∧
    List.Forall₂ (FrameAgrees opened written.processId) written.frames refs

/-- The modules that no record has deactivated. -/
def notDeactivated (opened : OpenedSpool) : List ModuleRecord :=
  pick (fun i => (opened.definitions.frameContexts.moduleDeactivatedAt.get i).join.isNone)
    opened.definitions.modules

theorem frameAgrees_of_recalled {t : ReaderState} {opened : OpenedSpool} (hholds : Holds opened t)
    {written : WrittenSample} (hplaced : Placed t.modules written.active) {frame : FrameRecord}
    (hresolved : ∃ absIp mode, frame = frameIn written.active written.processId absIp mode)
    {ref : StackFrameRef} (h : FrameRecalled t written frame ref) :
    FrameAgrees opened written.processId frame ref := by
  obtain ⟨absIp, mode, rfl⟩ := hresolved
  obtain ⟨key, hkey, -⟩ := h.decoded
  have hsame := frame_of_recalled (frameIn_valid hplaced hkey) h
  refine ⟨hsame, ?_⟩
  rw [hholds.modules, hholds.frameContexts]
  rcases hmodule : (frameIn written.active written.processId absIp mode).moduleId with _ | id
  · rw [h.resolved (by rw [hsame]; exact hmodule), hsame, resolveIn_frameIn hmodule]
    rfl
  · rw [hsame]
    rcases frameIn_cases written.active written.processId absIp mode with
      ⟨m, hm, howner, -, -, fileRelativeIp, -, hframe⟩ | ⟨hframe, -⟩ <;> rw [hframe] at hmodule ⊢
    · cases hmodule
      have hmode : mode ≠ .truncatedStackMarker := by
        rintro rfl
        cases howner
      unfold moduleForFrameWithContext
      rw [if_neg hmode]
      simp only [hplaced m hm, Option.map_some]
    · cases hmodule

/-- Whatever the events are, the reader goes through the spool, gives back every sample with the
frames that the table resolved, and ends with the modules of the table. -/
theorem recorder_reader_agree (V : IntegerEncoding) (header : SpoolHeader)
    (events : List RecorderEvent)
    (hformat : ∀ op ∈ (recordAll keepCalls events ⟨.default, []⟩).writer, WithinFormat op)
    (mmap : Mmap) (hbytes : mmap.bytes = (session V (⟨[]⟩ : Vec) header
      (recordAll keepCalls events ⟨.default, []⟩).writer).2.writer.inner.bytes)
    (rangeLimit : ℕ) :
    ∃ opened, openSpoolWithRangeLimit V .retain rangeLimit mmap = .ok opened ∧
      List.Forall₂ (SampleAgrees opened)
        (writtenSamples [] (recordAll keepCalls events ⟨.default, []⟩).writer
          (session V (⟨[]⟩ : Vec) header
            (recordAll keepCalls events ⟨.default, []⟩).writer).1) opened.samples ∧
      ∀ m, m ∈ notDeactivated opened ↔
        (recordAll keepCalls events ⟨.default, []⟩).table.active.lookup m.id = some m := by
  have hdefault : Recorded keepCalls [] [] ⟨.default, []⟩ := recorded_default []
  obtain ⟨log, hs⟩ := recordAll_recorded hdefault events
  rw [List.nil_append] at hs
  have hlog : (recordAll keepCalls events ⟨.default, []⟩).writer = log := by
    have hwritten := hs.written keepCalls_neverFails
    rwa [feed_keepCalls, List.nil_append] at hwritten
  rw [hlog] at hformat hbytes ⊢
  rw [session_buffered] at hbytes ⊢
  have hfile : mmap.bytes = file V header (planOps log .empty).1 := hbytes
  have hplaced : Placed [] [] := fun m hm => by cases hm
  obtain ⟨values, t, hreads⟩ := planOps_reads_readable log inStep_initial
    (readableOps_of_issued hs.issued rfl hplaced hformat)
  obtain ⟨opened, hopen, hholds, hsamples, -⟩ := open_of_reads hfile hreads rangeLimit
  have hin := inStep_initial.absorbAll (planOps_planned log sane_empty) hreads
  have hfollowed := planOps_followed log inStep_initial hreads
  have hmodules : t.modules = log.filterMap writtenModule := hfollowed.modules
  refine ⟨opened, hopen, ?_, fun m => ?_⟩
  · rw [hsamples]
    refine List.forall₂_iff_zip.mpr ⟨hfollowed.samples.length_eq, fun {written sample} hmem => ?_⟩
    have h := List.forall₂_zip hfollowed.samples hmem
    obtain ⟨refs, hyield, hframes⟩ := stackFrames_of_recalls hin.wellFormed hholds h
    obtain ⟨hknown, hresolved⟩ := written_of_issued hs.issued rfl hplaced (List.of_mem_zip hmem).1
    rw [List.nil_append, ← hmodules] at hknown
    refine ⟨h.timestampNs, h.processId, toInt_of_tidTryFrom h.threadId, refs, hyield, ?_⟩
    refine List.forall₂_iff_zip.mpr ⟨hframes.length_eq, fun {frame ref} hpair => ?_⟩
    exact frameAgrees_of_recalled hholds hknown (hresolved frame (List.of_mem_zip hpair).1)
      (List.forall₂_zip hframes hpair)
  · have hactive : notDeactivated opened = activeOf log := by
      rw [← show activeModules t = activeOf log from hfollowed.active]
      unfold notDeactivated activeModules
      rw [hholds.modules, hholds.frameContexts]
      rfl
    rw [hactive, hs.table.byId]
    exact (and_iff_left rfl).symm

/-- A mapping, a sample in it and around it, the end of the process and one more sample. -/
def recordedEvents : List RecorderEvent :=
  [.table (.applyModule mappedModule),
    .sample 7 1 1 [(5000, .user), (9000, .user), (18446744071562067968, .kernel)],
    .table (.deactivateProcessModules 1),
    .sample 9 1 1 [(5000, .user)]]

/-- The calls that are made for them. -/
def recordedOps : List Op :=
  [.writeModule mappedModule,
    .writeSampleFrames 7 1 1
      [⟨some 0, 1416, 5000, .user⟩, ⟨none, 9000, 9000, .user⟩,
        ⟨none, 18446744071562067968, 18446744071562067968, .kernel⟩],
    .writeModuleDeactivation 1,
    .writeSampleFrames 9 1 1 [⟨none, 5000, 5000, .user⟩]]

def recordedFile : Mmap where
  bytes := CURRENT_MAGIC ++ [0, 0, 0] ++
    [1, 0, 2, 128, 32, 128, 64, 128, 4, 3, 8, 1, 0, 0, 2, 47, 97] ++
    [2, 0, 3, 128, 128, 128, 128, 248, 255, 255, 255, 255, 1] ++
    [3, 0, 255, 255, 255, 255, 15, 0] ++ [2, 1, 1, 168, 70] ++ [3, 1, 0, 1] ++
    [2, 2, 0, 136, 11] ++ [3, 2, 1, 2] ++ [4, 0, 2, 1] ++ [5, 14, 0, 2] ++ [7, 2] ++
    [2, 3, 1, 136, 39] ++ [3, 3, 255, 255, 255, 255, 15, 3] ++ [5, 4, 0, 3]
  length_lt := by decide

theorem recorder_reader_agree_recorded : ∃ opened,
    openSpoolWithRangeLimit Varint.standard .retain 4 recordedFile = .ok opened ∧
      List.Forall₂ (SampleAgrees opened)
        (writtenSamples [] (recordAll keepCalls recordedEvents ⟨.default, []⟩).writer
          (session Varint.standard (⟨[]⟩ : Vec) ⟨0, 0, none⟩
            (recordAll keepCalls recordedEvents ⟨.default, []⟩).writer).1) opened.samples ∧
      ∀ m, m ∈ notDeactivated opened ↔
        (recordAll keepCalls recordedEvents ⟨.default, []⟩).table.active.lookup m.id = some m := by
  have hmade : (recordAll keepCalls recordedEvents ⟨.default, []⟩).writer = recordedOps := by
    decide +kernel
  have hbytes : recordedFile.bytes =
      (session Varint.standard (⟨[]⟩ : Vec) ⟨0, 0, none⟩ recordedOps).2.writer.inner.bytes := by
    decide +kernel
  refine recorder_reader_agree Varint.standard ⟨0, 0, none⟩ recordedEvents ?_ recordedFile
    (by rw [hmade]; exact hbytes) 4
  rw [hmade]
  unfold recordedOps
  simp only [List.forall_mem_cons, List.not_mem_nil, false_implies, implies_true, and_true]
  refine ⟨fun symbols hsymbols => (by cases hsymbols), ?_, trivial, ?_⟩ <;>
    exact ⟨by decide, by decide, by decide⟩

/-- A mapping that carries a symbol, and one in its middle. -/
def symbolEvents : List RecorderEvent :=
  [.table (.applyModule { mappedModule with jitSymbols := some [⟨7000, 7100, "f"⟩] }),
    .table (.applyModule { mappedModule with start := 5000, stop := 6000 })]

/-- Their spool: the record of the left part has the symbol of the whole mapping. -/
def symbolFile : Mmap where
  bytes := CURRENT_MAGIC ++ [0, 0, 0] ++
    [9, 0, 2, 128, 32, 128, 64, 128, 4, 3, 8, 1, 0, 0, 2, 47, 97, 1, 216, 54, 188, 55, 1, 102] ++
    [8, 0] ++
    [9, 1, 2, 128, 32, 136, 39, 128, 4, 3, 8, 1, 0, 0, 2, 47, 97, 1, 216, 54, 188, 55, 1, 102] ++
    [9, 2, 2, 240, 46, 128, 64, 240, 18, 3, 8, 1, 0, 0, 2, 47, 97, 1, 216, 54, 188, 55, 1, 102] ++
    [1, 3, 2, 136, 39, 240, 46, 128, 4, 3, 8, 1, 0, 0, 2, 47, 97]
  length_lt := by decide

/-- The reader refuses a spool in which a part of a mapping lists a symbol that lies outside. -/
theorem part_with_symbols_refused :
    symbolFile.bytes = (session Varint.standard (⟨[]⟩ : Vec) ⟨0, 0, none⟩
      (recordAll keepCalls symbolEvents ⟨.default, []⟩).writer).2.writer.inner.bytes ∧
      openSpoolWithRangeLimit Varint.standard .retain 4 symbolFile matches
        .error (.io (.new .invalidData
          "JIT symbol outside its code range (record tag 9 at byte offset 37)")) := by
  refine ⟨?_, ?_⟩ <;> decide +kernel

end StackPulse.RecorderAgreement
