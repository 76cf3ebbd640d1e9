import StackPulse.Epochs

/-!
What a stream tells about the samples of a session. Each call that writes a sample
leaves a record from which the reader recovers its time, its thread and its
frames, and every frame without a module id resolves in the modules that were
active at that call. Nothing that is read later changes this.
-/
namespace StackPulse.Recall

open Attempts Model FrameContexts Decode DecodeFacts Encode Writer Plans Sessions Interning Records
  WireRecords WireRuns WireFacts Mirror Stacks Safety Visibility Epochs

variable {record : SpoolRecord} {value : DecodedSpoolRecord} {records : List SpoolRecord}

/-- The caches of the writer and the state of the reader after the same records. -/
structure InStep (c : Caches) (s : ReaderState) : Prop where
  sane : Sane c
  synced : Synced c s
  wellFormed : WellFormed s
  epoch : InEpoch c s

theorem inStep_initial : InStep .empty .initial :=
  ⟨sane_empty, synced_initial, wellFormed_initial, inEpoch_initial⟩

theorem InStep.absorb {c : Caches} {s t : ReaderState} (h : InStep c s)
    (hplanned : Planned c record) (hstep : step s record = .ok (value, t)) :
    InStep (c.absorb record) t :=
  ⟨sane_absorb h.sane hplanned, h.synced.absorb hplanned hstep,
    h.synced.wellFormed h.wellFormed hstep,
    h.epoch.absorb h.synced h.wellFormed hplanned hstep⟩

theorem InStep.absorbAll {c : Caches} {s t : ReaderState} (h : InStep c s)
    (hplanned : PlannedAll c records) {values : List DecodedSpoolRecord}
    (hreads : Reads s records values t) : InStep (c.absorbAll records) t := by
  induction hreads generalizing c with
  | nil s => exact h
  | cons hstep _ ih => exact ih (h.absorb hplanned.1 hstep) hplanned.2

/-- A sample that was written, with the modules that were active at that moment. -/
structure WrittenSample where
  timestampNs : UInt64
  processId : Int32
  threadId : UInt64
  frames : List FrameRecord
  active : List ModuleRecord
  deriving DecidableEq

/-- What is read back for a frame. -/
structure FrameRecalled (t : ReaderState) (written : WrittenSample) (frame : FrameRecord)
    (ref : StackFrameRef) : Prop where
  known : t.frames[ref.id.toNat]? = some ref.frame
  decoded : ∃ key, compactFrame frame = .ok key ∧
    frameFromWire t.modules key.1 key.2 = .ok ref.frame
  resolved : ref.frame.moduleId = none →
    moduleForFrameWithContext t.modules t.frameContexts ref.id written.processId ref.frame =
      resolveIn written.active written.processId ref.frame

/-- What is read back for a sample. -/
structure Recalls (t : ReaderState) (written : WrittenSample) (sample : SampleRecord) : Prop where
  timestampNs : sample.timestampNs = written.timestampNs
  processId : sample.processId.get = written.processId
  threadId : tidTryFrom written.threadId = .ok sample.threadId
  stack : ∃ chain refs, Chain t.stackNodes sample.stackId.toNat chain ∧
    List.Forall₂ (FrameOf t.frames) chain refs ∧
    List.Forall₂ (FrameRecalled t written) written.frames refs

theorem getElem?_mono {α : Type} {l l' : List α} (h : l <+: l') {i : ℕ} {a : α}
    (hget : l[i]? = some a) : l'[i]? = some a := by
  obtain ⟨more, rfl⟩ := h
  rw [List.getElem?_append_left (List.getElem?_eq_some_iff.mp hget).1]
  exact hget

theorem chain_mono {nodes nodes' : List StackNodeRecord} (h : nodes <+: nodes') {i : ℕ}
    {chain : List StackNodeRecord} (hchain : Chain nodes i chain) : Chain nodes' i chain := by
  induction hchain with
  | root hnode hroot => exact .root (getElem?_mono h hnode) hroot
  | link hnode hparent _ ih => exact .link (getElem?_mono h hnode) hparent ih

section

variable {c : Caches} {s t : ReaderState} {written : WrittenSample}

theorem FrameRecalled.step (hs : WellFormed s) (ht : WellFormed t)
    (hstep : WireRecords.step s record = .ok (value, t)) {frame : FrameRecord} {ref : StackFrameRef}
    (h : FrameRecalled s written frame ref) : FrameRecalled t written frame ref := by
  have hgrows := commit_grows (step_ok.mp hstep).2
  have hlt := (List.getElem?_eq_some_iff.mp h.known).1
  have hlt' := (List.getElem?_eq_some_iff.mp (getElem?_mono hgrows.frames h.known)).1
  obtain ⟨key, hkey, hwire⟩ := h.decoded
  obtain ⟨more, hmore⟩ := hgrows.modules
  refine ⟨getElem?_mono hgrows.frames h.known, ⟨key, hkey, ?_⟩, fun hunpinned => ?_⟩
  · rw [← hmore]
    exact frameFromWire_append hwire more
  · have hresolved := h.resolved hunpinned
    rw [moduleForFrameWithContext_eq hs hlt _ hunpinned] at hresolved
    rw [moduleForFrameWithContext_eq ht hlt' _ hunpinned,
      (advances_of_step hs hstep).seen ref.id hlt]
    exact hresolved

theorem Recalls.step (hs : WellFormed s) (ht : WellFormed t)
    (hstep : WireRecords.step s record = .ok (value, t)) {sample : SampleRecord}
    (h : Recalls s written sample) : Recalls t written sample := by
  have hgrows := commit_grows (step_ok.mp hstep).2
  obtain ⟨chain, refs, hchain, hrefs, hframes⟩ := h.stack
  refine ⟨h.timestampNs, h.processId, h.threadId, chain, refs,
    chain_mono hgrows.stackNodes hchain, ?_, ?_⟩
  · exact hrefs.imp fun node ref hnode => ⟨hnode.1, getElem?_mono hgrows.frames hnode.2⟩
  · exact hframes.imp fun frame ref hframe => hframe.step hs ht hstep

/-- Later records do not change what is read back for a sample. -/
theorem Recalls.later (hin : InStep c s) (hplanned : PlannedAll c records)
    {values : List DecodedSpoolRecord} (hreads : Reads s records values t) {sample : SampleRecord}
    (h : Recalls s written sample) : Recalls t written sample := by
  induction hreads generalizing c with
  | nil s => exact h
  | cons hstep _ ih =>
    have hnext := hin.absorb hplanned.1 hstep
    exact ih hnext hplanned.2 (h.step hin.wellFormed hnext.wellFormed hstep)

end

/-- An unpinned frame stands in the cache of its tag. -/
theorem cacheOfTag_of_unpinned {modules : List ModuleRecord} {tag address : UInt64}
    {frame : FrameRecord} (h : frameFromWire modules tag address = .ok frame)
    (hunpinned : frame.moduleId = none) : frameCacheOf frame = cacheOfTag tag := by
  unfold frameFromWire at h
  by_cases hmarker : tag = TRUNCATED_STACK_MARKER_TAG
  · rw [if_pos hmarker] at h
    split at h
    · cases h
    · cases h
      rw [hmarker]
      decide
  rw [if_neg hmarker] at h
  by_cases hpinned : tag &&& 1 = 0
  · rw [if_pos hpinned] at h
    obtain ⟨id, _, hframe⟩ := bind_ok.mp h
    split at hframe
    · cases hframe
    · obtain ⟨hid, _⟩ := pinnedFrame_ok.mp hframe
      rw [hid] at hunpinned
      cases hunpinned
  · rw [if_neg hpinned] at h
    cases h
    unfold cacheOfTag
    rw [if_neg (not_or.mpr ⟨hmarker, hpinned⟩)]
    by_cases hkernel : tag &&& 2 = 0 <;>
      simp [hkernel, frameCacheOf, frameMode, FrameRecord.isTruncatedStackMarker,
        FrameRecord.truncatedStackMarker]

section

variable {c : Caches} {s t : ReaderState}

/-- The frames of a chain in the caches, as they are read back. -/
theorem exists_refs (hin : InStep c s) (written : WrittenSample)
    (hactive : written.active = activeModules s) {chain : List StackNodeRecord}
    {frames : List FrameRecord} (h : List.Forall₂ (NodeFor c) chain frames) :
    ∃ refs, List.Forall₂ (FrameOf s.frames) chain refs ∧
      List.Forall₂ (FrameRecalled s written) frames refs := by
  induction h with
  | nil => exact ⟨[], .nil, .nil⟩
  | @cons node frame chain frames hnode _ ih =>
    obtain ⟨refs, hrefs, hframes⟩ := ih
    obtain ⟨key, hkey, hlookup⟩ := hnode
    obtain ⟨found, hget, hwire⟩ := hin.synced.frames _ key _ hlookup
    refine ⟨⟨node.frameId, found⟩ :: refs, .cons ⟨rfl, hget⟩ hrefs, .cons ?_ hframes⟩
    refine ⟨hget, ⟨key, hkey, hwire⟩, fun hunpinned => ?_⟩
    rw [hactive]
    refine hin.epoch.resolve hin.synced hin.wellFormed hlookup hunpinned ?_ _
    rw [cacheOfTag_of_unpinned hwire hunpinned, Realization.cacheOfTag_eq hkey]

/-- The module that a record defines. -/
def definedModule : SpoolRecord → Option ModuleRecord
  | .module module => some module
  | _ => none

theorem modules_of_step (hstep : step s record = .ok (value, t)) :
    t.modules = s.modules ++ (definedModule record).toList := by
  obtain ⟨hdecoded, hcommit⟩ := step_ok.mp hstep
  cases record with
  | module module =>
    obtain ⟨found, hfound, rfl⟩ := map_ok.mp hdecoded
    obtain ⟨rfl, _⟩ := moduleFromWire_ok hfound
    cases hcommit
    rfl
  | moduleDeactivation | moduleDeactivationOne =>
    obtain ⟨found, _, rfl⟩ := map_ok.mp hdecoded
    obtain ⟨contexts, rfl⟩ := commit_deactivate hcommit (by simp)
    exact (List.append_nil _).symm
  | _ =>
    obtain ⟨found, _, rfl⟩ := map_ok.mp hdecoded
    cases hcommit
    exact (List.append_nil _).symm

theorem sample?_of_step (hrecord : ∀ delta thread stackId, record ≠ .sample delta thread stackId)
    (hstep : step s record = .ok (value, t)) : value.sample? = none := by
  obtain ⟨hdecoded, _⟩ := step_ok.mp hstep
  cases record with
  | sample delta thread stackId => exact absurd rfl (hrecord delta thread stackId)
  | _ =>
    obtain ⟨found, _, rfl⟩ := map_ok.mp hdecoded
    rfl

/-- Definitions of frames, stacks and threads leave the modules alone. -/
theorem reads_defines (hin : InStep c s) (hplanned : PlannedAll c records)
    (hdefines : ∀ record ∈ records, Defines record) {values : List DecodedSpoolRecord}
    (hreads : Reads s records values t) : values.filterMap (·.sample?) =
    [] ∧ activeModules t = activeModules s ∧ t.modules = s.modules := by
  induction hreads generalizing c with
  | nil s => exact ⟨rfl, rfl, rfl⟩
  | @cons s s' t record records value values hstep _ ih =>
    have hfirst := hdefines record (.head _)
    have hsample : value.sample? = none := by
      refine sample?_of_step ?_ hstep
      rintro delta thread stackId rfl
      exact hfirst
    have hactive : advance (activeModules s) record = activeModules s := by
      cases record <;> first | rfl | exact absurd hfirst id
    have hmodule : definedModule record = none := by
      cases record <;> first | rfl | exact absurd hfirst id
    have hmodules := modules_of_step hstep
    rw [hmodule] at hmodules
    obtain ⟨hrest, hactive', hmodules'⟩ := ih (hin.absorb hplanned.1 hstep) hplanned.2
      fun r hr => hdefines r (List.mem_cons_of_mem record hr)
    refine ⟨?_, ?_, ?_⟩
    · rw [List.filterMap_cons_none hsample]
      exact hrest
    · rw [hactive', (advances_of_step hin.wellFormed hstep).active, hactive]
    · rw [hmodules', hmodules]
      exact List.append_nil _

/-- A sample that was written is read back. -/
theorem sample_recalled (hin : InStep c s) {timestampNs : UInt64} {processId : Int32}
    {threadId : UInt64} {frames : List FrameRecord} {definitions : List SpoolRecord}
    {delta : Int64} {thread stackId : UInt32}
    (h : SamplePlanned c timestampNs processId threadId frames definitions delta thread stackId)
    (hplanned : PlannedAll c definitions) {values : List DecodedSpoolRecord}
    (hreads : Reads s (definitions ++ [.sample delta thread stackId]) values t) :
    activeModules t = activeModules s ∧ t.modules = s.modules ∧
      ∃ sample, values.filterMap (·.sample?) = [sample] ∧
        Recalls t ⟨timestampNs, processId, threadId, frames, activeModules s⟩ sample := by
  obtain ⟨u, first, rest, hfirst, hrest, rfl⟩ := hreads.split
  obtain ⟨hnone, hactive, hmodules⟩ := reads_defines hin hplanned h.defines hfirst
  have hin' := hin.absorbAll hplanned hfirst
  rcases hrest with _ | ⟨hstep, hnil⟩
  cases hnil
  obtain ⟨hdecoded, hcommit⟩ := step_ok.mp hstep
  obtain ⟨sample, hsample, rfl⟩ := map_ok.mp hdecoded
  cases hcommit
  obtain ⟨htimestamp, hthread, hid, _⟩ := sampleDecoded_ok.mp hsample
  refine ⟨hactive, hmodules, sample, ?_, ?_⟩
  · rw [List.filterMap_append, hnone]
    rfl
  obtain ⟨found, hget, hpid, htid⟩ := hin'.synced.threads _ _ h.thread
  rw [hthread] at hget
  cases hget
  obtain ⟨chain, hchain, hnodes⟩ := hin'.synced.chain_of_stack hin'.sane h.nonempty h.path
  obtain ⟨refs, hrefs, hframes⟩ := exists_refs hin'
    ⟨timestampNs, processId, threadId, frames, activeModules s⟩ hactive.symm hnodes
  refine ⟨?_, hpid, htid, chain, refs, ?_, hrefs, ?_⟩
  · have hsame := h.timestamp
    rw [hin'.synced.timestamp, htimestamp] at hsame
    exact Option.some.inj hsame
  · rw [hid]
    exact hchain
  · exact hframes.imp fun frame ref hframe => ⟨hframe.known, hframe.decoded, hframe.resolved⟩

end

/-- The module that a call writes. -/
def writtenModule : Op → Option ModuleRecord
  | .writeModule module => some module
  | _ => none

/-- The modules that are active after a call. -/
def activeAfter (active : List ModuleRecord) : Op → List ModuleRecord
  | .writeModule module => active ++ [module]
  | .writeModuleDeactivation processId => active.filter fun m => !m.pid.any (·.get == processId)
  | .writeModuleDeactivationOne moduleId => active.filter fun m => m.id ≠ moduleId
  | _ => active

/-- The sample that a call writes: a successful call with frames writes one. -/
def writtenSample (active : List ModuleRecord) : Op → Outcome → Option WrittenSample
  | .writeSampleFrames timestampNs processId threadId frames, .ok _ =>
      if frames = [] then none else some ⟨timestampNs, processId, threadId, frames, active⟩
  | _, _ => none

theorem call_of_writtenSample {active : List ModuleRecord} {op : Op} {outcome : Outcome}
    {written : WrittenSample} (h : writtenSample active op outcome = some written) :
    op = .writeSampleFrames written.timestampNs written.processId written.threadId
        written.frames ∧ written.active = active := by
  unfold writtenSample at h
  split at h
  · split at h
    · cases h
    · cases h
      exact ⟨rfl, rfl⟩
  · cases h

/-- The samples of a session, from the calls and what they returned. -/
def writtenSamples (active : List ModuleRecord) : List Op → List Outcome → List WrittenSample
  | op :: ops, outcome :: outcomes =>
      (writtenSample active op outcome).toList ++
        writtenSamples (activeAfter active op) ops outcomes
  | _, _ => []

/-- What the reader knows after the records of some calls. -/
structure Followed (s t : ReaderState) (modules active : List ModuleRecord)
    (written : List WrittenSample) (values : List DecodedSpoolRecord) : Prop where
  modules : t.modules = s.modules ++ modules
  active : activeModules t = active
  samples : List.Forall₂ (Recalls t) written (values.filterMap (·.sample?))

theorem filterMap_cons_toList {α β : Type} (f : α → Option β) (a : α) (l : List α) :
    (a :: l).filterMap f = (f a).toList ++ l.filterMap f := by
  rcases h : f a with _ | b
  · rw [List.filterMap_cons_none h]
    rfl
  · rw [List.filterMap_cons_some h]
    rfl

section

variable {c : Caches} {s t : ReaderState} {values : List DecodedSpoolRecord}

/-- A call with a single record that is not a sample. -/
theorem followed_single (hin : InStep c s)
    (hrecord : ∀ delta thread stackId, record ≠ .sample delta thread stackId)
    (hreads : Reads s [record] values t) :
    Followed s t (definedModule record).toList (advance (activeModules s) record) [] values := by
  rcases hreads with _ | ⟨hstep, hnil⟩
  cases hnil
  refine ⟨modules_of_step hstep, (advances_of_step hin.wellFormed hstep).active, ?_⟩
  rw [List.filterMap_cons_none (sample?_of_step hrecord hstep)]
  exact .nil

theorem plan_followed (op : Op) (hin : InStep c s) (hreads : Reads s (op.plan c).1 values t) :
    Followed s t (writtenModule op).toList (activeAfter (activeModules s) op)
      (writtenSample (activeModules s) op (op.plan c).2).toList values := by
  cases op with
  | writeSampleFrames timestampNs processId threadId frames =>
    change Reads s (planSample timestampNs processId threadId frames c).1 values t at hreads
    show Followed s t [] (activeModules s) (writtenSample (activeModules s)
      (.writeSampleFrames timestampNs processId threadId frames)
      (planSample timestampNs processId threadId frames c).2).toList values
    obtain ⟨hplanned, hcases⟩ := planSample_cases timestampNs processId threadId frames hin.sane
    rcases hcases with ⟨hdefines, hnone⟩ | ⟨definitions, delta, thread, stackId, hplan, hsample⟩
    · obtain ⟨hvalues, hactive, hmodules⟩ := reads_defines hin hplanned hdefines hreads
      have hwritten : writtenSample (activeModules s)
          (.writeSampleFrames timestampNs processId threadId frames)
          (planSample timestampNs processId threadId frames c).2 = none := by
        rcases hnone with rfl | ⟨e, he⟩
        · rfl
        · rw [he]
          rfl
      rw [hwritten]
      refine ⟨?_, hactive, ?_⟩
      · rw [hmodules]
        exact (List.append_nil _).symm
      · rw [hvalues]
        exact .nil
    · rw [hplan] at hreads hplanned
      obtain ⟨hactive, hmodules, sample, hvalues, hrecalls⟩ :=
        sample_recalled hin hsample hplanned.left hreads
      have hwritten : writtenSample (activeModules s)
          (.writeSampleFrames timestampNs processId threadId frames) (.ok (some stackId)) =
            some ⟨timestampNs, processId, threadId, frames, activeModules s⟩ :=
        if_neg hsample.nonempty
      rw [hplan, hwritten]
      refine ⟨?_, hactive, ?_⟩
      · rw [hmodules]
        exact (List.append_nil _).symm
      · rw [hvalues]
        exact .cons hrecalls .nil
  | flush =>
    cases hreads
    exact ⟨(List.append_nil _).symm, rfl, .nil⟩
  | _ => exact followed_single hin (by simp) hreads

/-- Going through the records of a session, the reader follows its calls. -/
theorem planOps_followed (ops : List Op) (hin : InStep c s)
    (hreads : Reads s (planOps ops c).1 values t) :
    Followed s t (ops.filterMap writtenModule) (ops.foldl activeAfter (activeModules s))
      (writtenSamples (activeModules s) ops (planOps ops c).2) values := by
  induction ops generalizing c s values with
  | nil =>
    cases hreads
    exact ⟨(List.append_nil _).symm, rfl, .nil⟩
  | cons op ops ih =>
    rw [planOps_cons] at hreads ⊢
    obtain ⟨u, first, rest, hfirst, hrest, rfl⟩ := hreads.split
    have hplanned := plan_planned op hin.sane
    have hin' := hin.absorbAll hplanned hfirst
    have hop := plan_followed op hin hfirst
    have hops := ih hin' hrest
    rw [hop.active] at hops
    refine ⟨?_, hops.active, ?_⟩
    · rw [hops.modules, hop.modules, List.append_assoc, filterMap_cons_toList]
    · rw [List.filterMap_append]
      refine List.rel_append ?_ hops.samples
      exact hop.samples.imp fun written sample h =>
        h.later hin' (planOps_planned ops hin'.sane) hrest

end

end StackPulse.Recall
