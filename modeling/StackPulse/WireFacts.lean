import StackPulse.WireRuns
import StackPulse.Safety

/-!
What it takes for the reader to accept a record, and what it has then read. Each
kind of record is taken apart once; what follows uses these facts only.
-/
namespace StackPulse.WireFacts

open Attempts Model Words Decode DecodeFacts ReaderFacts Encode Records WireRecords Safety

variable {s : ReaderState} {id : UInt32}

theorem step_ok {t : ReaderState} {record : SpoolRecord} {value : DecodedSpoolRecord} :
    step s record = .ok (value, t) ↔ decoded s record = .ok value ∧ s.commit value = .ok t := by
  unfold step
  constructor
  · intro h
    obtain ⟨found, hdecoded, h⟩ := bind_ok.mp h
    obtain ⟨after, hcommit, h⟩ := bind_ok.mp h
    cases h
    exact ⟨hdecoded, hcommit⟩
  · rintro ⟨hdecoded, hcommit⟩
    exact bind_ok.mpr ⟨value, hdecoded, bind_ok.mpr ⟨t, hcommit, rfl⟩⟩

theorem map_ok {α β : Type} {f : α → β} {r : Except Stop α} {b : β} :
    f <$> r = .ok b ↔ ∃ a, r = .ok a ∧ f a = b := by
  rcases r with e | a
  · simp [Functor.map, Except.map]
  · simp [Functor.map, Except.map]

theorem moduleFromWire_ok {expectedId : ℕ} {module found : ModuleRecord}
    (h : moduleFromWire expectedId module = .ok found) :
    found = module ∧ module.id.toNat = expectedId := by
  obtain ⟨_, hmatch, hrest⟩ := bind_ok.mp h
  have hid := matchId_ok.mp hmatch
  rw [UInt32.toNat_toUInt64] at hid
  refine ⟨?_, hid⟩
  rcases hjit : module.jitSymbols with _ | symbols
  · rw [hjit] at hrest
    cases hrest
    rfl
  · rw [hjit] at hrest
    obtain ⟨kept, hkept, hfound⟩ := bind_ok.mp hrest
    cases hfound
    unfold WireFields.symbolsFromWire at hkept
    split at hkept
    · cases hkept
    · have hsame := WireFields.checkSymbols_ok hkept
      rw [List.nil_append] at hsame
      rw [hsame]
      rcases module
      cases hjit
      rfl

/-- How a node records the parent that is named on the wire. -/
def ParentIs (parent : UInt32) (node : StackNodeRecord) : Prop :=
  (parent = NONE_U32 ∧ node.parent = none) ∨
    (parent ≠ NONE_U32 ∧ ∃ hne, node.parent = some ⟨parent + 1, hne⟩)

theorem frameDecoded_ok {tag address : UInt64} {frame : FrameRecord} :
    frameDecoded s id tag address = .ok frame ↔
      id.toNat = s.frames.length ∧ frameFromWire s.modules tag address = .ok frame := by
  unfold frameDecoded
  rw [bind_ok]
  constructor
  · rintro ⟨_, hmatch, hframe⟩
    have hid := matchId_ok.mp hmatch
    rw [UInt32.toNat_toUInt64] at hid
    exact ⟨hid, hframe⟩
  · rintro ⟨hid, hframe⟩
    exact ⟨(), matchId_ok.mpr (by rw [UInt32.toNat_toUInt64]; exact hid), hframe⟩

theorem stackDecoded_ok {parent frameId : UInt32} {node : StackNodeRecord}
    (h : stackDecoded s id parent frameId = .ok node) :
    id.toNat = s.stackNodes.length ∧ node.frameId = frameId ∧ ParentIs parent node ∧
      NodeOver s.stackNodes s.frames.length node := by
  obtain ⟨_, hmatch, hrest⟩ := bind_ok.mp h
  obtain ⟨found, hparent, hrest⟩ := bind_ok.mp hrest
  obtain ⟨frameId', hframe, hnode⟩ := bind_ok.mp hrest
  have hid := matchId_ok.mp hmatch
  rw [UInt32.toNat_toUInt64] at hid
  obtain ⟨hsame, hlt⟩ := boundedId_ok.mp hframe
  rw [UInt32.toNat_toUInt64] at hsame
  have hframeId := UInt32.toNat_inj.mp hsame
  subst hframeId
  have hids : ∀ id, found = some id → id.toNat < s.stackNodes.length ∧ id ≠ NONE_U32 := by
    intro id hfound
    rcases stackPrefix_ok hparent with ⟨hnone, _⟩ | ⟨id', hsome, _, hlt', hne⟩
    · rw [hnone] at hfound
      cases hfound
    · rw [hsome] at hfound
      cases hfound
      exact ⟨hlt', hne⟩
  obtain ⟨node', hnode', hid', hchain⟩ := stackNodeFrom_eq s.stackNodes found frameId' hids
  rw [hnode'] at hnode
  cases hnode
  refine ⟨hid, hid', ?_, by rw [hid']; exact hlt, ?_⟩
  · rcases stackPrefix_ok hparent with ⟨hnone, hraw⟩ | ⟨id', hsome, hraw, _, hne⟩
    · rcases hchain with ⟨_, hroot, _⟩ | ⟨_, _, _, hsome, _⟩
      · exact .inl ⟨UInt32.toUInt64_inj.mp hraw, hroot⟩
      · rw [hnone] at hsome
        cases hsome
    · rw [UInt32.toNat_toUInt64] at hraw
      have hparent' := UInt32.toNat_inj.mp hraw
      subst hparent'
      rcases hchain with ⟨hnone, _⟩ | ⟨id, hne', _, hsome', hlink, _⟩
      · rw [hsome] at hnone
        cases hnone
      · rw [hsome] at hsome'
        cases hsome'
        exact .inr ⟨hne, hne', hlink⟩
  · rcases hchain with ⟨_, hroot, hdepth⟩ | ⟨id, hne, before, hsome, hlink, hget, hdepth⟩
    · exact .inl ⟨hroot, hdepth⟩
    · exact .inr ⟨id, hne, before, hlink, (hids id hsome).2, hget, hdepth⟩

theorem threadDecoded_ok {processId : Int32} {threadId : UInt64} {thread : ThreadRecord} :
    threadDecoded s id processId threadId = .ok thread ↔
      id.toNat = s.threads.length ∧ thread.processId.get = processId ∧
        tidTryFrom threadId = .ok thread.threadId := by
  unfold threadDecoded
  rw [bind_ok]
  constructor
  · rintro ⟨_, hmatch, hrest⟩
    obtain ⟨pid, hpid, hrest⟩ := bind_ok.mp hrest
    obtain ⟨tid, htid, hthread⟩ := bind_ok.mp hrest
    cases hthread
    have hid := matchId_ok.mp hmatch
    rw [UInt32.toNat_toUInt64] at hid
    exact ⟨hid, pidTryFrom_ok.mp hpid, htid⟩
  · rintro ⟨hid, hpid, htid⟩
    refine ⟨(), matchId_ok.mpr (by rw [UInt32.toNat_toUInt64]; exact hid), ?_⟩
    exact bind_ok.mpr ⟨_, pidTryFrom_ok.mpr hpid, bind_ok.mpr ⟨_, htid, rfl⟩⟩

theorem sampleDecoded_ok {delta : Int64} {threadId stackId : UInt32} {sample : SampleRecord} :
    sampleDecoded s delta threadId stackId = .ok sample ↔
      checkedAddSigned s.lastTimestampNs delta = some sample.timestampNs ∧
        s.threads[threadId.toNat]? = some ⟨sample.processId, sample.threadId⟩ ∧
        sample.stackId = stackId ∧ stackId.toNat < s.stackNodes.length := by
  unfold sampleDecoded
  rw [bind_ok]
  constructor
  · rintro ⟨timestampNs, htimestamp, hrest⟩
    obtain ⟨threadRef, href, hrest⟩ := bind_ok.mp hrest
    obtain ⟨thread, hthread, hrest⟩ := bind_ok.mp hrest
    obtain ⟨found, hstack, hsample⟩ := bind_ok.mp hrest
    cases hsample
    obtain ⟨hfound, hlt⟩ := boundedId_ok.mp hstack
    rw [UInt32.toNat_toUInt64] at hfound
    have hid := UInt32.toNat_inj.mp hfound
    obtain ⟨hindex, _⟩ := boundedIndex_ok.mp href
    rw [UInt32.toNat_toUInt64] at hindex
    have hget := threadAt_ok.mp hthread
    rw [hindex] at hget
    refine ⟨checkedAddSigned_eq_some.mpr (sampleTimestamp_ok.mp htimestamp), hget, hid, ?_⟩
    rw [← hid]
    exact hlt
  · rintro ⟨htimestamp, hthread, hid, hlt⟩
    have hbound := (List.getElem?_eq_some_iff.mp hthread).1
    refine ⟨sample.timestampNs,
      sampleTimestamp_ok.mpr (checkedAddSigned_eq_some.mp htimestamp), bind_ok.mpr ?_⟩
    refine ⟨threadId.toNat, boundedIndex_ok.mpr ⟨by rw [UInt32.toNat_toUInt64], hbound⟩,
      bind_ok.mpr ⟨_, threadAt_ok.mpr hthread, bind_ok.mpr ⟨stackId, ?_, ?_⟩⟩⟩
    · exact boundedId_ok.mpr ⟨by rw [UInt32.toNat_toUInt64], hlt⟩
    · rw [← hid]
      rfl

/-- Whatever the reader makes of a record may be committed. -/
theorem decoded_accepts {record : SpoolRecord} {value : DecodedSpoolRecord}
    (h : decoded s record = .ok value) : Accepts s value := by
  cases record with
  | module module =>
    obtain ⟨found, hfound, rfl⟩ := map_ok.mp h
    obtain ⟨rfl, hid⟩ := moduleFromWire_ok hfound
    exact hid
  | frame id tag address =>
    obtain ⟨frame, hframe, rfl⟩ := map_ok.mp h
    exact frameFromWire_ok (frameDecoded_ok.mp hframe).2
  | stack id parent frameId =>
    obtain ⟨node, hnode, rfl⟩ := map_ok.mp h
    exact (stackDecoded_ok hnode).2.2.2
  | sample delta threadId stackId =>
    obtain ⟨sample, hsample, rfl⟩ := map_ok.mp h
    obtain ⟨_, hthread, hid, hlt⟩ := sampleDecoded_ok.mp hsample
    exact ⟨List.mem_of_getElem? hthread, by rw [hid]; exact hlt⟩
  | moduleDeactivationOne moduleId =>
    obtain ⟨index, hindex, rfl⟩ := map_ok.mp h
    exact (boundedIndex_ok.mp hindex).2
  | _ =>
    obtain ⟨found, _, rfl⟩ := map_ok.mp h
    exact trivial

theorem frameFromWire_append {modules : List ModuleRecord} {tag address : UInt64}
    {frame : FrameRecord} (h : frameFromWire modules tag address = .ok frame)
    (more : List ModuleRecord) : frameFromWire (modules ++ more) tag address = .ok frame := by
  unfold frameFromWire at h ⊢
  by_cases hmarker : tag = TRUNCATED_STACK_MARKER_TAG
  · rw [if_pos hmarker] at h ⊢
    exact h
  rw [if_neg hmarker] at h ⊢
  by_cases hpinned : tag &&& 1 = 0
  · rw [if_pos hpinned] at h ⊢
    obtain ⟨id, hid, hframe⟩ := bind_ok.mp h
    obtain ⟨hsame, hlt⟩ := boundedId_ok.mp hid
    have hget : (modules ++ more)[id.toNat]? = modules[id.toNat]? := List.getElem?_append_left hlt
    refine bind_ok.mpr ⟨id, boundedId_ok.mpr ⟨hsame, ?_⟩, ?_⟩
    · rw [List.length_append]
      omega
    · rw [hget]
      exact hframe
  · rw [if_neg hpinned] at h ⊢
    exact h

end StackPulse.WireFacts
