import StackPulse.Mirror
import StackPulse.Visibility

/-!
Module epochs. The writer forgets a frame without a module id as soon as the
modules that it could lie in change, so every such frame that the writer still
knows sees what is active, although its id is used again and again.
-/
namespace StackPulse.Epochs

open Chunks Model FrameContexts SpoolFrameModuleContexts ContextFacts DecodeFacts Encode Writer
  Interning Records WireRecords WireFacts Mirror Safety Visibility

variable {key : UInt64 × UInt64} {id : UInt32}

/-- The active modules after a record. -/
def advance (active : List ModuleRecord) : SpoolRecord → List ModuleRecord
  | .module module => active ++ [module]
  | .moduleDeactivation processId => active.filter fun m => !m.pid.any (·.get == processId)
  | .moduleDeactivationOne moduleId => active.filter fun m => m.id ≠ moduleId
  | _ => active

variable {c : Caches} {s t : ReaderState}

/-- What one record does to the modules: which of them are active, and that no
frame sees a different set. -/
structure Advances (s t : ReaderState) (record : SpoolRecord) : Prop where
  active : activeModules t = advance (activeModules s) record
  seen : ∀ frameId : UInt32, frameId.toNat < s.frames.length →
    seenBy t frameId = seenBy s frameId
  timed : Timed s → Timed t

theorem advances_of_step (h : WellFormed s) {record : SpoolRecord} {value : DecodedSpoolRecord}
    (hstep : step s record = .ok (value, t)) : Advances s t record := by
  obtain ⟨hdecoded, hcommit⟩ := step_ok.mp hstep
  cases record with
  | module module =>
    obtain ⟨found, hfound, rfl⟩ := map_ok.mp hdecoded
    obtain ⟨rfl, _⟩ := moduleFromWire_ok hfound
    cases hcommit
    refine ⟨active_pushModule h found, fun frameId _ => seen_pushModule h found frameId, ?_⟩
    intro htimed i time htime
    change (s.frameContexts.moduleDeactivatedAt.push none).get i = _ at htime
    rw [Chunked.get_eq, Chunked.toList_push] at htime
    rcases Nat.lt_or_ge i s.frameContexts.moduleDeactivatedAt.toList.length with hi | hi
    · rw [List.getElem?_append_left hi, ← Chunked.get_eq] at htime
      exact htimed i time htime
    · rw [List.getElem?_append_right hi] at htime
      have hmem := List.mem_of_getElem? htime
      simp at hmem
  | frame id tag address =>
    obtain ⟨frame, hframe, rfl⟩ := map_ok.mp hdecoded
    cases hcommit
    refine ⟨active_pushFrame frame, fun frameId hlt => seen_pushFrame h frame hlt, ?_⟩
    intro htimed i time htime
    have hle := htimed i time htime
    show time ≤ (s.frames ++ [frame]).length
    rw [List.length_append]
    omega
  | moduleDeactivation processId =>
    obtain ⟨pid, hpid, rfl⟩ := map_ok.mp hdecoded
    obtain ⟨contexts, rfl, hretires⟩ := retires_of_commit h hcommit
    refine ⟨?_, fun frameId hlt => seen_retired hretires hlt, fun ht => ht.retired hretires⟩
    rw [active_retired h hretires]
    apply List.filter_congr
    intro m hm
    obtain ⟨i, hget, _⟩ := mem_pick.mp hm
    have hid := h.moduleIds i m hget
    have howned : m.id.toNat ∈ ownedBy s.modules (.process pid) ↔ m.owner = .process pid := by
      rw [mem_ownedBy, hid, hget]
      simp
    have hraw := pidTryFrom_ok.mp hpid
    rw [Bool.eq_iff_iff, decide_eq_true_eq, howned]
    unfold ModuleRecord.pid
    rcases m.owner with pid' | _
    · simp only [ModuleOwner.pid, Option.any_some, Bool.not_eq_true', beq_eq_false_iff_ne,
        ModuleOwner.process.injEq, ne_eq, ← hraw]
      exact not_congr ⟨fun heq => congrArg Pid.get heq, Pid.get_inj⟩
    · simp [ModuleOwner.pid]
  | moduleDeactivationOne moduleId =>
    obtain ⟨index, hindex, rfl⟩ := map_ok.mp hdecoded
    obtain ⟨rfl, hlt⟩ := boundedIndex_ok.mp hindex
    obtain ⟨contexts, rfl, hretires⟩ := retires_of_commit_one h hlt hcommit
    refine ⟨?_, fun frameId hlt => seen_retired hretires hlt, fun ht => ht.retired hretires⟩
    rw [active_retired h hretires]
    apply List.filter_congr
    intro m _
    apply decide_eq_decide.mpr
    rw [List.mem_singleton, UInt32.toNat_toUInt64, UInt32.toNat_inj]
  | _ =>
    obtain ⟨found, _, rfl⟩ := map_ok.mp hdecoded
    cases hcommit
    exact ⟨rfl, fun _ _ => rfl, fun ht => ht⟩

/-- The frames that the caches still know see what is active, kernel frames as far
as kernel modules are concerned. -/
structure InEpoch (c : Caches) (s : ReaderState) : Prop where
  timed : Timed s
  kernelIds : ∀ m ∈ activeModules s, m.isKernel = true → m.id ∈ c.kernelModuleIds
  unpinned : ∀ key id, c.unpinnedFrameCache.lookup key = some id → seenBy s id = activeModules s
  kernel : ∀ key id, c.kernelFrameCache.lookup key = some id →
    (seenBy s id).filter (·.isKernel) = (activeModules s).filter (·.isKernel)

theorem inEpoch_initial : InEpoch .empty .initial where
  timed i time h := by
    simp [ReaderState.initial, SpoolFrameModuleContexts.empty, Chunked.get_eq] at h
  kernelIds m h := by cases h
  unpinned key id h := by cases h
  kernel key id h := by cases h

namespace InEpoch

variable {record : SpoolRecord}

/-- The frames of a cache have been read. -/
theorem known (hsynced : Synced c s) (cache : FrameCache)
    (h : (c.frameCache cache).lookup key = some id) : id.toNat < s.frames.length := by
  obtain ⟨frame, hget, _⟩ := hsynced.frames cache key id h
  exact (List.getElem?_eq_some_iff.mp hget).1

section

variable (h : InEpoch c s) (hsynced : Synced c s)

include h hsynced

/-- A record that changes no modules and defines no frame. -/
theorem keep (hadvances : Advances s t record)
    (hactive : advance (activeModules s) record = activeModules s) {c' : Caches}
    (hunpinned : c'.unpinnedFrameCache = c.unpinnedFrameCache)
    (hkernel : c'.kernelFrameCache = c.kernelFrameCache)
    (hids : c'.kernelModuleIds = c.kernelModuleIds) : InEpoch c' t := by
  have hsame := hadvances.active.trans hactive
  refine ⟨hadvances.timed h.timed, ?_, ?_, ?_⟩
  · rw [hsame, hids]
    exact h.kernelIds
  · intro key id hlookup
    rw [hunpinned] at hlookup
    rw [hsame, hadvances.seen id (known hsynced .unpinned hlookup)]
    exact h.unpinned key id hlookup
  · intro key id hlookup
    rw [hkernel] at hlookup
    rw [hsame, hadvances.seen id (known hsynced .kernel hlookup)]
    exact h.kernel key id hlookup

theorem pushFrame (hs : WellFormed s) {tag address : UInt64}
    (hplanned : Planned c (.frame id tag address)) (frame : FrameRecord)
    (hadvances : Advances s (s.pushFrame frame) (.frame id tag address)) :
    InEpoch (c.absorb (.frame id tag address)) (s.pushFrame frame) := by
  have hnew : seenBy (s.pushFrame frame) id = activeModules (s.pushFrame frame) := by
    refine seen_new hs h.timed frame ?_
    rw [hplanned.1]
    exact hsynced.nextFrame
  -- Every entry of the cache of this frame is the new one or an old one.
  have hentries : ∀ cache key id',
      ((c.absorb (.frame id tag address)).frameCache cache).lookup key = some id' →
        id' = id ∨ (c.frameCache cache).lookup key = some id' := by
    intro cache key id' hlookup
    change ((c.insertFrame (cacheOfTag tag) (tag, address) id).frameCache cache).lookup key =
      some id' at hlookup
    rw [frameCache_insertFrame] at hlookup
    split at hlookup
    · rename_i hcache
      rcases lookup_insert_cases hlookup with ⟨_, rfl⟩ | hold
      · exact .inl rfl
      · rw [← hcache] at hold
        exact .inr hold
    · exact .inr hlookup
  refine ⟨hadvances.timed h.timed, ?_, ?_, ?_⟩
  · show ∀ m ∈ activeModules s, m.isKernel = true → m.id ∈ (c.insertFrame _ _ _).kernelModuleIds
    unfold Caches.insertFrame
    split <;> exact h.kernelIds
  · intro key id' hlookup
    rcases hentries .unpinned key id' hlookup with rfl | hold
    · exact hnew
    · rw [hadvances.seen id' (known hsynced .unpinned hold)]
      exact h.unpinned key id' hold
  · intro key id' hlookup
    rcases hentries .kernel key id' hlookup with rfl | hold
    · rw [hnew]
    · rw [hadvances.seen id' (known hsynced .kernel hold)]
      exact h.kernel key id' hold

/-- Events that leave the kernel modules alone leave the kernel frames valid. -/
theorem kernel_of_advances (hadvances : Advances s t record)
    (hsame : (advance (activeModules s) record).filter (·.isKernel) =
      (activeModules s).filter (·.isKernel)) (hlookup : c.kernelFrameCache.lookup key = some id) :
    (seenBy t id).filter (·.isKernel) = (activeModules t).filter (·.isKernel) := by
  rw [hadvances.seen id (known hsynced .kernel hlookup), hadvances.active, hsame]
  exact h.kernel key id hlookup

/-- One record keeps the caches in the epoch. -/
theorem absorb (hs : WellFormed s) (hplanned : Planned c record) {value : DecodedSpoolRecord}
    (hstep : step s record = .ok (value, t)) : InEpoch (c.absorb record) t := by
  have hadvances := advances_of_step hs hstep
  cases record with
  | module module =>
    refine ⟨hadvances.timed h.timed, ?_, fun key id hlookup => (by cases hlookup), ?_⟩
    · intro m hm hkernel
      show m.id ∈ if module.isKernel then insert module.id c.kernelModuleIds else c.kernelModuleIds
      rw [hadvances.active] at hm
      rcases List.mem_append.mp hm with hold | hnew
      · have hmem := h.kernelIds m hold hkernel
        split
        · exact Finset.mem_insert_of_mem hmem
        · exact hmem
      · rw [List.mem_singleton.mp hnew] at hkernel ⊢
        rw [if_pos hkernel]
        exact Finset.mem_insert_self _ _
    · intro key id hlookup
      change (if module.isKernel then ∅ else c.kernelFrameCache).lookup key = some id at hlookup
      split at hlookup
      · cases hlookup
      · rename_i hkernel
        refine h.kernel_of_advances hsynced hadvances ?_ hlookup
        show (activeModules s ++ [module]).filter _ = _
        simp [List.filter_append, hkernel]
  | frame id tag address =>
    obtain ⟨hdecoded, hcommit⟩ := step_ok.mp hstep
    obtain ⟨frame, _, rfl⟩ := map_ok.mp hdecoded
    cases hcommit
    exact h.pushFrame hsynced hs hplanned frame hadvances
  | moduleDeactivation processId =>
    refine ⟨hadvances.timed h.timed, ?_, fun key id hlookup => (by cases hlookup), ?_⟩
    · intro m hm hkernel
      rw [hadvances.active] at hm
      exact h.kernelIds m (List.mem_filter.mp hm).1 hkernel
    · intro key id hlookup
      refine h.kernel_of_advances hsynced hadvances ?_ hlookup
      show ((activeModules s).filter _).filter _ = _
      rw [List.filter_filter]
      apply List.filter_congr
      intro m _
      unfold ModuleRecord.isKernel ModuleRecord.pid
      rcases m.owner with pid | _
      · rfl
      · rfl
  | moduleDeactivationOne moduleId =>
    refine ⟨hadvances.timed h.timed, ?_, fun key id hlookup => (by cases hlookup), ?_⟩
    · intro m hm hkernel
      rw [hadvances.active] at hm
      obtain ⟨hold, hne⟩ := List.mem_filter.mp hm
      exact Finset.mem_erase.mpr ⟨of_decide_eq_true hne, h.kernelIds m hold hkernel⟩
    · intro key id hlookup
      change (if moduleId ∈ c.kernelModuleIds then ∅ else c.kernelFrameCache).lookup key =
        some id at hlookup
      split at hlookup
      · cases hlookup
      · rename_i hother
        refine h.kernel_of_advances hsynced hadvances ?_ hlookup
        show ((activeModules s).filter _).filter _ = _
        rw [List.filter_filter]
        apply List.filter_congr
        intro m hm
        by_cases hkernel : m.isKernel = true
        · have hne : m.id ≠ moduleId := by
            rintro rfl
            exact hother (h.kernelIds m hm hkernel)
          simp [hkernel, hne]
        · simp [hkernel]
  | _ => exact h.keep hsynced hadvances rfl rfl rfl rfl

end

end InEpoch

theorem resolveIn_filter (active : List ModuleRecord) (processId : Int32) (frame : FrameRecord)
    (p : ModuleRecord → Bool) (hp : ∀ m, Covers processId frame m → p m = true) :
    resolveIn (active.filter p) processId frame = resolveIn active processId frame := by
  unfold resolveIn
  rw [← List.filter_reverse, List.find?_filter]
  congr 1
  congr 1
  funext m
  by_cases hcovers : Covers processId frame m
  · simp [hcovers, hp m hcovers]
  · simp [hcovers]

/-- A frame that the caches still know resolves in the modules that are active. -/
theorem InEpoch.resolve (h : InEpoch c s) (hsynced : Synced c s) (hs : WellFormed s)
    {cache : FrameCache} (hlookup : (c.frameCache cache).lookup key = some id) {frame : FrameRecord}
    (hunpinned : frame.moduleId = none) (hcache : frameCacheOf frame = cache) (processId : Int32) :
    moduleForFrameWithContext s.modules s.frameContexts id processId frame =
      resolveIn (activeModules s) processId frame := by
  rw [moduleForFrameWithContext_eq hs (InEpoch.known hsynced cache hlookup) processId hunpinned]
  unfold frameCacheOf at hcache
  rw [hunpinned] at hcache
  by_cases hmarker : frame.isTruncatedStackMarker = true
  · have hframe : frame = .truncatedStackMarker := eq_of_beq hmarker
    have hnone : ∀ active, resolveIn active processId frame = none := by
      intro active
      unfold resolveIn
      rw [List.find?_eq_none.mpr]
      · rfl
      · intro m _ hcovers
        have howner := (of_decide_eq_true hcovers).1
        rw [hframe] at howner
        cases howner
    rw [hnone, hnone]
  · simp only [Option.isSome_none, hmarker, Bool.false_or, Bool.false_eq_true, if_false] at hcache
    by_cases hkernel : frame.mode = .kernel
    · rw [if_pos hkernel] at hcache
      subst hcache
      have hcovers : ∀ m, Covers processId frame m → m.isKernel = true := by
        intro m hm
        have howner := hm.1
        rw [hkernel] at howner
        unfold ModuleRecord.isKernel
        rw [← Option.some.inj howner]
        rfl
      rw [← resolveIn_filter (seenBy s id) processId frame (·.isKernel) hcovers,
        ← resolveIn_filter (activeModules s) processId frame (·.isKernel) hcovers,
        h.kernel key id hlookup]
    · rw [if_neg hkernel] at hcache
      subst hcache
      rw [h.unpinned key id hlookup]

end StackPulse.Epochs
