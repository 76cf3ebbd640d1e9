import StackPulse.Attempts
import StackPulse.Decode

/-!
What the record readers guarantee on arbitrary bytes. They are stable under
growth of the file, they never panic, and the records they accept satisfy the
bounds that later lookups rely on.
-/
namespace StackPulse.DecodeFacts

open Attempts Model Words Decode

variable {e : Stop} {raw encodedIp : UInt64} {kind : String} {limit : ℕ} {id : UInt32}

/-- The checks of field values fail with this error and no other. -/
def Rejection (e : Stop) : Prop := ∃ message, e = invalidData message

theorem Rejection.isEof (h : Rejection e) : e.isEof = false := by
  obtain ⟨message, rfl⟩ := h
  rfl

theorem Rejection.isIo (h : Rejection e) : e.isIo = true := by
  obtain ⟨message, rfl⟩ := h
  rfl

theorem u32TryFrom_ok {n : UInt64} {message : String} :
    u32TryFrom n message = .ok id ↔ id.toNat = n.toNat := by
  have hid := id.toNat_lt
  unfold u32TryFrom
  split
  · rename_i h
    rw [Except.ok.injEq, ← UInt32.toNat_inj, UInt64.toNat_toUInt32, Nat.mod_eq_of_lt h]
    exact eq_comm
  · simp only [reduceCtorEq, false_iff]
    omega

theorem u32TryFrom_error {n : UInt64} {message : String} :
    FailsWith Rejection (u32TryFrom n message) :=
  .ite (fun _ => .ok _) fun _ => .error ⟨_, rfl⟩

theorem moduleIdFrom_ok {n : ℕ} : moduleIdFrom n = .ok id ↔ id.toNat = n := by
  have hid := id.toNat_lt
  unfold moduleIdFrom
  split
  · rename_i h
    rw [Except.ok.injEq, ← UInt32.toNat_inj, UInt32.toNat_ofNat_of_lt' h]
    exact eq_comm
  · simp only [reduceCtorEq, false_iff]
    omega

theorem moduleIdFrom_error {n : ℕ} : FailsWith Rejection (moduleIdFrom n) :=
  .ite (fun _ => .ok _) fun _ => .error ⟨_, rfl⟩

theorem matchId_ok {id : UInt64} {expected : ℕ} :
    matchId id expected kind = .ok () ↔ id.toNat = expected := by
  unfold matchId
  split
  · rename_i h
    simp only [reduceCtorEq, false_iff]
    exact h
  · rename_i h
    simp only [true_iff]
    exact not_not.mp h

theorem matchId_error {id : UInt64} {expected : ℕ} :
    FailsWith Rejection (matchId id expected kind) :=
  .ite (fun _ => .error ⟨_, rfl⟩) fun _ => .ok _

theorem boundedId_ok :
    boundedId raw limit kind = .ok id ↔ id.toNat = raw.toNat ∧ id.toNat < limit := by
  unfold boundedId
  cases hid : u32TryFrom raw s!"{kind} id too large" with
  | error e =>
    simp only [bind, Except.bind, reduceCtorEq, false_iff, not_and]
    intro heq
    rw [u32TryFrom_ok.mpr heq] at hid
    cases hid
  | ok found =>
    have hfound := u32TryFrom_ok.mp hid
    simp only [bind, Except.bind]
    split
    · simp only [reduceCtorEq, false_iff, not_and]
      omega
    · rw [Except.ok.injEq, ← UInt32.toNat_inj]
      omega

theorem boundedId_error : FailsWith Rejection (boundedId raw limit kind) :=
  u32TryFrom_error.bind fun _ _ => .ite (fun _ => .error ⟨_, rfl⟩) fun _ => .ok _

theorem boundedIndex_ok {index : ℕ} :
    boundedIndex raw limit kind = .ok index ↔ index = raw.toNat ∧ index < limit := by
  unfold boundedIndex
  split
  · simp only [reduceCtorEq, false_iff, not_and]
    omega
  · rw [Except.ok.injEq]
    omega

theorem boundedIndex_error : FailsWith Rejection (boundedIndex raw limit kind) :=
  .ite (fun _ => .error ⟨_, rfl⟩) fun _ => .ok _

theorem i32TryFrom_error {n : Int64} : FailsWith Rejection (i32TryFrom n) :=
  .ite (fun _ => .ok _) fun _ => .error ⟨_, rfl⟩

theorem pidTryFrom_ok {raw : Int32} {pid : Pid} : pidTryFrom raw = .ok pid ↔ pid.get = raw := by
  unfold pidTryFrom Pid.tryFrom
  cases h : Pid.new raw with
  | none =>
    simp only [reduceCtorEq, false_iff]
    intro heq
    rw [Pid.new_eq_some.mpr heq] at h
    cases h
  | some found =>
    have hfound := Pid.new_eq_some.mp h
    simp only [Except.ok.injEq]
    constructor
    · rintro rfl
      exact hfound
    · intro hpid
      exact Pid.get_inj (hfound.trans hpid.symm)

theorem pidTryFrom_error {raw : Int32} : FailsWith Rejection (pidTryFrom raw) := by
  unfold pidTryFrom
  split
  · exact .ok _
  · exact .error ⟨_, rfl⟩

theorem tidTryFrom_error : FailsWith Rejection (tidTryFrom raw) := by
  unfold tidTryFrom
  split
  · exact .ok _
  · exact .error ⟨_, rfl⟩

theorem fromWire_error {raw : Int32} {isKernel : Bool} :
    FailsWith Rejection (ModuleOwner.fromWire raw isKernel) := by
  refine .ite (fun _ => .ok _) fun _ => ?_
  split
  · exact .ok _
  · exact .error ⟨_, rfl⟩

/-- The frame lies in the module, at the address the module's file offset gives. -/
structure PinnedTo (module : ModuleRecord) (frame : FrameRecord) : Prop where
  start_le : module.start.toNat ≤ frame.absIp.toNat
  lt_stop : frame.absIp.toNat < module.stop.toNat
  fileRelative : frame.absIp.toNat + module.fileOffset.toNat =
    frame.fileRelativeIp.toNat + module.start.toNat
  mode : frame.mode = frameMode module.isKernel

theorem addU64_of_lt {a b : UInt64} {site : String} (h : a.toNat + b.toNat < 2 ^ 64) :
    addU64 a b site = .ok (a + b) := by
  simp only [addU64, checkedAdd, if_pos h]

/-- The address stays below the end of the module, so the sum fits. -/
theorem pinnedFrame_ok {module : ModuleRecord} {frame : FrameRecord} :
    pinnedFrame id module encodedIp = .ok frame ↔
      frame.moduleId = some id ∧ frame.fileRelativeIp = encodedIp ∧ PinnedTo module frame := by
  have hstop := module.stop.toNat_lt
  unfold pinnedFrame
  cases hoffset : checkedSub encodedIp module.fileOffset with
  | none =>
    rw [checkedSub_eq_none] at hoffset
    simp only [reduceCtorEq, false_iff]
    rintro ⟨_, rfl, hpin⟩
    have h1 := hpin.fileRelative
    have h2 := hpin.start_le
    omega
  | some offset =>
    rw [checkedSub_eq_some] at hoffset
    cases hspan : checkedSub module.stop module.start with
    | none =>
      rw [checkedSub_eq_none] at hspan
      simp only [reduceCtorEq, false_iff]
      rintro ⟨_, _, hpin⟩
      have h1 := hpin.start_le
      have h2 := hpin.lt_stop
      omega
    | some span =>
      rw [checkedSub_eq_some] at hspan
      simp only
      split
      · rename_i hle
        have hle' : span.toNat ≤ offset.toNat := hle
        simp only [reduceCtorEq, false_iff]
        rintro ⟨_, rfl, hpin⟩
        have h1 := hpin.fileRelative
        have h2 := hpin.lt_stop
        omega
      · rename_i hlt
        have hlt' : ¬ span.toNat ≤ offset.toNat := hlt
        have hsum : module.start.toNat + offset.toNat < 2 ^ 64 := by omega
        have habs : (module.start + offset).toNat = module.start.toNat + offset.toNat := by
          rw [UInt64.toNat_add, Nat.mod_eq_of_lt hsum]
        rw [addU64_of_lt hsum]
        simp only [bind, Except.bind, pure, Except.pure, Except.ok.injEq]
        constructor
        · rintro rfl
          refine ⟨rfl, rfl, ⟨?_, ?_, ?_, rfl⟩⟩ <;> simp only [habs] <;> omega
        · rintro ⟨hid, hrel, hpin⟩
          obtain ⟨moduleId, fileRelativeIp, absIp, mode⟩ := frame
          simp only at hid hrel
          subst hid hrel
          have h1 := hpin.fileRelative
          have h2 := hpin.mode
          simp only at h1 h2
          rw [h2, FrameRecord.mk.injEq]
          refine ⟨rfl, rfl, ?_, rfl⟩
          apply UInt64.toNat_inj.mp
          omega

theorem pinnedFrame_error {module : ModuleRecord} :
    FailsWith Rejection (pinnedFrame id module encodedIp) := by
  have hstop := module.stop.toNat_lt
  unfold pinnedFrame
  split
  · exact .error ⟨_, rfl⟩
  · rename_i offset _
    split
    · exact .error ⟨_, rfl⟩
    · rename_i span hspan
      refine .ite (fun _ => .error ⟨_, rfl⟩) fun hlt => ?_
      have hlt' : ¬ span.toNat ≤ offset.toNat := hlt
      rw [checkedSub_eq_some] at hspan
      rw [addU64_of_lt (by omega)]
      exact .ok _

/-- Every pinned frame lies in the module it names. -/
def PinnedIn (modules : List ModuleRecord) (frame : FrameRecord) : Prop :=
  ∀ id, frame.moduleId = some id →
    ∃ module, modules[id.toNat]? = some module ∧ PinnedTo module frame

theorem frameFromWire_ok {modules : List ModuleRecord} {tag : UInt64} {frame : FrameRecord}
    (h : frameFromWire modules tag encodedIp = .ok frame) : PinnedIn modules frame := by
  intro id hid
  unfold frameFromWire at h
  split at h
  · split at h
    · cases h
    · cases h
      cases hid
  · split at h
    · obtain ⟨found, -, h⟩ := bind_ok.mp h
      split at h
      · cases h
      · rename_i module hmodule
        obtain ⟨hid', _, hpin⟩ := pinnedFrame_ok.mp h
        rw [hid] at hid'
        cases hid'
        exact ⟨module, hmodule, hpin⟩
    · cases h
      cases hid

theorem frameFromWire_error {modules : List ModuleRecord} {tag : UInt64} :
    FailsWith Rejection (frameFromWire modules tag encodedIp) := by
  refine .ite (fun _ => .ite (fun _ => .error ⟨_, rfl⟩) fun _ => .ok _) fun _ => ?_
  refine .ite (fun _ => boundedId_error.bind fun id hid => ?_) fun _ => .ok _
  rw [List.getElem?_eq_getElem (boundedId_ok.mp hid).2]
  exact pinnedFrame_error

theorem stackPrefix_ok {parent : Option UInt32} (h : stackPrefix raw limit = .ok parent) :
    (parent = none ∧ raw = NONE_U32.toUInt64) ∨
      ∃ id, parent = some id ∧ id.toNat = raw.toNat ∧ id.toNat < limit ∧ id ≠ NONE_U32 := by
  unfold stackPrefix at h
  split at h
  · cases h
    exact .inl ⟨rfl, ‹_›⟩
  · rename_i hne
    obtain ⟨id, hid, h⟩ := bind_ok.mp h
    cases h
    obtain ⟨heq, hlt⟩ := boundedId_ok.mp hid
    refine .inr ⟨id, rfl, heq, hlt, ?_⟩
    rintro rfl
    apply hne
    apply UInt64.toNat_inj.mp
    rw [← heq]
    rfl

theorem stackPrefix_error : FailsWith Rejection (stackPrefix raw limit) :=
  .ite (fun _ => .ok _) fun _ => boundedId_error.bind fun _ _ => .ok _

theorem encodePrefix_of_ne (h : id ≠ NONE_U32) :
    ∃ hne : id + 1 ≠ 0, encodePrefix id = .ok (some ⟨id + 1, hne⟩) := by
  have hid := id.toNat_lt
  have hmax : id.toNat ≠ 4294967295 := by
    intro heq
    exact h (UInt32.toNat_inj.mp heq)
  have hlt : id.toNat + 1 < 2 ^ 32 := by omega
  have hne : id + 1 ≠ 0 := by
    intro hzero
    have h0 := congrArg UInt32.toNat hzero
    rw [UInt32.toNat_add] at h0
    change (id.toNat + 1) % 2 ^ 32 = 0 at h0
    omega
  refine ⟨hne, ?_⟩
  unfold encodePrefix
  rw [if_pos hlt, dif_pos hne]

/-- The node of an accepted parent, with that parent one below the new node. -/
theorem stackNodeFrom_eq (stackNodes : List StackNodeRecord) (parent : Option UInt32)
    (frameId : UInt32)
    (h : ∀ id, parent = some id → id.toNat < stackNodes.length ∧ id ≠ NONE_U32) :
    ∃ node, stackNodeFrom stackNodes parent frameId = .ok node ∧ node.frameId = frameId ∧
      ((parent = none ∧ node.parent = none ∧ node.depth = 1) ∨
        ∃ id hne before, parent = some id ∧ node.parent = some ⟨id + 1, hne⟩ ∧
          stackNodes[id.toNat]? = some before ∧ node.depth = saturatingSucc before.depth) := by
  cases parent with
  | none => exact ⟨_, rfl, rfl, .inl ⟨rfl, rfl, rfl⟩⟩
  | some id =>
    obtain ⟨hlt, hne⟩ := h id rfl
    obtain ⟨hne', henc⟩ := encodePrefix_of_ne hne
    have hget := List.getElem?_eq_getElem hlt
    refine ⟨{ parent := some ⟨id + 1, hne'⟩, frameId := frameId,
              depth := saturatingSucc (stackNodes[id.toNat]).depth }, ?_, rfl,
      Or.inr ⟨id, hne', stackNodes[id.toNat], rfl, rfl, hget, rfl⟩⟩
    unfold stackNodeFrom
    simp only [hget, henc, bind, Except.bind]
    rfl

theorem sampleTimestamp_error {last : UInt64} {delta : Int64} :
    FailsWith Rejection (sampleTimestamp last delta) := by
  unfold sampleTimestamp
  split
  · exact .ok _
  · exact .error ⟨_, rfl⟩

theorem sampleTimestamp_ok {last ts : UInt64} {delta : Int64} :
    sampleTimestamp last delta = .ok ts ↔ (ts.toNat : ℤ) = last.toNat + delta.toInt := by
  rw [← checkedAddSigned_eq_some]
  unfold sampleTimestamp
  cases checkedAddSigned last delta <;> simp

theorem threadAt_ok {threads : List ThreadRecord} {index : ℕ} {thread : ThreadRecord} :
    threadAt threads index = .ok thread ↔ threads[index]? = some thread := by
  unfold threadAt
  cases threads[index]? <;> simp

theorem wallTimeFrom_error {sign : Int64} {duration : Duration} :
    FailsWith Rejection (wallTimeFrom sign duration) := by
  refine .ite (fun _ => ?_) fun _ => .ite (fun _ => ?_) fun _ => .error ⟨_, rfl⟩
  · split
    · exact .ok _
    · exact .error ⟨_, rfl⟩
  · split
    · exact .ok _
    · exact .error ⟨_, rfl⟩

end StackPulse.DecodeFacts
