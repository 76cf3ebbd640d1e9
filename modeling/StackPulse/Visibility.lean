import StackPulse.Safety

/-!
What a frame without a module id can see. Some modules of a stream are active,
and every frame sees those that were active when it was read; it resolves to the
newest of them that covers its address. Later modules and deactivations do not
change what it sees.
-/
namespace StackPulse.Visibility

open Chunks Model Words FrameContexts SpoolFrameModuleContexts ContextFacts Records Safety

variable {frameId : UInt32}

section

variable {α : Type}

/-- The elements whose positions satisfy the predicate. -/
def pick (p : ℕ → Bool) (l : List α) : List α :=
  (List.range l.length).filterMap fun i => if p i then l[i]? else none

theorem pick_congr {p q : ℕ → Bool} {l : List α} (h : ∀ i < l.length, p i = q i) :
    pick p l = pick q l := by
  unfold pick
  apply List.filterMap_congr
  intro i hi
  rw [h i (List.mem_range.mp hi)]

theorem pick_append (p : ℕ → Bool) (l : List α) (a : α) :
    pick p (l ++ [a]) = pick p l ++ if p l.length then [a] else [] := by
  unfold pick
  rw [List.length_append, List.length_singleton, List.range_succ, List.filterMap_append]
  congr 1
  · apply List.filterMap_congr
    intro i hi
    rw [List.getElem?_append_left (List.mem_range.mp hi)]
  · by_cases hp : p l.length <;> simp [hp]

theorem filter_pick (p : ℕ → Bool) (q : α → Bool) (l : List α) :
    (pick p l).filter q = pick (fun i => p i && l[i]?.any q) l := by
  unfold pick
  rw [List.filter_filterMap]
  apply List.filterMap_congr
  intro i _
  rcases hget : l[i]? with _ | a
  · simp
  · by_cases hp : p i <;> by_cases hq : q a <;> simp [hp, hq, hget]

theorem mem_pick {p : ℕ → Bool} {l : List α} {a : α} :
    a ∈ pick p l ↔ ∃ i : ℕ, l[i]? = some a ∧ p i = true := by
  unfold pick
  rw [List.mem_filterMap]
  constructor
  · rintro ⟨i, _, hi⟩
    split at hi
    · exact ⟨i, hi, ‹_›⟩
    · cases hi
  · rintro ⟨i, hi, hp⟩
    refine ⟨i, List.mem_range.mpr (List.getElem?_eq_some_iff.mp hi).1, ?_⟩
    rw [if_pos hp]
    exact hi

/-- The last picked element with a property, found by position. -/
theorem find?_reverse_pick (p : ℕ → Bool) (q : α → Bool) (l : List α) :
    (pick p l).reverse.find? q =
      ((List.range l.length).reverse.find? fun i => p i && l[i]?.any q).bind (l[·]?) := by
  unfold pick
  rw [← List.filterMap_reverse, List.find?_filterMap]
  have hsame : ∀ i, ((if p i then l[i]? else none).any q) = (p i && l[i]?.any q) := by
    intro i
    by_cases hp : p i <;> simp [hp]
  simp only [hsame]
  rcases hfind : (List.range l.length).reverse.find? fun i => p i && l[i]?.any q with _ | i
  · rfl
  · have hi := List.find?_some hfind
    simp only [Bool.and_eq_true] at hi
    simp [hi.1]

end

/-- The module has the owner of the frame and lies around its address. -/
def Covers (processId : Int32) (frame : FrameRecord) (module : ModuleRecord) : Prop :=
  frameOwner processId frame.mode = some module.owner ∧
    module.start.toNat ≤ frame.absIp.toNat ∧ frame.absIp.toNat < module.stop.toNat

instance (processId : Int32) (frame : FrameRecord) (module : ModuleRecord) :
    Decidable (Covers processId frame module) := by
  unfold Covers
  infer_instance

/-- The address of the frame in the file of the module, if it is a 64-bit number. -/
def addressIn (module : ModuleRecord) (frame : FrameRecord) : Option UInt64 :=
  let address := frame.absIp.toNat - module.start.toNat + module.fileOffset.toNat
  if address < 2 ^ 64 then some (UInt64.ofNat address) else none

/-- The newest module in the list that covers the frame, with the address in its file. -/
def resolveIn (active : List ModuleRecord) (processId : Int32) (frame : FrameRecord) :
    Option FrameModuleRef :=
  (active.reverse.find? fun module => Covers processId frame module).bind fun module =>
    (addressIn module frame).map fun address => ⟨module, address⟩

theorem moduleOwnsFrame_eq (module : ModuleRecord) (processId : Int32) (frame : FrameRecord) :
    moduleOwnsFrame module processId frame = decide (Covers processId frame module) := by
  rw [Bool.eq_iff_iff, decide_eq_true_eq]
  constructor
  · intro h
    have howner := owner_of_owns h
    unfold moduleOwnsFrame at h
    simp only [Bool.and_eq_true, decide_eq_true_eq] at h
    exact ⟨howner, h.1.2, h.2⟩
  · rintro ⟨howner, hstart, hstop⟩
    unfold moduleOwnsFrame
    simp only [Bool.and_eq_true, decide_eq_true_eq]
    refine ⟨⟨?_, hstart⟩, hstop⟩
    unfold frameOwner at howner
    unfold ModuleRecord.isKernel ModuleRecord.pid
    rcases hmode : frame.mode
    · rw [hmode] at howner
      obtain ⟨pid, hpid, howner⟩ := Option.map_eq_some_iff.mp howner
      rw [← howner]
      simpa [ModuleOwner.pid] using Pid.new_eq_some.mp hpid
    · rw [hmode] at howner
      rw [← Option.some.inj howner]
      rfl
    · rw [hmode] at howner
      cases howner

theorem frameModuleRef_eq {module : ModuleRecord} {frame : FrameRecord}
    (h : module.start.toNat ≤ frame.absIp.toNat) :
    frameModuleRef module frame =
      (addressIn module frame).map fun address => ⟨module, address⟩ := by
  unfold frameModuleRef addressIn
  rcases hoffset : checkedSub frame.absIp module.start with _ | offset
  · have hlt := checkedSub_eq_none.mp hoffset
    omega
  have hsub := checkedSub_eq_some.mp hoffset
  rcases hadd : checkedAdd offset module.fileOffset with _ | address
  · have hge := checkedAdd_eq_none.mp hadd
    dsimp only
    rw [if_neg (by omega)]
    simp [bind, Option.bind, hadd]
  · have hsum := checkedAdd_eq_some.mp hadd
    have hlt := address.toNat_lt
    have haddress : frame.absIp.toNat - module.start.toNat + module.fileOffset.toNat =
        address.toNat := by
      omega
    dsimp only
    rw [haddress, if_pos hlt, UInt64.ofNat_toNat]
    simp [bind, Option.bind, hadd]

/-- The module at a position has not been deactivated. -/
def stillActive (s : ReaderState) (i : ℕ) : Bool :=
  (s.frameContexts.moduleDeactivatedAt.get i).join.isNone

def activeModules (s : ReaderState) : List ModuleRecord := pick (stillActive s) s.modules

/-- The module at a position is in the context of a frame. -/
def visible (s : ReaderState) (frameId : UInt32) (i : ℕ) : Bool :=
  (s.frameContexts.forFrameId frameId).any fun context => s.frameContexts.moduleActive i context

def seenBy (s : ReaderState) (frameId : UInt32) : List ModuleRecord :=
  pick (visible s frameId) s.modules

/-- A frame without a module id resolves to what it sees. -/
theorem moduleForFrameWithContext_eq {s : ReaderState} (h : WellFormed s)
    (hid : frameId.toNat < s.frames.length) (processId : Int32) {frame : FrameRecord}
    (hframe : frame.moduleId = none) :
    moduleForFrameWithContext s.modules s.frameContexts frameId processId frame =
      resolveIn (seenBy s frameId) processId frame := by
  have hlimits : frameId.toNat < s.frameContexts.frameModuleLimits.toList.length := by
    rw [h.contexts.limits_length]
    exact hid
  obtain ⟨context, hcontext⟩ : ∃ context, s.frameContexts.forFrameId frameId = some context := by
    unfold forFrameId
    rw [Chunked.get_eq, List.getElem?_eq_getElem hlimits]
    exact ⟨_, rfl⟩
  have hvisible : candidate s.modules s.frameContexts context processId frame = fun i =>
      (visible s frameId i && s.modules[i]?.any fun m => Covers processId frame m) := by
    funext i
    unfold candidate visible
    rw [hcontext]
    simp only [moduleOwnsFrame_eq, Option.any_some]
  have hfind := findUnpinnedFrameModule_eq h.contexts hcontext processId frame
  rw [hvisible, ← Option.bind_assoc, ← find?_reverse_pick] at hfind
  have hresolve : findUnpinnedFrameModule s.modules s.frameContexts frameId processId frame =
      resolveIn (seenBy s frameId) processId frame := by
    rw [hfind]
    unfold resolveIn seenBy
    rcases hnewest : (pick (visible s frameId) s.modules).reverse.find?
        fun m => Covers processId frame m with _ | module
    · rfl
    · have hcovers := List.find?_some hnewest
      exact frameModuleRef_eq (of_decide_eq_true hcovers).2.1
  unfold moduleForFrameWithContext
  by_cases hmarker : frame.mode = .truncatedStackMarker
  · rw [if_pos hmarker]
    unfold resolveIn
    have hnone : (seenBy s frameId).reverse.find? (fun m => Covers processId frame m) = none := by
      apply List.find?_eq_none.mpr
      intro module _ hcovers
      have howner := (of_decide_eq_true hcovers).1
      rw [hmarker] at howner
      cases howner
    rw [hnone]
    rfl
  · rw [if_neg hmarker, hframe]
    exact hresolve

section

variable {s : ReaderState}

theorem retires_of_commit (h : WellFormed s) {t : ReaderState} {processId : Pid}
    (hcommit : s.commit (.deactivateProcess processId) = .ok t) :
    ∃ contexts, t = { s with frameContexts := contexts } ∧
      Retires s.frames.length (ownedBy s.modules (.process processId)) s.frameContexts
        contexts := by
  obtain ⟨deactivated, contexts, hok, hretires⟩ :=
    h.contexts.deactivateOwner (.process processId) s.frames.length
  change (·.2) <$> s.deactivateProcess processId = .ok t at hcommit
  unfold ReaderState.deactivateProcess at hcommit
  rw [hok] at hcommit
  cases hcommit
  exact ⟨contexts, rfl, hretires⟩

theorem retires_of_commit_one (h : WellFormed s) {t : ReaderState} {moduleId : ℕ}
    (hlt : moduleId < s.modules.length)
    (hcommit : s.commit (.deactivateModule moduleId) = .ok t) :
    ∃ contexts, t = { s with frameContexts := contexts } ∧
      Retires s.frames.length [moduleId] s.frameContexts contexts := by
  obtain ⟨wasActive, contexts, hok, hretires⟩ := h.contexts.deactivateModule s.frames.length hlt
  change s.deactivateModule moduleId = .ok t at hcommit
  unfold ReaderState.deactivateModule at hcommit
  rw [hok] at hcommit
  cases hcommit
  exact ⟨contexts, rfl, hretires⟩

variable {contexts : SpoolFrameModuleContexts} {moduleIds : List ℕ}

theorem active_retired (h : WellFormed s)
    (hretires : Retires s.frames.length moduleIds s.frameContexts contexts) :
    activeModules { s with frameContexts := contexts } =
      (activeModules s).filter fun m => m.id.toNat ∉ moduleIds := by
  unfold activeModules
  rw [filter_pick]
  apply pick_congr
  intro i hi
  have hget := List.getElem?_eq_getElem hi
  have hid := h.moduleIds i _ hget
  have hlen : i < s.frameContexts.moduleDeactivatedAt.toList.length := by
    rw [h.contexts.deactivated_length]
    exact hi
  unfold stillActive
  rw [Chunked.get_eq, Chunked.get_eq, hretires.times, getElem?_retire,
    List.getElem?_eq_getElem hlen, hget, Option.any_some, hid]
  by_cases hmem : i ∈ moduleIds
  · rcases s.frameContexts.moduleDeactivatedAt.toList[i] with _ | time <;> simp [hmem]
  · simp [hmem]

theorem seen_retired (hretires : Retires s.frames.length moduleIds s.frameContexts contexts)
    (hframe : frameId.toNat < s.frames.length) :
    seenBy { s with frameContexts := contexts } frameId = seenBy s frameId := by
  apply pick_congr
  intro i _
  have hcontext : contexts.forFrameId frameId = s.frameContexts.forFrameId frameId := by
    unfold forFrameId
    rw [hretires.limits]
  unfold visible
  rw [hcontext]
  rcases hsome : s.frameContexts.forFrameId frameId with _ | context
  · rfl
  have hindex : context.frameIndex = frameId.toNat := by
    obtain ⟨limit, _, rfl⟩ := Option.map_eq_some_iff.mp hsome
    rfl
  show contexts.moduleActive i context = s.frameContexts.moduleActive i context
  unfold moduleActive
  rw [Chunked.get_eq, Chunked.get_eq, hretires.times, getElem?_retire]
  congr 1
  by_cases hmem : i ∈ moduleIds
  · rcases s.frameContexts.moduleDeactivatedAt.toList[i]? with _ | _ | time
    · rfl
    · simp only [hmem, if_true, Option.map_some, Option.join_some, Option.none_or]
      exact decide_eq_true (by omega)
    · simp [hmem]
  · simp [hmem]

theorem toList_pushModule (module : ModuleRecord) :
    (s.pushModule module).frameContexts.moduleDeactivatedAt.toList =
      s.frameContexts.moduleDeactivatedAt.toList ++ [none] :=
  Chunked.toList_push _ _

theorem toList_pushFrame (frame : FrameRecord) :
    (s.pushFrame frame).frameContexts.frameModuleLimits.toList =
      s.frameContexts.frameModuleLimits.toList ++ [s.modules.length] :=
  Chunked.toList_push _ _

theorem active_pushModule (h : WellFormed s) (module : ModuleRecord) :
    activeModules (s.pushModule module) = activeModules s ++ [module] := by
  have hlength := h.contexts.deactivated_length
  show pick _ (s.modules ++ [module]) = _
  rw [pick_append]
  congr 1
  · apply pick_congr
    intro i hi
    unfold stillActive
    rw [Chunked.get_eq, Chunked.get_eq, toList_pushModule, List.getElem?_append_left (by omega)]
  · have hnew : stillActive (s.pushModule module) s.modules.length = true := by
      unfold stillActive
      rw [Chunked.get_eq, toList_pushModule, ← hlength, List.getElem?_concat_length]
      rfl
    rw [if_pos hnew]

theorem seen_pushModule (h : WellFormed s) (module : ModuleRecord) (frameId : UInt32) :
    seenBy (s.pushModule module) frameId = seenBy s frameId := by
  have hlength := h.contexts.deactivated_length
  have hcontext : (s.pushModule module).frameContexts.forFrameId frameId =
      s.frameContexts.forFrameId frameId := rfl
  show pick _ (s.modules ++ [module]) = _
  rw [pick_append]
  have hnew : visible (s.pushModule module) frameId s.modules.length = false := by
    unfold visible
    rw [hcontext]
    rcases hsome : s.frameContexts.forFrameId frameId with _ | context
    · rfl
    obtain ⟨limit, hlimit, rfl⟩ := Option.map_eq_some_iff.mp hsome
    rw [Chunked.get_eq] at hlimit
    have hle := h.contexts.limits_le limit (List.mem_of_getElem? hlimit)
    show (decide (s.modules.length < limit) && _) = false
    rw [decide_eq_false (by omega), Bool.false_and]
  rw [hnew, if_neg (by decide), List.append_nil]
  apply pick_congr
  intro i hi
  unfold visible
  rw [hcontext]
  congr 1
  funext context
  unfold moduleActive
  rw [Chunked.get_eq, Chunked.get_eq, toList_pushModule, List.getElem?_append_left (by omega)]

theorem active_pushFrame (frame : FrameRecord) :
    activeModules (s.pushFrame frame) = activeModules s := rfl

theorem seen_pushFrame (h : WellFormed s) (frame : FrameRecord)
    (hframe : frameId.toNat < s.frames.length) :
    seenBy (s.pushFrame frame) frameId = seenBy s frameId := by
  have hcontext : (s.pushFrame frame).frameContexts.forFrameId frameId =
      s.frameContexts.forFrameId frameId := by
    unfold forFrameId
    rw [Chunked.get_eq, Chunked.get_eq, toList_pushFrame, List.getElem?_append_left (by
      rw [h.contexts.limits_length]
      exact hframe)]
  apply pick_congr
  intro i _
  unfold visible
  rw [hcontext]
  rfl

/-- Deactivations name frames that were read before them. -/
def Timed (s : ReaderState) : Prop :=
  ∀ i time, s.frameContexts.moduleDeactivatedAt.get i = some (some time) → time ≤ s.frames.length

/-- A new frame sees what is active. -/
theorem seen_new (h : WellFormed s) (htimed : Timed s) (frame : FrameRecord)
    (hframe : frameId.toNat = s.frames.length) :
    seenBy (s.pushFrame frame) frameId = activeModules s := by
  have hcontext : (s.pushFrame frame).frameContexts.forFrameId frameId =
      some ⟨frameId.toNat, s.modules.length⟩ := by
    unfold forFrameId
    rw [Chunked.get_eq, toList_pushFrame, hframe, ← h.contexts.limits_length,
      List.getElem?_concat_length]
    rfl
  apply pick_congr
  intro i hi
  change i < s.modules.length at hi
  unfold visible stillActive
  rw [hcontext]
  show (decide (i < s.modules.length) && _) = _
  rw [decide_eq_true hi, Bool.true_and]
  have hsame : (s.pushFrame frame).frameContexts.moduleDeactivatedAt.get i =
      s.frameContexts.moduleDeactivatedAt.get i := rfl
  rw [hsame]
  rcases htime : s.frameContexts.moduleDeactivatedAt.get i with _ | _ | time
  · rfl
  · rfl
  · have hle := htimed i time htime
    show decide (frameId.toNat < time) = false
    exact decide_eq_false (by omega)

theorem Timed.retired (h : Timed s)
    (hretires : Retires s.frames.length moduleIds s.frameContexts contexts) :
    Timed { s with frameContexts := contexts } := by
  intro i time htime
  change contexts.moduleDeactivatedAt.get i = some (some time) at htime
  rw [Chunked.get_eq, hretires.times, getElem?_retire] at htime
  obtain ⟨before, hbefore, hsame⟩ := Option.map_eq_some_iff.mp htime
  rcases before with _ | time'
  · split at hsame
    · cases hsame
      exact Nat.le_refl _
    · cases hsame
  · have hle := h i time' (by rw [Chunked.get_eq]; exact hbefore)
    split at hsame
    · cases hsame
      exact hle
    · cases hsame
      exact hle

end

end StackPulse.Visibility
