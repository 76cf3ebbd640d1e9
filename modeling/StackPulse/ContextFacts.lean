import StackPulse.FrameContexts
import Mathlib.Data.List.TakeWhile

/-!
The module contexts of a spool compared with the list of its modules. A coherent
context knows every module and every frame, so deactivation cannot fail, and the
chunked index of the modules of one owner lists exactly those modules. Resolving
a frame without a module id is then a search for the newest module that was
visible to the frame.
-/
namespace StackPulse.ContextFacts

open Chunks Model FrameContexts SpoolFrameModuleContexts

variable {context : FrameLookupContext} {moduleIds : List ℕ} {after : SpoolFrameModuleContexts}
  {deactivatedAt : ℕ}

/-- Indices of the modules of `owner`, oldest first. -/
def ownedBy (modules : List ModuleRecord) (owner : ModuleOwner) : List ℕ :=
  (List.range modules.length).filter fun i => modules[i]?.any fun m => m.owner = owner

theorem mem_ownedBy {modules : List ModuleRecord} {owner : ModuleOwner} {i : ℕ} :
    i ∈ ownedBy modules owner ↔ ∃ m, modules[i]? = some m ∧ m.owner = owner := by
  unfold ownedBy
  rw [List.mem_filter, List.mem_range]
  constructor
  · rintro ⟨_, h⟩
    rcases hm : modules[i]? with _ | m
    · rw [hm] at h
      cases h
    · rw [hm] at h
      exact ⟨m, rfl, of_decide_eq_true h⟩
  · rintro ⟨m, hm, howner⟩
    refine ⟨(List.getElem?_eq_some_iff.mp hm).1, ?_⟩
    rw [hm]
    exact decide_eq_true howner

theorem ownedBy_append (modules : List ModuleRecord) (module : ModuleRecord)
    (owner : ModuleOwner) :
    ownedBy (modules ++ [module]) owner =
      ownedBy modules owner ++ if module.owner = owner then [modules.length] else [] := by
  unfold ownedBy
  rw [List.length_append, List.length_singleton, List.range_succ, List.filter_append]
  congr 1
  · apply List.filter_congr
    intro i hi
    rw [List.getElem?_append_left (List.mem_range.mp hi)]
  · by_cases howner : module.owner = owner
    · simp [howner]
    · simp [howner]

theorem pairwise_ownedBy (modules : List ModuleRecord) (owner : ModuleOwner) :
    (ownedBy modules owner).Pairwise (· < ·) :=
  List.Pairwise.filter _ List.pairwise_lt_range

theorem takeWhile_lt_eq_filter (limit : ℕ) (l : List ℕ) (hsorted : l.Pairwise (· < ·)) :
    l.takeWhile (· < limit) = l.filter (· < limit) := by
  induction l with
  | nil => rfl
  | cons a l ih =>
    obtain ⟨hhead, htail⟩ := List.pairwise_cons.mp hsorted
    by_cases ha : a < limit
    · have hpos : decide (a < limit) = true := decide_eq_true ha
      simp only [List.takeWhile_cons, List.filter_cons, hpos, if_true, ih htail]
    · have hnone : (a :: l).filter (· < limit) = [] := by
        apply List.filter_eq_nil_iff.mpr
        intro b hb
        rcases List.mem_cons.mp hb with rfl | hb
        · simpa using ha
        · have hab := hhead b hb
          have : limit ≤ b := by omega
          simpa using this
      rw [hnone, List.takeWhile_cons_of_neg (by simpa using ha)]

theorem take_partitionPoint {α : Type*} (p : α → Bool) (l : List α) :
    l.take (partitionPoint p l) = l.takeWhile p :=
  (List.prefix_iff_eq_take.mp (List.takeWhile_prefix p)).symm

/-- Chunks after the first of an enumeration are taken whole. -/
theorem flatMap_zipIdx_succ (f : List ℕ → ℕ) (chunks : List (List ℕ)) (n : ℕ) :
    ((chunks.zipIdx (n + 1)).flatMap fun p =>
      (p.1.take (if p.2 = 0 then f p.1 else p.1.length)).reverse) =
      chunks.flatMap List.reverse := by
  induction chunks generalizing n with
  | nil => rfl
  | cons chunk chunks ih =>
    rw [List.zipIdx_cons, List.flatMap_cons, List.flatMap_cons, ih (n + 1),
      if_neg (Nat.succ_ne_zero n), List.take_length]

/-- Of ascending chunks, those that start below a limit, the last of them cut at
the limit, hold the elements below the limit. -/
theorem filter_lt_flatten (limit : ℕ) (taken dropped : List (List ℕ))
    (hsorted : (taken ++ dropped).flatten.Pairwise (· < ·))
    (hne : ∀ chunk ∈ taken ++ dropped, chunk ≠ [])
    (htaken : ∀ chunk ∈ taken, chunk.head?.any (· < limit))
    (hdropped : ∀ chunk, dropped.head? = some chunk → ¬ chunk.head?.any (· < limit)) :
    (taken.reverse.zipIdx.flatMap fun p =>
      (p.1.take (if p.2 = 0 then partitionPoint (· < limit) p.1 else p.1.length)).reverse) =
      ((taken ++ dropped).flatten.filter (· < limit)).reverse := by
  rw [List.flatten_append] at hsorted ⊢
  obtain ⟨hsorted', hrest, hcross⟩ := List.pairwise_append.mp hsorted
  have habove : dropped.flatten.filter (· < limit) = [] := by
    rcases dropped with _ | ⟨chunk, chunks⟩
    · rfl
    · rcases chunk with _ | ⟨a, chunk⟩
      · exact absurd rfl (hne [] (List.mem_append_right _ (.head _)))
      · have ha : ¬ a < limit := by
          simpa using hdropped _ rfl
        rw [List.flatten_cons, List.cons_append] at hrest ⊢
        apply List.filter_eq_nil_iff.mpr
        intro b hb
        rcases List.mem_cons.mp hb with rfl | hb
        · simpa using ha
        · have hab := (List.pairwise_cons.mp hrest).1 b hb
          have hle : limit ≤ b := by omega
          simpa using hle
  rw [List.filter_append, habove, List.append_nil]
  rcases List.eq_nil_or_concat taken with rfl | ⟨init, last, rfl⟩
  · rfl
  · rw [List.concat_eq_append] at *
    rw [List.flatten_append, List.flatten_singleton] at hsorted' ⊢
    obtain ⟨_, hlast, hbelow⟩ := List.pairwise_append.mp hsorted'
    have hkeep : init.flatten.filter (· < limit) = init.flatten := by
      apply List.filter_eq_self.mpr
      intro b hb
      have hhead := htaken last (List.mem_append_right _ (.head _))
      rcases last with _ | ⟨a, last⟩
      · cases hhead
      · have ha : a < limit := by simpa using hhead
        have hba := hbelow b hb a (.head _)
        have hb' : b < limit := by omega
        simpa using hb'
    rw [List.filter_append, hkeep, List.reverse_append, List.reverse_append,
      List.reverse_singleton, List.singleton_append, List.zipIdx_cons, List.flatMap_cons]
    congr 1
    · rw [if_pos rfl, ← takeWhile_lt_eq_filter limit last hlast, take_partitionPoint]
    · rw [flatMap_zipIdx_succ, List.flatMap_def, List.map_reverse, List.reverse_flatten]

/-- The modules of an owner that the contexts know. -/
def ownedIndices (ctx : SpoolFrameModuleContexts) (owner : ModuleOwner) : List ℕ :=
  ((ctx.ownedModules.lookup owner).map (·.toList)).getD []

theorem ownedModulesBefore_eq (ctx : SpoolFrameModuleContexts) (owner : ModuleOwner) (limit : ℕ)
    (hsorted : (ownedIndices ctx owner).Pairwise (· < ·)) :
    ctx.ownedModulesBefore owner limit = ((ownedIndices ctx owner).filter (· < limit)).reverse := by
  unfold ownedModulesBefore
  unfold ownedIndices at hsorted ⊢
  rcases hlookup : ctx.ownedModules.lookup owner with _ | ⟨chunks, hchunks⟩
  · rfl
  · rw [hlookup] at hsorted
    simp only [Option.map_some, Option.getD_some, Chunked.toList, take_partitionPoint] at hsorted ⊢
    have hsplit := List.takeWhile_append_dropWhile
      (p := fun chunk : List ℕ => chunk.head?.any (· < limit)) (l := chunks)
    have hfilter := filter_lt_flatten limit
      (chunks.takeWhile fun chunk => chunk.head?.any (· < limit))
      (chunks.dropWhile fun chunk => chunk.head?.any (· < limit))
    rw [hsplit] at hfilter
    refine hfilter hsorted hchunks.ne_nil ?_ ?_
    · intro chunk hchunk
      have htaken := List.mem_takeWhile_imp hchunk
      exact htaken
    · intro chunk hchunk
      have hnot := List.head?_dropWhile_not (fun chunk : List ℕ => chunk.head?.any (· < limit))
        chunks
      rw [hchunk] at hnot
      simpa using hnot

/-- The contexts describe these modules and this many frames. -/
structure Coherent (ctx : SpoolFrameModuleContexts) (modules : List ModuleRecord)
    (frameCount : ℕ) : Prop where
  limits_length : ctx.frameModuleLimits.toList.length = frameCount
  limits_le : ∀ limit ∈ ctx.frameModuleLimits.toList, limit ≤ modules.length
  deactivated_length : ctx.moduleDeactivatedAt.toList.length = modules.length
  owned : ∀ owner, ownedIndices ctx owner = ownedBy modules owner

/-- Deactivation times after the listed modules are deactivated; a module keeps
its first time. -/
def retire (deactivatedAt : ℕ) (moduleIds : List ℕ) (times : List (Option ℕ)) :
    List (Option ℕ) :=
  times.mapIdx fun i time => if i ∈ moduleIds then time.or (some deactivatedAt) else time

/-- `after` differs from `before` by the deactivation of the listed modules. -/
structure Retires (deactivatedAt : ℕ) (moduleIds : List ℕ)
    (before after : SpoolFrameModuleContexts) : Prop where
  limits : after.frameModuleLimits = before.frameModuleLimits
  owned : after.ownedModules = before.ownedModules
  times : after.moduleDeactivatedAt.toList =
    retire deactivatedAt moduleIds before.moduleDeactivatedAt.toList

variable {ctx : SpoolFrameModuleContexts} {modules : List ModuleRecord} {frameCount : ℕ}

theorem coherent_empty : Coherent .empty [] 0 where
  limits_length := rfl
  limits_le := by simp [SpoolFrameModuleContexts.empty]
  deactivated_length := rfl
  owned _ := rfl

theorem length_retire (deactivatedAt : ℕ) (moduleIds : List ℕ) (times : List (Option ℕ)) :
    (retire deactivatedAt moduleIds times).length = times.length :=
  List.length_mapIdx

theorem getElem?_retire (deactivatedAt : ℕ) (moduleIds : List ℕ) (times : List (Option ℕ))
    (i : ℕ) : (retire deactivatedAt moduleIds times)[i]? =
      times[i]?.map fun time => if i ∈ moduleIds then time.or (some deactivatedAt) else time :=
  List.getElem?_mapIdx

theorem Retires.coherent (h : Retires deactivatedAt moduleIds ctx after)
    (hctx : Coherent ctx modules frameCount) :
    Coherent after modules frameCount where
  limits_length := by rw [h.limits, hctx.limits_length]
  limits_le := by rw [h.limits]; exact hctx.limits_le
  deactivated_length := by rw [h.times, length_retire, hctx.deactivated_length]
  owned owner := by
    rw [← hctx.owned owner]
    unfold ownedIndices
    rw [h.owned]

/-- A module the contexts know can be deactivated. -/
theorem deactivateModule_eq (deactivatedAt : ℕ) {moduleId : ℕ}
    (hlt : moduleId < ctx.moduleDeactivatedAt.toList.length) :
    ∃ wasActive after, ctx.deactivateModule moduleId deactivatedAt = .ok (wasActive, after) ∧
      Retires deactivatedAt [moduleId] ctx after := by
  have hget : ctx.moduleDeactivatedAt.get moduleId =
      some ctx.moduleDeactivatedAt.toList[moduleId] := by
    rw [Chunked.get_eq, List.getElem?_eq_getElem hlt]
  unfold deactivateModule
  rw [hget]
  rcases htime : ctx.moduleDeactivatedAt.toList[moduleId] with _ | time
  · refine ⟨_, _, rfl, rfl, rfl, ?_⟩
    apply List.ext_getElem?
    intro i
    rw [Chunked.toList_set, getElem?_retire, List.getElem?_set]
    by_cases hi : moduleId = i
    · subst hi
      rw [List.getElem?_eq_getElem hlt, htime]
      simp [hlt]
    · have hi' : i ≠ moduleId := Ne.symm hi
      rw [if_neg hi]
      simp [hi']
  · refine ⟨_, _, rfl, rfl, rfl, ?_⟩
    apply List.ext_getElem?
    intro i
    rw [getElem?_retire]
    by_cases hi : i = moduleId
    · subst hi
      rw [List.getElem?_eq_getElem hlt, htime]
      simp
    · simp [hi]

theorem retire_cons (deactivatedAt moduleId : ℕ) (moduleIds : List ℕ) (times : List (Option ℕ)) :
    retire deactivatedAt moduleIds (retire deactivatedAt [moduleId] times) = retire deactivatedAt
    (moduleId :: moduleIds) times := by
  apply List.ext_getElem?
  intro i
  rw [getElem?_retire, getElem?_retire, getElem?_retire, Option.map_map]
  congr 1
  funext time
  simp only [Function.comp, List.mem_cons]
  by_cases hi : i = moduleId
  · by_cases hmem : i ∈ moduleIds
    · rcases time with _ | time <;> simp [hi]
    · simp [hi]
  · simp [hi]

theorem deactivateAll_eq (deactivatedAt : ℕ)
    (hlt : ∀ moduleId ∈ moduleIds, moduleId < ctx.moduleDeactivatedAt.toList.length) :
    ∃ deactivated after, deactivateAll deactivatedAt moduleIds ctx = .ok (deactivated, after) ∧
      Retires deactivatedAt moduleIds ctx after := by
  induction moduleIds generalizing ctx with
  | nil =>
    refine ⟨[], ctx, rfl, rfl, rfl, ?_⟩
    apply List.ext_getElem?
    intro i
    rw [getElem?_retire]
    simp
  | cons moduleId moduleIds ih =>
    obtain ⟨wasActive, mid, hone, hmid⟩ :=
      deactivateModule_eq deactivatedAt (hlt moduleId (.head _))
    have hlt' : ∀ id ∈ moduleIds, id < mid.moduleDeactivatedAt.toList.length := by
      intro id hid
      rw [hmid.times, length_retire]
      exact hlt id (.tail _ hid)
    obtain ⟨deactivated, after, hall, hafter⟩ := ih hlt'
    refine ⟨if wasActive then moduleId :: deactivated else deactivated, after, ?_, ?_⟩
    · unfold deactivateAll
      rw [hone]
      simp only [bind, Except.bind]
      rw [hall]
      rfl
    · refine ⟨hafter.limits.trans hmid.limits, hafter.owned.trans hmid.owned, ?_⟩
      rw [hafter.times, hmid.times, retire_cons]

/-- Only listed modules are reported as deactivated. -/
theorem deactivateAll_subset {deactivated : List ℕ}
    (h : deactivateAll deactivatedAt moduleIds ctx = .ok (deactivated, after)) :
    deactivated ⊆ moduleIds := by
  induction moduleIds generalizing ctx deactivated with
  | nil =>
    unfold deactivateAll at h
    cases h
    exact List.Subset.refl _
  | cons moduleId moduleIds ih =>
    unfold deactivateAll at h
    rcases hone : ctx.deactivateModule moduleId deactivatedAt with e | ⟨wasActive, mid⟩
    · rw [hone] at h
      cases h
    · rw [hone] at h
      simp only [bind, Except.bind] at h
      rcases hall : deactivateAll deactivatedAt moduleIds mid with e | ⟨rest, last⟩
      · rw [hall] at h
        cases h
      · rw [hall] at h
        cases h
        have hrest := ih hall
        by_cases hactive : wasActive = true
        · rw [if_pos hactive]
          exact List.cons_subset_cons _ hrest
        · rw [if_neg hactive]
          exact List.subset_cons_of_subset _ hrest

namespace Coherent

section

variable (h : Coherent ctx modules frameCount)

include h

theorem pushModule (module : ModuleRecord) :
    Coherent (ctx.pushModule modules.length module.owner) (modules ++ [module]) frameCount where
  limits_length := h.limits_length
  limits_le limit hlimit := by
    have hle := h.limits_le limit hlimit
    rw [List.length_append]
    omega
  deactivated_length := by
    change (ctx.moduleDeactivatedAt.push none).toList.length = _
    rw [Chunked.toList_push, List.length_append, List.length_append, h.deactivated_length]
    rfl
  owned owner := by
    rw [ownedBy_append, ← h.owned owner]
    unfold ownedIndices SpoolFrameModuleContexts.pushModule
    by_cases howner : module.owner = owner
    · subst howner
      rw [AList.lookup_insert, if_pos rfl]
      rcases ctx.ownedModules.lookup module.owner with _ | owned <;> simp
    · rw [AList.lookup_insert_ne (Ne.symm howner), if_neg howner, List.append_nil]

theorem pushFrame :
    Coherent (ctx.pushFrame modules.length) modules (frameCount + 1) where
  limits_length := by
    change (ctx.frameModuleLimits.push _).toList.length = _
    rw [Chunked.toList_push, List.length_append, h.limits_length]
    rfl
  limits_le limit hlimit := by
    change limit ∈ (ctx.frameModuleLimits.push _).toList at hlimit
    rw [Chunked.toList_push] at hlimit
    rcases List.mem_append.mp hlimit with hold | hnew
    · exact h.limits_le limit hold
    · rw [List.mem_singleton.mp hnew]
  deactivated_length := h.deactivated_length
  owned := h.owned

theorem deactivateModule (deactivatedAt : ℕ) {moduleId : ℕ} (hlt : moduleId < modules.length) :
    ∃ wasActive after, ctx.deactivateModule moduleId deactivatedAt = .ok (wasActive, after) ∧
      Retires deactivatedAt [moduleId] ctx after :=
  deactivateModule_eq deactivatedAt (by rw [h.deactivated_length]; exact hlt)

theorem deactivateOwner (owner : ModuleOwner) (deactivatedAt : ℕ) :
    ∃ deactivated after, ctx.deactivateOwner owner deactivatedAt = .ok (deactivated, after) ∧
      Retires deactivatedAt (ownedBy modules owner) ctx after := by
  have howned := h.owned owner
  unfold ownedIndices at howned
  unfold SpoolFrameModuleContexts.deactivateOwner
  rcases hlookup : ctx.ownedModules.lookup owner with _ | indices
  · rw [hlookup] at howned
    have hnil : ownedBy modules owner = [] := howned.symm
    refine ⟨[], ctx, rfl, rfl, rfl, ?_⟩
    apply List.ext_getElem?
    intro i
    rw [hnil, getElem?_retire]
    simp
  · rw [hlookup] at howned
    have heq : indices.toList = ownedBy modules owner := howned
    rw [← heq]
    apply deactivateAll_eq
    intro moduleId hmem
    rw [heq] at hmem
    obtain ⟨m, hm, _⟩ := mem_ownedBy.mp hmem
    rw [h.deactivated_length]
    exact (List.getElem?_eq_some_iff.mp hm).1

theorem deactivateOwner_subset {owner : ModuleOwner} {deactivated : List ℕ}
    (hdeactivate : ctx.deactivateOwner owner deactivatedAt = .ok (deactivated, after)) :
    deactivated ⊆ ownedBy modules owner := by
  have howned := h.owned owner
  unfold ownedIndices at howned
  unfold SpoolFrameModuleContexts.deactivateOwner at hdeactivate
  rcases hlookup : ctx.ownedModules.lookup owner with _ | indices
  · rw [hlookup] at hdeactivate
    cases hdeactivate
    exact List.nil_subset _
  · rw [hlookup] at howned hdeactivate
    have heq : indices.toList = ownedBy modules owner := howned
    rw [← heq]
    exact deactivateAll_subset hdeactivate

end

end Coherent

theorem owner_of_owns {module : ModuleRecord} {processId : Int32} {frame : FrameRecord}
    (h : moduleOwnsFrame module processId frame = true) :
    frameOwner processId frame.mode = some module.owner := by
  unfold moduleOwnsFrame at h
  simp only [Bool.and_eq_true] at h
  obtain ⟨⟨hown, _⟩, _⟩ := h
  unfold frameOwner
  rcases hmode : frame.mode with _ | _ | _
  · simp only [hmode] at hown ⊢
    rcases howner : module.owner with pid | _
    · have hpid : module.pid = some pid := by
        unfold ModuleRecord.pid
        rw [howner]
        rfl
      rw [hpid] at hown
      have hget : pid.get = processId := by simpa using hown
      rw [Pid.new_eq_some.mpr hget]
      rfl
    · have hpid : module.pid = none := by
        unfold ModuleRecord.pid
        rw [howner]
        rfl
      rw [hpid] at hown
      cases hown
  · simp only [hmode] at hown ⊢
    rcases howner : module.owner with pid | _
    · unfold ModuleRecord.isKernel at hown
      rw [howner] at hown
      cases hown
    · rfl
  · simp only [hmode] at hown
    cases hown

/-- The modules an unpinned frame can resolve to: known before the frame, not
deactivated before it, of its owner and around its address. -/
def candidate (modules : List ModuleRecord) (ctx : SpoolFrameModuleContexts)
    (context : FrameLookupContext) (processId : Int32) (frame : FrameRecord) (i : ℕ) : Bool :=
  ctx.moduleActive i context && modules[i]?.any fun m => moduleOwnsFrame m processId frame

/-- The last element that satisfies a predicate, found by a search from the end
of a filtered list. -/
theorem findSome?_reverse_filter {α β : Type*} {l : List α} (p : α → Bool) {q : α → Bool}
    {f : α → Option β} (h : ∀ a ∈ l, p a = (q a && (f a).isSome)) :
    (l.filter q).reverse.findSome? f = (l.reverse.find? p).bind f := by
  have h : ∀ a ∈ l.reverse, p a = (q a && (f a).isSome) := fun a ha => h a (List.mem_reverse.mp ha)
  rw [← List.filter_reverse]
  generalize l.reverse = l at h
  induction l with
  | nil => rfl
  | cons a l ih =>
    have ih := ih fun b hb => h b (.tail _ hb)
    have ha := h a (.head _)
    cases hq : q a <;> cases hf : f a <;> simp_all

theorem Coherent.moduleLimit_le (h : Coherent ctx modules frameCount) {frameId : UInt32}
    (hcontext : ctx.forFrameId frameId = some context) : context.moduleLimit ≤ modules.length := by
  unfold forFrameId at hcontext
  obtain ⟨limit, hget, rfl⟩ := Option.map_eq_some_iff.mp hcontext
  rw [Chunked.get_eq] at hget
  exact h.limits_le limit (List.mem_of_getElem? hget)

theorem lt_of_moduleActive {i : ℕ} (h : ctx.moduleActive i context = true) :
    i < context.moduleLimit := by
  unfold moduleActive at h
  rw [Bool.and_eq_true] at h
  exact of_decide_eq_true h.1

/-- Resolution of an unpinned frame takes the newest candidate. -/
theorem findUnpinnedFrameModule_eq (h : Coherent ctx modules frameCount) {frameId : UInt32}
    (hcontext : ctx.forFrameId frameId = some context) (processId : Int32) (frame : FrameRecord) :
    findUnpinnedFrameModule modules ctx frameId processId frame =
      ((List.range modules.length).reverse.find?
        (candidate modules ctx context processId frame)).bind fun i =>
          modules[i]?.bind fun m => frameModuleRef m frame := by
  have hlimit := h.moduleLimit_le hcontext
  have howns : ∀ i, candidate modules ctx context processId frame i = true →
      ctx.moduleActive i context = true ∧ ∃ m, modules[i]? = some m ∧
        moduleOwnsFrame m processId frame = true := by
    intro i hi
    unfold candidate at hi
    rw [Bool.and_eq_true] at hi
    rcases hm : modules[i]? with _ | m
    · rw [hm] at hi
      cases hi.2
    · rw [hm] at hi
      exact ⟨hi.1, m, rfl, hi.2⟩
  unfold findUnpinnedFrameModule
  rw [hcontext]
  rcases howner : frameOwner processId frame.mode with _ | owner
  · have hnone : (List.range modules.length).reverse.find?
        (candidate modules ctx context processId frame) = none := by
      apply List.find?_eq_none.mpr
      intro i _ hi
      obtain ⟨_, m, _, hm⟩ := howns i hi
      rw [owner_of_owns hm] at howner
      cases howner
    rw [hnone]
    rfl
  · change Option.bind (List.findSome? _
      (ctx.ownedModulesBefore owner (min context.moduleLimit modules.length))) _ = _
    rw [Nat.min_eq_left hlimit, ownedModulesBefore_eq _ _ _ (by
      rw [h.owned]
      exact pairwise_ownedBy modules owner), h.owned, ownedBy, List.filter_filter,
      findSome?_reverse_filter (candidate modules ctx context processId frame)]
    · rw [Option.bind_assoc]
      rcases hfind : (List.range modules.length).reverse.find?
        (candidate modules ctx context processId frame) with _ | i
      · rfl
      · obtain ⟨hactive, m, hm, hown⟩ := howns i (List.find?_some hfind)
        simp only [Option.bind_some, hactive, if_true, hm, Option.filter_some, hown]
    · intro i _
      rw [Bool.eq_iff_iff]
      refine ⟨fun hcand => ?_, fun hfound => ?_⟩
      · obtain ⟨hactive, m, hm, hown⟩ := howns i hcand
        rw [owner_of_owns hown] at howner
        simp [lt_of_moduleActive hactive, hm, Option.some.inj howner, hactive, hown]
      · obtain ⟨-, hsome⟩ := Bool.and_eq_true_iff.mp hfound
        split at hsome
        · rename_i hactive
          obtain ⟨m, hm⟩ := Option.isSome_iff_exists.mp hsome
          obtain ⟨hm, hown⟩ := Option.filter_eq_some_iff.mp hm
          unfold candidate
          rw [hactive, hm]
          exact hown
        · cases hsome

end StackPulse.ContextFacts
