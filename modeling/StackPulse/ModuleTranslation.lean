import StackPulse.ModuleRuns
import StackPulse.Resolution

/-!
Addresses in what replacements leave of a module. An address that no replacement
covers stays in a part of the module, and the part translates it as the module did,
with one exception: the file offset of a part is cut off at the largest 64-bit number,
so the first address of a part can get a file address that the module refused to give.
-/
namespace StackPulse.ModuleTranslation

open Model FrameContexts Visibility Resolution Sessions Attempts Modules ModuleSearch
  ModuleRepresentation ModuleParts ModuleChanges ModuleApplication ModuleRuns

/-- The replacement is a mapping of the process that ends at the address. -/
def EndsAt (pid : Pid) (address : UInt64) (m : ModuleRecord) : Prop :=
  m.owner = .process pid ∧ m.start.toNat < m.stop.toNat ∧ m.stop = address

/-- What is left of a module around an address. -/
structure Remains (active : List ModuleRecord) (pid : Pid) (address : UInt64)
    (m part : ModuleRecord) : Prop where
  active : part ∈ active
  owner : part.owner = .process pid
  around : Around part address
  isPart : Part m part

section

variable {active active' : List ModuleRecord} {pid : Pid} {address : UInt64}
  {m part replacement : ModuleRecord} {u : ModuleUpdate}

theorem Remains.apart (hapart : active.Pairwise ApartIfShared)
    (h : Remains active pid address m part) {other : ModuleRecord} (hother : other ∈ active)
    (howner : other.owner = .process pid) (hne : other ≠ part) : Apart other part := by
  have : Std.Symm ApartIfShared := ⟨fun _ _ => ApartIfShared.symm⟩
  exact hapart.forall hother h.active hne pid howner h.owner

/-- The part that a replacement leaves around an address. -/
theorem remains_of_meets (h : Remains active pid address m part) {retired : List ModuleRecord}
    {activations : List ModuleActivation}
    (hreplaced : Replaced active replacement retired activations active')
    (hmeets : Meets replacement part) (hout : ¬ Around replacement address) :
    ∃ part', Remains active' pid address m part' ∧
      (part'.start = part.start ∨ part'.start = replacement.stop) ∧ Apart part' replacement := by
  obtain ⟨piece, hpiece, haround⟩ := split_around hmeets.2 h.around hout
  have hleaves := leaves_of_split hmeets.2 hpiece
  have hmem : (part.id, piece) ∈ partsAround replacement retired :=
    List.mem_flatMap.mpr ⟨part, (hreplaced.met part).mpr ⟨h.active, hmeets⟩,
      List.mem_map_of_mem hpiece⟩
  obtain ⟨activation, hactivation, -, hmodule⟩ :=
    exists_of_forall₂_right hreplaced.entered.flip hmem
  refine ⟨activation.module, ⟨?_, ?_, ?_, ?_⟩, ?_, ?_⟩
  · rw [hreplaced.active]
    exact List.mem_append_right _ (List.mem_map_of_mem hactivation)
  · rw [hmodule]
    exact hleaves.isPart.owner.trans h.owner
  · rw [hmodule]
    exact haround
  · rw [hmodule]
    exact (h.isPart.trans hleaves.isPart).withId _
  · rw [hmodule]
    exact hleaves.start
  · rw [hmodule]
    exact hleaves.apart

/-- A replacement leaves a part around an address outside of it. The part starts where the last
one did or at the end of the replacement, and among disjoint modules it starts at the address if
the replacement ends there. -/
theorem remains_of_applied
    (h : Remains active pid address m part) (happlied : Applied active replacement u active')
    (hout : u.mappingChanged = true → replacement.owner = .process pid →
      ¬ Around replacement address) :
    ∃ part', Remains active' pid address m part' ∧
      (part'.start = part.start ∨ EndsAt pid part'.start replacement) ∧
      (active.Pairwise ApartIfShared → (∀ m ∈ active, m.start.toNat < m.stop.toNat) →
        EndsAt pid address replacement → part'.start = address) ∧
      part.start.toNat ≤ part'.start.toNat := by
  obtain ⟨hstart, hstop⟩ := h.around
  have heq : address.toNat ≤ part.start.toNat → part.start = address := fun hle =>
    UInt64.toNat_inj.mp (Nat.le_antisymm hstart hle)
  cases happlied with
  | empty hle =>
    refine ⟨part, h, .inl rfl, fun _ _ hends => ?_, le_rfl⟩
    exact absurd hends.2.1 (Nat.not_lt.mpr hle)
  | known known hnew hknown hcompatible =>
    refine ⟨part, h, .inl rfl, fun hapart hnonempty hends => heq ?_, le_rfl⟩
    obtain ⟨howner, hsameStart, hsameStop, -⟩ := sameMapping_iff.mp hcompatible.same
    have hne : known ≠ part := by
      rintro rfl
      rw [hsameStop, hends.2.2] at hstop
      exact lt_irrefl _ hstop
    have hrange := h.apart hapart hknown (howner.trans hends.1) hne
    have hnonemptyKnown := hnonempty known hknown
    unfold Apart at hrange
    rw [hsameStop, hends.2.2] at hrange hnonemptyKnown
    omega
  | entered retired activations rest id hnew hunknown hrest =>
    rcases hrest with ⟨hkernel, -, -, rfl⟩ | ⟨⟨pid', howner⟩, hreplaced⟩
    · refine ⟨part, ⟨List.mem_append_left _ h.active, h.owner, h.around, h.isPart⟩, .inl rfl,
        fun _ _ hends => ?_, le_rfl⟩
      exact absurd (hkernel.symm.trans hends.1) (by simp)
    · by_cases hmeets : Meets replacement part
      · have howner' := hmeets.1.symm.trans h.owner
        obtain ⟨part', hremains, hstart', hrange⟩ :=
          remains_of_meets h hreplaced hmeets (hout rfl howner')
        obtain ⟨hstart'', hstop''⟩ := hremains.around
        refine ⟨part', ⟨List.mem_append_left _ hremains.active, hremains.owner, hremains.around,
          hremains.isPart⟩, ?_, fun _ _ hends => ?_, ?_⟩
        · exact hstart'.imp_right fun hsame => ⟨howner', hnew, hsame.symm⟩
        · have hends' : replacement.stop.toNat = address.toNat := congrArg _ hends.2.2
          unfold Apart at hrange
          apply UInt64.toNat_inj.mp
          omega
        · rcases hstart' with hsame | hsame <;> rw [hsame]
          exact (overlap_iff.mp hmeets.2).1.le
      · refine ⟨part, ⟨?_, h.owner, h.around, h.isPart⟩, .inl rfl, fun _ _ hends => heq ?_,
          Nat.le_refl _⟩
        · rw [hreplaced.active]
          exact List.mem_append_left _ (List.mem_append_left _
            (List.mem_filter.mpr ⟨h.active, decide_eq_true hmeets⟩))
        · have hrange : ¬ moduleRangesOverlap part replacement = true := fun hmeet =>
            hmeets ⟨h.owner.trans hends.1.symm, hmeet⟩
          have hends' : replacement.stop.toNat = address.toNat := congrArg _ hends.2.2
          rw [overlap_iff] at hrange
          omega

theorem newestAround_of_remains (hapart : active.Pairwise ApartIfShared)
    (h : Remains active pid address m part) :
    newestAround active (frameOwner pid.get .user) address = some part := by
  have howner : frameOwner pid.get .user = some (.process pid) := by
    unfold frameOwner
    rw [Pid.new_get]
    rfl
  unfold newestAround
  rcases hfind : active.reverse.find? fun m' =>
    decide (frameOwner pid.get .user = some m'.owner ∧ Around m' address) with _ | found
  · have hnot := List.find?_eq_none.mp hfind part (List.mem_reverse.mpr h.active)
    exact absurd (decide_eq_true ⟨howner.trans (congrArg some h.owner.symm), h.around⟩) hnot
  · have hdecide := List.find?_some hfind
    obtain ⟨hfound, haround⟩ := of_decide_eq_true hdecide
    by_contra hne
    have hrange := h.apart hapart (List.mem_reverse.mp (List.mem_of_find?_eq_some hfind))
      (Option.some.inj (hfound.symm.trans howner)) fun hsame =>
        hne (hfind.trans (congrArg some hsame))
    obtain ⟨hstart, hstop⟩ := h.around
    obtain ⟨hstart', hstop'⟩ := haround
    unfold Apart at hrange
    omega

end

/-- Apply the replacements one after another. -/
def applyAll {σ : Type} (write : Op → σ → Except Stop Unit × σ) :
    List ModuleRecord → Recording σ (List ModuleUpdate)
  | [] => return []
  | m :: mappings => do
      let update ← applyModule write m
      let updates ← applyAll write mappings
      return update :: updates

/-- No replacement of the process that changed something covers the address. -/
abbrev Survives (pid : Pid) (address : UInt64) (replacements : List ModuleRecord)
    (updates : List ModuleUpdate) : Prop :=
  List.Forall₂ (fun replacement update => update.mappingChanged = true →
    replacement.owner = .process pid → ¬ Around replacement address) replacements updates

section

variable {σ : Type} {write : Op → σ → Except Stop Unit × σ} {writer : σ} {log : List Op}
  {s : Recorder σ} {pid : Pid} {address : UInt64} {m : ModuleRecord}

/-- What the replacements leave around an address that survives them. It starts at the address
exactly if the module did or a replacement ended there. -/
theorem remains_of_applyAll {replacements : List ModuleRecord} {updates : List ModuleUpdate}
    {s' : Recorder σ} (hs : Recorded write writer log s)
    (hrun : applyAll write replacements s = (.ok updates, s'))
    (hsurvives : Survives pid address replacements updates) {part : ModuleRecord}
    (h : Remains (activeOf log) pid address m part) :
    ∃ ops part', Recorded write writer (log ++ ops) s' ∧
      Remains (activeOf (log ++ ops)) pid address m part' ∧
      (part'.start = address ↔
        part.start = address ∨ ∃ replacement ∈ replacements, EndsAt pid address replacement) := by
  induction replacements generalizing log s part updates with
  | nil =>
    cases hrun
    refine ⟨[], part, by rwa [List.append_nil], by rwa [List.append_nil], ?_⟩
    simp
  | cons replacement replacements ih =>
    obtain ⟨u, s₁, happly, hrest⟩ := bind_eq_ok hrun
    obtain ⟨updates', s₂, hrun', hdone⟩ := bind_eq_ok hrest
    cases hdone
    have hran := applyModule_ran hs replacement
    rw [happly] at hran
    cases hsurvives with
    | cons hout hsurvives =>
    cases hran with
    | ok ops hs' happlied =>
    obtain ⟨part', hremains, hstart, hends, hle⟩ := remains_of_applied h happlied hout
    obtain ⟨more, part'', hs'', hremains', hiff⟩ := ih hs' hrun' hsurvives hremains
    refine ⟨ops ++ more, part'', by rwa [← List.append_assoc], by rwa [← List.append_assoc], ?_⟩
    rw [hiff, List.exists_mem_cons_iff, ← or_assoc]
    refine or_congr_left ⟨fun hat => ?_, fun hat => ?_⟩
    · rcases hstart with hsame | hat'
      · exact .inl (hsame.symm.trans hat)
      · rw [hat] at hat'
        exact .inr hat'
    · rcases hat with hat | hat
      · apply UInt64.toNat_inj.mp
        rw [hat] at hle
        exact Nat.le_antisymm hremains.around.1 hle
      · exact hends hs.table.apart hs.table.nonempty hat

end

/-- Two frames at one address with the same file address, or both without one. -/
structure SameTranslation (frame frame' : FrameRecord) : Prop where
  pinned : frame.moduleId.isSome = frame'.moduleId.isSome
  fileRelativeIp : frame.fileRelativeIp = frame'.fileRelativeIp
  absIp : frame.absIp = frame'.absIp
  mode : frame.mode = frame'.mode

/-- The file address that a module gives to an address, as an unbounded number. -/
def translation (m : ModuleRecord) (address : UInt64) : ℕ :=
  address.toNat - m.start.toNat + m.fileOffset.toNat

theorem sameTranslation_iff {m part : ModuleRecord} {address : UInt64} (hpart : Part m part)
    (haround : Around part address) (mode : FrameMode) :
    SameTranslation (frameFor (some (ModuleIndexEntry.of part)) address mode)
        (frameFor (some (ModuleIndexEntry.of m)) address mode) ↔
      translation m address < 2 ^ 64 ∨ part.start ≠ address := by
  have hstart := hpart.start_le
  have hstop := hpart.stop_le
  have hoffset := hpart.fileOffset
  have hlt := m.fileOffset.toNat_lt
  obtain ⟨hle, hbehind⟩ := haround
  have haround' : Around m address := ⟨hstart.trans hle, hbehind.trans_le hstop⟩
  rw [frameFor_around ⟨hle, hbehind⟩, frameFor_around haround']
  unfold addressIn translation
  simp only
  by_cases hfits : address.toNat - m.start.toNat + m.fileOffset.toNat < 2 ^ 64
  · have hsame : address.toNat - part.start.toNat + part.fileOffset.toNat =
        address.toNat - m.start.toNat + m.fileOffset.toNat := by omega
    rw [hsame, if_pos hfits]
    exact iff_of_true ⟨rfl, rfl, rfl, rfl⟩ (.inl hfits)
  · rw [if_neg hfits]
    have hat : part.start ≠ address ↔ part.start.toNat ≠ address.toNat :=
      not_congr UInt64.toNat_inj.symm
    by_cases hcut : address.toNat - part.start.toNat + part.fileOffset.toNat < 2 ^ 64
    · rw [if_pos hcut]
      refine iff_of_false (fun h => by cases h.pinned) ?_
      rw [hat]
      omega
    · rw [if_neg hcut]
      refine iff_of_true ⟨rfl, rfl, rfl, rfl⟩ (.inr ?_)
      rw [hat]
      omega

theorem start_ne_of_overflow {m : ModuleRecord} {address : UInt64}
    (h : ¬ translation m address < 2 ^ 64) : m.start ≠ address := by
  have hlt := m.fileOffset.toNat_lt
  rintro rfl
  unfold translation at h
  omega

/-- An address that survives the replacements of an active module is translated as before exactly
if the module gave it a file address or no replacement ends there. -/
theorem split_translation_iff {σ : Type} (write : Op → σ → Except Stop Unit × σ) (writer : σ)
    (calls : List TableCall) (m : ModuleRecord) (pid : Pid) (address : UInt64)
    (replacements : List ModuleRecord) (updates : List ModuleUpdate) (s' : Recorder σ)
    (hactive : (performAll write calls ⟨.default, writer⟩).2.table.active.lookup m.id = some m)
    (howner : m.owner = .process pid) (haround : Around m address)
    (hrun : applyAll write replacements (performAll write calls ⟨.default, writer⟩).2 =
      (.ok updates, s')) (hsurvives : Survives pid address replacements updates) :
    ∃ before after,
      (resolveFrame pid.get address .user (performAll write calls ⟨.default, writer⟩).2).1 =
        .ok before ∧
      before = frameFor (some (ModuleIndexEntry.of m)) address .user ∧
      (resolveFrame pid.get address .user s').1 = .ok after ∧
      (SameTranslation after before ↔ translation m address < 2 ^ 64 ∨
        ∀ replacement ∈ replacements, ¬ EndsAt pid address replacement) := by
  obtain ⟨⟨log, hs⟩, -⟩ := performAll_recorded (recorded_default writer) calls
  rw [List.nil_append] at hs
  have hremains : Remains (activeOf log) pid address m m :=
    ⟨((hs.table.byId _ m).mp hactive).1, howner, haround, Part.refl m⟩
  obtain ⟨ops, part, hs', hremains', hiff⟩ := remains_of_applyAll hs hrun hsurvives hremains
  obtain ⟨_, hbefore, -⟩ := resolveFrame_ok hs pid.get address .user
  obtain ⟨_, hafter, -⟩ := resolveFrame_ok hs' pid.get address .user
  unfold frameIn at hbefore hafter
  rw [newestAround_of_remains hs.table.apart hremains] at hbefore
  rw [newestAround_of_remains hs'.table.apart hremains'] at hafter
  refine ⟨_, _, congrArg Prod.fst hbefore, rfl, congrArg Prod.fst hafter, ?_⟩
  rw [Option.map_some, Option.map_some,
    sameTranslation_iff hremains'.isPart hremains'.around]
  by_cases hfits : translation m address < 2 ^ 64
  · exact iff_of_true (.inl hfits) (.inl hfits)
  · rw [Ne, hiff, or_iff_right hfits, or_iff_right hfits, or_iff_right (start_ne_of_overflow hfits)]
    exact ⟨fun hnone replacement hmem hends => hnone ⟨replacement, hmem, hends⟩,
      fun hnone ⟨replacement, hmem, hends⟩ => hnone replacement hmem hends⟩

/-- A mapping of the last byte of the largest file and what lies behind it. -/
def highModule : ModuleRecord :=
  { mappedModule with stop := 12288, fileOffset := 18446744073709551615 }

def lowReplacement : ModuleRecord := { mappedModule with inode := 4 }

def highTable : Recorder (List Op) := (performAll keepCalls [.applyModule highModule]
  ⟨.default, []⟩).2

theorem split_translation_iff_inside : ∃ before after,
    (resolveFrame 1 9000 .user highTable).1 = .ok before ∧
    before = frameFor (some (ModuleIndexEntry.of highModule)) 9000 .user ∧
    (resolveFrame 1 9000 .user (applyAll keepCalls [lowReplacement] highTable).2).1 = .ok after ∧
    (SameTranslation after before ↔ translation highModule 9000 < 2 ^ 64 ∨
      ∀ replacement ∈ [lowReplacement], ¬ EndsAt ⟨1, by decide⟩ 9000 replacement) :=
  split_translation_iff keepCalls [] [.applyModule highModule] highModule ⟨1, by decide⟩ 9000
    [lowReplacement] _ _ (by rfl) rfl (by decide) rfl
    (.cons (fun _ _ => by decide) .nil)

/-- The first address behind the replacement had no file address and has one now. -/
theorem split_gives_file_address :
    highTable.table.active.lookup 0 = some highModule ∧ Around highModule 8192 ∧
      (resolveFrame 1 8192 .user highTable).1 = .ok ⟨none, 8192, 8192, .user⟩ ∧
      ∃ updates s', applyAll keepCalls [lowReplacement] highTable = (.ok updates, s') ∧
        Survives ⟨1, by decide⟩ 8192 [lowReplacement] updates ∧
        (resolveFrame 1 8192 .user s').1 =
          .ok ⟨some 1, 18446744073709551615, 8192, .user⟩ := by
  refine ⟨by rfl, by decide, by rfl, _, _, rfl, .cons (fun _ _ => by decide) .nil, by rfl⟩

end StackPulse.ModuleTranslation
