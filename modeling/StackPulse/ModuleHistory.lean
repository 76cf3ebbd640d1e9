import StackPulse.ModuleTranslation

/-!
The module table as a map from addresses to mappings. The history of a process lists
the mappings that were applied to it or taken over from its parent since it last lost
its modules, the latest first. The table gives an address to a module exactly if some
mapping of the history covers it, and the module then stands for the latest one.
-/
namespace StackPulse.ModuleHistory

open Model Modules ModuleSearch ModuleRepresentation ModuleParts ModuleApplication ModuleInheritance
  ModuleRuns ModuleTranslation

variable {updates : List ModuleUpdate}

/-- The mappings of each process, the latest first. -/
abbrev History := Int32 → List ModuleRecord

/-- What a call that does not fail adds to the histories. -/
def TableCall.extend (h : History) : TableCall → History
  | .applyModule module =>
      match module.pid with
      | some pid => Function.update h pid.get (module :: h pid.get)
      | none => h
  | .cloneProcessModules parentProcessId childProcessId =>
      match Pid.new childProcessId with
      | some pid => Function.update h childProcessId
          ((h parentProcessId).map (inherited pid) ++ h childProcessId)
      | none => h
  | .deactivateProcessModules processId => Function.update h processId []
  | .recordPinnedModule _ | .resolveFrame _ _ _ | .coversUserPc _ _ => h

def historyOf (calls : List TableCall) : History := calls.foldl TableCall.extend fun _ => []

/-- The latest mapping around an address. -/
def latest (mappings : List ModuleRecord) (address : UInt64) : Option ModuleRecord :=
  mappings.find? fun m => decide (Around m address)

/-- The addresses of the mapping have file addresses. -/
def FitsFile (m : ModuleRecord) : Prop :=
  m.fileOffset.toNat + (m.stop.toNat - m.start.toNat) < 2 ^ 64

instance (m : ModuleRecord) : Decidable (FitsFile m) := by
  unfold FitsFile
  infer_instance

/-- The module stands for a part of the mapping: it has the same file, and it translates addresses
as the mapping does. -/
structure Carries (m part : ModuleRecord) : Prop where
  start_le : m.start.toNat ≤ part.start.toNat
  stop_le : part.stop.toNat ≤ m.stop.toNat
  fileOffset : part.fileOffset.toNat =
    m.fileOffset.toNat + (part.start.toNat - m.start.toNat)
  inode : part.inode = m.inode
  deviceMajor : part.deviceMajor = m.deviceMajor
  deviceMinor : part.deviceMinor = m.deviceMinor
  path : part.path.components = m.path.components

theorem Carries.trans {m part piece : ModuleRecord} (h : Carries m part)
    (h' : Carries part piece) : Carries m piece := by
  have hstart := h.start_le
  have hstart' := h'.start_le
  have hoffset := h.fileOffset
  have hoffset' := h'.fileOffset
  exact ⟨hstart.trans hstart', h'.stop_le.trans h.stop_le, by omega, h'.inode.trans h.inode,
    h'.deviceMajor.trans h.deviceMajor, h'.deviceMinor.trans h.deviceMinor,
    h'.path.trans h.path⟩

/-- The offset of a part of a mapping that fits its file is not cut off. -/
theorem Carries.part {m part piece : ModuleRecord} (h : Carries m part) (hfits : FitsFile m)
    (hpiece : Part part piece) {address : UInt64} (haround : Around piece address) :
    Carries m piece := by
  have hstart := h.start_le
  have hstop := h.stop_le
  have hoffset := h.fileOffset
  have hstart' := hpiece.start_le
  have hstop' := hpiece.stop_le
  have hoffset' := hpiece.fileOffset
  obtain ⟨hle, hlt⟩ := haround
  unfold FitsFile at hfits
  exact ⟨hstart.trans hstart', hstop'.trans hstop, by omega, hpiece.inode.trans h.inode,
    hpiece.deviceMajor.trans h.deviceMajor, hpiece.deviceMinor.trans h.deviceMinor,
    (congrArg _ hpiece.path).trans h.path⟩

theorem carries_of_compatible {m known : ModuleRecord} (h : Compatible m known) :
    Carries m known := by
  obtain ⟨-, hstart, hstop, hoffset, hinode, hmajor, hminor, hpath⟩ := sameMapping_iff.mp h.same
  refine ⟨?_, ?_, ?_, hinode, hmajor, hminor, hpath⟩
  · rw [hstart]
  · rw [hstop]
  · rw [hstart, hoffset]
    omega

theorem carries_withId (m : ModuleRecord) (id : UInt32) : Carries m { m with id := id } :=
  ⟨le_rfl, le_rfl, by simp, rfl, rfl, rfl, rfl⟩

/-- What the table has around an address of a process, given its latest mapping there. -/
def MirrorsAt (active : List ModuleRecord) (pid : Pid) (address : UInt64) :
    Option ModuleRecord → Prop
  | none => ∀ m ∈ active, m.owner = .process pid → ¬ Around m address
  | some mapping => ∃ part ∈ active, part.owner = .process pid ∧ Around part address ∧
      Carries mapping part

section

variable {active active' : List ModuleRecord} {pid : Pid} {address : UInt64} {m : ModuleRecord}
  {u : ModuleUpdate}

/-- Around an address outside of the mapping there is nothing new. -/
theorem around_of_applied (happlied : Applied active m u active')
    (hout : ¬ (m.owner = .process pid ∧ Around m address)) {m' : ModuleRecord}
    (hm' : m' ∈ active') (howner : m'.owner = .process pid) (haround : Around m' address) :
    ∃ old ∈ active, old.owner = .process pid ∧ Around old address := by
  cases happlied with
  | empty => exact ⟨m', hm', howner, haround⟩
  | known => exact ⟨m', hm', howner, haround⟩
  | entered retired activations rest id hnew hunknown hrest =>
    rcases List.mem_append.mp hm' with hm' | hm'
    · rcases hrest with ⟨-, -, -, rfl⟩ | ⟨⟨pid', howner'⟩, hreplaced⟩
      · exact ⟨m', hm', howner, haround⟩
      rw [hreplaced.active] at hm'
      rcases List.mem_append.mp hm' with hm' | hm'
      · exact ⟨m', (List.mem_filter.mp hm').1, howner, haround⟩
      · obtain ⟨activation, hactivation, rfl⟩ := List.mem_map.mp hm'
        obtain ⟨part, hpart, -, hmodule⟩ := exists_of_forall₂_right hreplaced.entered hactivation
        obtain ⟨source, hsource, -, -, hleaves⟩ := source_of_part howner' hreplaced.met hpart
        rw [hmodule] at howner haround
        refine ⟨source, ((hreplaced.met source).mp hsource).1,
          hleaves.isPart.owner.symm.trans howner, ?_, ?_⟩
        · exact hleaves.isPart.start_le.trans haround.1
        · exact haround.2.trans_le hleaves.isPart.stop_le
    · rw [List.mem_singleton.mp hm'] at howner haround
      exact absurd ⟨howner, haround⟩ hout

theorem MirrorsAt.applied {mapping : Option ModuleRecord}
    (h : MirrorsAt active pid address mapping) (hfits : ∀ m' ∈ mapping, FitsFile m')
    (happlied : Applied active m u active') :
    MirrorsAt active' pid address
      (if m.owner = .process pid ∧ Around m address then some m else mapping) := by
  by_cases hin : m.owner = .process pid ∧ Around m address
  · rw [if_pos hin]
    obtain ⟨howner, haround⟩ := hin
    cases happlied with
    | empty hle => exact absurd (haround.1.trans_lt haround.2) (Nat.not_lt.mpr hle)
    | known known hnew hknown hcompatible =>
      obtain ⟨howner', hstart, hstop, -⟩ := sameMapping_iff.mp hcompatible.same
      refine ⟨known, hknown, howner'.trans howner, ?_, carries_of_compatible hcompatible⟩
      unfold Around
      rw [hstart, hstop]
      exact haround
    | entered retired activations rest id hnew hunknown hrest =>
      exact ⟨_, List.mem_append_right _ (List.mem_singleton_self _), howner, haround,
        carries_withId m id⟩
  · rw [if_neg hin]
    rcases mapping with _ | mapping
    · intro m' hm' howner haround
      obtain ⟨old, hold, howner', haround'⟩ := around_of_applied happlied hin hm' howner haround
      exact h old hold howner' haround'
    · obtain ⟨part, hpart, howner, haround, hcarries⟩ := h
      have hremains : Remains active pid address part part :=
        ⟨hpart, howner, haround, Part.refl part⟩
      obtain ⟨part', hremains', -⟩ := remains_of_applied hremains happlied
        fun _ howner' haround' => hin ⟨howner', haround'⟩
      exact ⟨part', hremains'.active, hremains'.owner, hremains'.around,
        hcarries.part (hfits mapping rfl) hremains'.isPart hremains'.around⟩

theorem FitsFile.part {part : ModuleRecord} (h : FitsFile m) (hpart : Part m part)
    (hnonempty : part.start.toNat < part.stop.toNat) : FitsFile part := by
  have hstart := hpart.start_le
  have hstop := hpart.stop_le
  have hoffset := hpart.fileOffset
  unfold FitsFile at h ⊢
  omega

/-- All modules of processes fit their files. -/
def AllFit (active : List ModuleRecord) : Prop :=
  ∀ m ∈ active, ∀ pid, m.owner = .process pid → FitsFile m

theorem AllFit.applied (h : AllFit active) (hm : ∀ pid, m.owner = .process pid → FitsFile m)
    (happlied : Applied active m u active') : AllFit active' := by
  cases happlied with
  | empty => exact h
  | known => exact h
  | entered retired activations rest id hnew hunknown hrest =>
    refine List.forall_mem_append.mpr ⟨?_, List.forall_mem_singleton.mpr hm⟩
    rcases hrest with ⟨-, -, -, rfl⟩ | ⟨⟨pid', howner'⟩, hreplaced⟩
    · exact h
    rw [hreplaced.active]
    refine List.forall_mem_append.mpr ⟨fun m' hm' => h m' (List.mem_filter.mp hm').1, ?_⟩
    intro m' hm' pid howner
    obtain ⟨activation, hactivation, rfl⟩ := List.mem_map.mp hm'
    obtain ⟨part, hpart, -, hmodule⟩ := exists_of_forall₂_right hreplaced.entered hactivation
    obtain ⟨source, hsource, hsourceOwner, -, hleaves⟩ := source_of_part howner' hreplaced.met hpart
    rw [hmodule]
    exact (h source ((hreplaced.met source).mp hsource).1 _ hsourceOwner).part
      (hleaves.isPart.withId _) hleaves.nonempty

end

/-- Mappings that are applied one after another: the last one around the address counts. -/
theorem MirrorsAt.appliedAll {active active' mappings : List ModuleRecord} {pid : Pid}
    {address : UInt64} {mapping : Option ModuleRecord} (h : MirrorsAt active pid address mapping)
    (hfits : ∀ m' ∈ mapping, FitsFile m') (hmappings : ∀ m ∈ mappings, FitsFile m)
    (happlied : AppliedAll active mappings updates active') :
    MirrorsAt active' pid address ((mappings.reverse.find? fun m =>
      decide (m.owner = .process pid ∧ Around m address)).or mapping) := by
  induction happlied generalizing mapping with
  | nil active => exact h
  | cons hfirst hrest ih =>
    rename_i m _ _ _
    have hstep := h.applied hfits hfirst
    have hfits' : ∀ m' ∈ (if m.owner = .process pid ∧ Around m address then some m else mapping),
        FitsFile m' := by
      split
      · rintro m' ⟨⟩
        exact hmappings m (.head _)
      · exact hfits
    have hnext := ih hstep hfits' fun m' hm' => hmappings m' (.tail _ hm')
    rw [List.reverse_cons, List.find?_append, Option.or_assoc]
    have hlast :
        ([m].find? fun m => decide (m.owner = .process pid ∧ Around m address)).or mapping =
        if m.owner = .process pid ∧ Around m address then some m else mapping := by
      by_cases hin : m.owner = .process pid ∧ Around m address
      · simp [hin]
      · rw [if_neg hin, List.find?_singleton, if_neg (by simpa using hin), Option.none_or]
    rw [hlast]
    exact hnext

theorem allFit_appliedAll {active active' mappings : List ModuleRecord} (h : AllFit active)
    (hmappings : ∀ m ∈ mappings, FitsFile m)
    (happlied : AppliedAll active mappings updates active') : AllFit active' := by
  induction happlied with
  | nil active => exact h
  | cons hfirst hrest ih =>
    exact ih (h.applied (fun _ _ => hmappings _ (.head _)) hfirst)
      fun m hm => hmappings m (.tail _ hm)

/-- The table mirrors the histories. -/
structure Mirrors (active : List ModuleRecord) (h : History) : Prop where
  mirrorsAt : ∀ pid address, MirrorsAt active pid address (latest (h pid.get) address)
  invalid : ∀ processId, Pid.new processId = none → h processId = []
  fits : ∀ processId, ∀ m ∈ h processId, FitsFile m
  allFit : AllFit active

theorem mirrors_nil : Mirrors [] fun _ => [] where
  mirrorsAt := fun _ _ _ hm => by cases hm
  invalid := fun _ _ => rfl
  fits := fun _ _ hm => by cases hm
  allFit := fun _ hm => by cases hm

section

variable {active active' sources : List ModuleRecord} {h : History}

theorem Mirrors.fits_latest (hmirrors : Mirrors active h) (processId : Int32) (address : UInt64) :
    ∀ m ∈ latest (h processId) address, FitsFile m := fun m hm =>
  hmirrors.fits processId m (List.mem_of_find?_eq_some hm)

theorem latest_cons (m : ModuleRecord) (mappings : List ModuleRecord) (address : UInt64) :
    latest (m :: mappings) address =
      if Around m address then some m else latest mappings address := by
  unfold latest
  rw [List.find?_cons]
  by_cases hin : Around m address <;> simp [hin]

theorem Mirrors.applyModule {m : ModuleRecord} {u : ModuleUpdate} (hmirrors : Mirrors active h)
    (hm : ∀ pid, m.owner = .process pid → FitsFile m) (happlied : Applied active m u active') :
    Mirrors active' (TableCall.extend h (.applyModule m)) := by
  rcases hpid : m.pid with _ | pid
  · have howner := owner_of_pid_none hpid
    have hsame : TableCall.extend h (.applyModule m) = h := by
      rw [TableCall.extend, hpid]
    rw [hsame]
    refine ⟨fun pid address => ?_, hmirrors.invalid, hmirrors.fits,
      hmirrors.allFit.applied hm happlied⟩
    have hstep := (hmirrors.mirrorsAt pid address).applied
      (hmirrors.fits_latest pid.get address) happlied
    rwa [if_neg (by rw [howner]; simp)] at hstep
  · have howner := owner_of_pid_some hpid
    have hsame : TableCall.extend h (.applyModule m) =
        Function.update h pid.get (m :: h pid.get) := by
      rw [TableCall.extend, hpid]
    rw [hsame]
    refine ⟨fun pid' address => ?_, fun p hp => ?_, fun p => ?_,
      hmirrors.allFit.applied hm happlied⟩
    · have hstep := (hmirrors.mirrorsAt pid' address).applied
        (hmirrors.fits_latest pid'.get address) happlied
      by_cases hpid' : pid' = pid
      · subst hpid'
        rw [Function.update_self, latest_cons]
        simpa only [howner, true_and] using hstep
      · have hne : m.owner ≠ .process pid' := by
          rw [howner]
          exact fun hsame => hpid' (ModuleOwner.process.inj hsame).symm
        rw [Function.update_of_ne fun hget => hpid' (Pid.get_inj hget)]
        rwa [if_neg fun hin => hne hin.1] at hstep
    · rw [Function.update_of_ne (by rintro rfl; rw [Pid.new_get] at hp; cases hp)]
      exact hmirrors.invalid p hp
    · by_cases hp : p = pid.get
      · subst hp
        rw [Function.update_self]
        exact List.forall_mem_cons.mpr ⟨hm pid howner, hmirrors.fits _⟩
      · rw [Function.update_of_ne hp]
        exact hmirrors.fits p

theorem Mirrors.deactivate (hmirrors : Mirrors active h) (processId : Int32) :
    Mirrors (active.filter fun m => ¬ Owned processId m)
      (TableCall.extend h (.deactivateProcessModules processId)) := by
  show Mirrors _ (Function.update h processId [])
  refine ⟨fun pid address => ?_, fun p hp => ?_, fun p => ?_,
    fun m hm => hmirrors.allFit m (List.mem_filter.mp hm).1⟩
  · by_cases hpid : pid.get = processId
    · subst hpid
      rw [Function.update_self]
      intro m hm howner
      exact absurd (owned_process.mpr howner) (of_decide_eq_true (List.mem_filter.mp hm).2)
    · rw [Function.update_of_ne hpid]
      have hat := hmirrors.mirrorsAt pid address
      have hkept : ∀ m ∈ active, m.owner = .process pid →
          m ∈ active.filter fun m => ¬ Owned processId m := by
        intro m hm howner
        refine List.mem_filter.mpr ⟨hm, decide_eq_true fun howned => hpid ?_⟩
        exact Option.some.inj ((owned_process.mpr howner).symm.trans howned)
      rcases hlatest : latest (h pid.get) address with _ | mapping <;> rw [hlatest] at hat
      · exact fun m hm => hat m (List.mem_filter.mp hm).1
      · obtain ⟨part, hpart, howner, hrest⟩ := hat
        exact ⟨part, hkept part hpart howner, howner, hrest⟩
  · by_cases hsame : p = processId
    · subst hsame
      exact Function.update_self _ _ _
    · rw [Function.update_of_ne hsame]
      exact hmirrors.invalid p hp
  · by_cases hsame : p = processId
    · subst hsame
      rw [Function.update_self]
      exact fun m hm => by cases hm
    · rw [Function.update_of_ne hsame]
      exact hmirrors.fits p

theorem carries_inherited {m part : ModuleRecord} (h : Carries m part) (childPid : Pid) :
    Carries (inherited childPid m) (inherited childPid part) :=
  ⟨h.start_le, h.stop_le, h.fileOffset, h.inode, h.deviceMajor, h.deviceMinor, h.path⟩

theorem latest_inherited (childPid : Pid) (mappings more : List ModuleRecord) (address : UInt64) :
    latest (mappings.map (inherited childPid) ++ more) address =
      ((latest mappings address).map (inherited childPid)).or (latest more address) := by
  unfold latest
  rw [List.find?_append, List.find?_map]
  rfl

/-- The only module of the parent around an address is the last one that the child applies. -/
theorem find?_inherited {childPid : Pid} {address : UInt64}
    (hordered : sources.Pairwise fun m m' => m.stop.toNat ≤ m'.start.toNat) {part : ModuleRecord}
    (hpart : part ∈ sources) (haround : Around part address) :
    (sources.map (inherited childPid)).reverse.find? (fun m =>
      decide (m.owner = .process childPid ∧ Around m address)) =
        some (inherited childPid part) := by
  rcases hfind : (sources.map (inherited childPid)).reverse.find? fun m =>
    decide (m.owner = .process childPid ∧ Around m address) with _ | found
  · have hnot := List.find?_eq_none.mp hfind (inherited childPid part)
      (List.mem_reverse.mpr (List.mem_map_of_mem hpart))
    have hin : (inherited childPid part).owner = .process childPid ∧
        Around (inherited childPid part) address := ⟨rfl, haround⟩
    exact absurd (decide_eq_true hin) hnot
  · have hdecide := List.find?_some hfind
    obtain ⟨-, hfound⟩ := of_decide_eq_true hdecide
    obtain ⟨m, hm, rfl⟩ := List.mem_map.mp (List.mem_reverse.mp (List.mem_of_find?_eq_some hfind))
    have hmAround : Around m address := hfound
    have hsame : m = part := by
      by_contra hne
      have : Std.Symm Apart := ⟨fun _ _ => Apart.symm⟩
      have hapart : sources.Pairwise Apart := hordered.imp fun hle => .inl hle
      have hrange := hapart.forall hm hpart hne
      obtain ⟨hstart, hstop⟩ := haround
      obtain ⟨hstart', hstop'⟩ := hmAround
      unfold Apart at hrange
      omega
    rw [hsame] at hfind
    exact hfind

theorem find?_inherited_none {childPid pid : Pid} {address : UInt64}
    (h : ∀ m ∈ sources, pid = childPid → ¬ Around m address) :
    (sources.map (inherited childPid)).reverse.find? (fun m =>
      decide (m.owner = .process pid ∧ Around m address)) = none := by
  apply List.find?_eq_none.mpr
  intro m hm hdecide
  obtain ⟨source, hsource, rfl⟩ := List.mem_map.mp (List.mem_reverse.mp hm)
  obtain ⟨howner, haround⟩ := of_decide_eq_true hdecide
  exact h source hsource (ModuleOwner.process.inj howner).symm haround

theorem Mirrors.clone {parentProcessId : Int32} {childPid : Pid} {cloned : ClonedProcessModules}
    (hmirrors : Mirrors active h)
    (hcloned : Cloned active parentProcessId childPid cloned active' sources updates) :
    Mirrors active' (TableCall.extend h (.cloneProcessModules parentProcessId childPid.get)) := by
  have hsame : TableCall.extend h (.cloneProcessModules parentProcessId childPid.get) =
      Function.update h childPid.get
        ((h parentProcessId).map (inherited childPid) ++ h childPid.get) := by
    rw [TableCall.extend, Pid.new_get]
  have hsources : ∀ m ∈ sources.map (inherited childPid), FitsFile m := by
    intro m hm
    obtain ⟨source, hsource, rfl⟩ := List.mem_map.mp hm
    obtain ⟨hactive, howned⟩ := (hcloned.mem source).mp hsource
    obtain ⟨pid, hpid, -⟩ := Option.map_eq_some_iff.mp howned
    exact hmirrors.allFit source hactive pid (owner_of_pid_some hpid)
  rw [hsame]
  refine ⟨fun pid address => ?_, fun p hp => ?_, fun p => ?_,
    allFit_appliedAll hmirrors.allFit hsources hcloned.applied⟩
  · have hat := (hmirrors.mirrorsAt pid address).appliedAll
      (hmirrors.fits_latest pid.get address) hsources hcloned.applied
    by_cases hpid : pid = childPid
    · subst hpid
      rw [Function.update_self, latest_inherited]
      rcases hparent : latest (h parentProcessId) address with _ | mapping
      · have hnone : ∀ m ∈ sources, pid = pid → ¬ Around m address := by
          intro m hm _
          obtain ⟨hactive, howned⟩ := (hcloned.mem m).mp hm
          obtain ⟨parentPid, hparentPid, rfl⟩ := Option.map_eq_some_iff.mp howned
          have hparentAt := hmirrors.mirrorsAt parentPid address
          rw [hparent] at hparentAt
          exact hparentAt m hactive (owner_of_pid_some hparentPid)
        rwa [find?_inherited_none hnone] at hat
      · obtain ⟨parentPid, rfl⟩ : ∃ parentPid : Pid, parentPid.get = parentProcessId := by
          rcases hpid : Pid.new parentProcessId with _ | parentPid
          · rw [hmirrors.invalid parentProcessId hpid] at hparent
            cases hparent
          · exact ⟨parentPid, Pid.new_eq_some.mp hpid⟩
        have hparentAt := hmirrors.mirrorsAt parentPid address
        rw [hparent] at hparentAt
        obtain ⟨part, hpart, howner, haround, hcarries⟩ := hparentAt
        have hsource := (hcloned.mem part).mpr ⟨hpart, owned_process.mpr howner⟩
        rw [find?_inherited hcloned.ordered hsource haround] at hat
        obtain ⟨part', hpart', howner', haround', hcarries'⟩ := hat
        exact ⟨part', hpart', howner', haround', (carries_inherited hcarries pid).trans hcarries'⟩
    · rw [Function.update_of_ne fun hget => hpid (Pid.get_inj hget)]
      rwa [find?_inherited_none fun _ _ hsame => absurd hsame hpid, Option.none_or] at hat
  · rw [Function.update_of_ne (by rintro rfl; rw [Pid.new_get] at hp; cases hp)]
    exact hmirrors.invalid p hp
  · by_cases hp : p = childPid.get
    · subst hp
      rw [Function.update_self]
      refine List.forall_mem_append.mpr ⟨fun m hm => ?_, hmirrors.fits _⟩
      obtain ⟨source, hsource, rfl⟩ := List.mem_map.mp hm
      exact hmirrors.fits parentProcessId source hsource
    · rw [Function.update_of_ne hp]
      exact hmirrors.fits p

end

end StackPulse.ModuleHistory
