import StackPulse.ModuleChanges

/-!
Applying a mapping. A mapping that the table already has changes nothing. Any other
mapping of a process retires the active modules that it overlaps, enters what is left
of them and is entered behind them; a mapping of the kernel is only entered.
-/
namespace StackPulse.ModuleApplication

open Model Sessions Modules ModuleRepresentation ModuleParts ModuleChanges

variable {m known : ModuleRecord}

/-- The known module already is the mapping; a mapping need not know the generation of its
inode. -/
structure Compatible (m known : ModuleRecord) : Prop where
  same : sameMappingExceptInodeGeneration known m = true
  generation : known.inodeGeneration = m.inodeGeneration ∨
    m.inodeGeneration = 0 ∧ known.inodeGeneration ≠ 0

theorem sameMapping_iff : sameMappingExceptInodeGeneration known m = true ↔
      known.owner = m.owner ∧ known.start = m.start ∧ known.stop = m.stop ∧
        known.fileOffset = m.fileOffset ∧ known.inode = m.inode ∧
        known.deviceMajor = m.deviceMajor ∧ known.deviceMinor = m.deviceMinor ∧
        known.path.components = m.path.components := by
  unfold sameMappingExceptInodeGeneration
  simp only [Bool.and_eq_true, decide_eq_true_eq, and_assoc]

theorem identityOf_eq_iff : identityOf known = identityOf m ↔
    sameMappingExceptInodeGeneration known m = true ∧
      known.inodeGeneration = m.inodeGeneration := by
  rw [sameMapping_iff]
  unfold identityOf
  simp only [ModuleIdentity.mk.injEq]
  tauto

theorem isCompatible_iff : ModuleTable.isCompatible m known = true ↔
    known.inodeGeneration ≠ 0 ∧ sameMappingExceptInodeGeneration known m = true := by
  unfold ModuleTable.isCompatible
  rw [Bool.and_eq_true, decide_eq_true_eq]

section

variable {table : ModuleTable} {active : List ModuleRecord}

theorem findActive_ok (h : Lists table active) (p : ModuleRecord → Bool)
    {modules : List ModuleRecord} (hmodules : ∀ m ∈ modules, m ∈ active) :
    table.findActive p (modules.map (·.id)) = .ok ((modules.find? p).map (·.id)) := by
  induction modules with
  | nil => rfl
  | cons m modules ih =>
    rw [List.map_cons, ModuleTable.findActive, h.activeModule_ok (hmodules m (.head _)),
      List.find?_cons, ih fun m' hm' => hmodules m' (List.mem_cons_of_mem m hm')]
    show (if p m then pure (some m.id) else Except.ok _) = _
    cases p m <;> rfl

/-- What the search for a known mapping returns. -/
def Found (active : List ModuleRecord) (m : ModuleRecord) : Option UInt32 → Prop
  | some id => ∃ known ∈ active, known.id = id ∧ Compatible m known
  | none => ∀ known ∈ active, ¬ Compatible m known

theorem findCompatible_user (h : Represents table active) {pid : Pid}
    (hpid : m.pid = some pid) :
    ∃ found, table.findActive (ModuleTable.isCompatible m)
        (((table.startKeys pid.get).filter fun key => key.start = m.start).map (·.id)) =
          .ok (found.map (·.id)) ∧
      (∀ known, found = some known →
        known ∈ active ∧ ModuleTable.isCompatible m known = true) ∧
      (found = none → ∀ known ∈ active, ¬ ModuleTable.isCompatible m known = true) := by
  obtain ⟨modules, hkeys, -, hmodules⟩ := exists_ordered h pid.get
  have hactive : ∀ m' ∈ modules.filter (fun m' => m'.start = m.start), m' ∈ active := fun m' hm' =>
    ((hmodules m').mp (List.mem_filter.mp hm').1).1
  refine ⟨(modules.filter fun m' => m'.start = m.start).find? (ModuleTable.isCompatible m),
    ?_, ?_, ?_⟩
  · rw [hkeys, List.filter_map, List.map_map]
    exact findActive_ok h.toLists _ hactive
  · intro known hknown
    have hcompatible := List.find?_some hknown
    exact ⟨hactive known (List.mem_of_find?_eq_some hknown), hcompatible⟩
  · intro hnone known hknown hcompatible
    obtain ⟨howner, hstart, -⟩ := sameMapping_iff.mp (isCompatible_iff.mp hcompatible).2
    have howned : Owned pid.get known := by
      unfold Owned
      have hsamePid : known.pid = m.pid := congrArg ModuleOwner.pid howner
      rw [hsamePid, hpid]
      rfl
    exact List.find?_eq_none.mp hnone known (List.mem_filter.mpr
      ⟨(hmodules known).mpr ⟨hknown, howned⟩, decide_eq_true hstart⟩) hcompatible

theorem findCompatible_kernel (h : Lists table active) (m : ModuleRecord) :
    ∃ found : Option ModuleRecord,
      ((table.active.entries.filter fun e => ModuleTable.isCompatible m e.2).map (·.1)).min? =
        found.map (·.id) ∧
      (∀ known, found = some known →
        known ∈ active ∧ ModuleTable.isCompatible m known = true) ∧
      (found = none → ∀ known ∈ active, ¬ ModuleTable.isCompatible m known = true) := by
  rcases hmin : ((table.active.entries.filter fun e => ModuleTable.isCompatible m e.2).map
    (·.1)).min? with _ | id
  · refine ⟨none, hmin, fun _ hsome => (Option.some_ne_none _ hsome.symm).elim,
      fun _ known hknown hcompatible => ?_⟩
    have hempty := List.map_eq_nil_iff.mp (List.min?_eq_none_iff.mp hmin)
    exact List.filter_eq_nil_iff.mp hempty ⟨known.id, known⟩
      (AList.mem_lookup_iff.mp ((h.byId _ _).mpr ⟨hknown, rfl⟩)) hcompatible
  · obtain ⟨⟨_, known⟩, hentry, rfl⟩ := List.mem_map.mp (List.min?_mem hmin)
    obtain ⟨hentry, hcompatible⟩ := List.mem_filter.mp hentry
    obtain ⟨hknown, hid⟩ := (h.byId _ _).mp (AList.mem_lookup_iff.mpr hentry)
    refine ⟨some known, hmin.trans (congrArg some hid.symm), ?_, fun hnone => by cases hnone⟩
    intro known' hsame
    cases hsame
    exact ⟨hknown, hcompatible⟩

theorem findCompatibleActive_ok (h : Represents table active) (m : ModuleRecord) :
    ∃ found, table.findCompatibleActive m = .ok found ∧ Found active m found := by
  unfold ModuleTable.findCompatibleActive
  rcases hkey : table.activeByKey.lookup (identityOf m) with _ | id
  · have hother : ∀ known ∈ active, identityOf known ≠ identityOf m := by
      intro known hknown hsame
      rw [(h.byKey _ known.id).mpr ⟨known, hknown, hsame, rfl⟩] at hkey
      cases hkey
    simp only
    by_cases hgeneration : m.inodeGeneration ≠ 0
    · rw [if_pos hgeneration]
      refine ⟨none, rfl, fun known hknown hcompatible => ?_⟩
      rcases hcompatible.generation with hsame | ⟨hzero, -⟩
      · exact hother known hknown (identityOf_eq_iff.mpr ⟨hcompatible.same, hsame⟩)
      · exact hgeneration hzero
    rw [if_neg hgeneration]
    have hzero : m.inodeGeneration = 0 := not_not.mp hgeneration
    have hsearch : ∀ found : Option ModuleRecord,
        (∀ known, found = some known →
          known ∈ active ∧ ModuleTable.isCompatible m known = true) →
        (found = none → ∀ known ∈ active, ¬ ModuleTable.isCompatible m known = true) →
        Found active m (found.map (·.id)) := by
      intro found hsome hnone
      rcases found with _ | known
      · intro known hknown hcompatible
        rcases hcompatible.generation with hsame | ⟨-, hne⟩
        · exact hother known hknown (identityOf_eq_iff.mpr ⟨hcompatible.same, hsame⟩)
        · exact hnone rfl known hknown (isCompatible_iff.mpr ⟨hne, hcompatible.same⟩)
      · obtain ⟨hknown, hcompatible⟩ := hsome known rfl
        obtain ⟨hne, hsame⟩ := isCompatible_iff.mp hcompatible
        exact ⟨known, hknown, rfl, hsame, .inr ⟨hzero, hne⟩⟩
    rcases hpid : m.pid with _ | pid
    · obtain ⟨found, hfound, hsome, hnone⟩ := findCompatible_kernel h.toLists m
      exact ⟨_, congrArg Except.ok hfound, hsearch found hsome hnone⟩
    · obtain ⟨found, hfound, hsome, hnone⟩ := findCompatible_user h hpid
      exact ⟨_, hfound, hsearch found hsome hnone⟩
  · obtain ⟨known, hknown, hsame, hid⟩ := (h.byKey _ id).mp hkey
    obtain ⟨hsame, hgeneration⟩ := identityOf_eq_iff.mp hsame
    exact ⟨some id, rfl, known, hknown, hid, hsame, .inl hgeneration⟩

end

/-- A mapping replaces parts of the module. -/
def Meets (m m' : ModuleRecord) : Prop := m'.owner = m.owner ∧ moduleRangesOverlap m' m = true

instance (m m' : ModuleRecord) : Decidable (Meets m m') := by
  unfold Meets
  infer_instance

/-- The parts that a mapping leaves of some modules, each with its source. -/
def partsAround (m : ModuleRecord) (modules : List ModuleRecord) : List (UInt32 × ModuleRecord) :=
  modules.flatMap fun m' => (splitModuleAround m' m).map fun part => (m'.id, part)

theorem exists_of_forall₂_right {α β : Type} {R : α → β → Prop} {l : List α} {l' : List β}
    (h : List.Forall₂ R l l') {b : β} (hb : b ∈ l') : ∃ a ∈ l, R a b := by
  induction h with
  | nil => cases hb
  | cons hfirst _ ih =>
    rcases List.mem_cons.mp hb with rfl | hb
    · exact ⟨_, .head _, hfirst⟩
    · obtain ⟨a, ha, hab⟩ := ih hb
      exact ⟨a, .tail _ ha, hab⟩

/-- The modules that a mapping meets are retired and their parts are entered. -/
structure Replaced (active : List ModuleRecord) (m : ModuleRecord) (retired : List ModuleRecord)
    (activations : List ModuleActivation) (active' : List ModuleRecord) : Prop where
  met : ∀ m', m' ∈ retired ↔ m' ∈ active ∧ Meets m m'
  ordered : retired.Pairwise fun m' m'' => m'.stop.toNat ≤ m''.start.toNat
  entered : Entered (partsAround m retired) activations
  active : active' = active.filter (fun m' => ¬ Meets m m') ++ activations.map (·.module)

section

variable {active retired : List ModuleRecord} {pid : Pid} (howner : m.owner = .process pid)
  (hmet : ∀ m', m' ∈ retired ↔ m' ∈ active ∧ Meets m m')

include howner hmet

/-- A part stems from a module of the process that is retired. -/
theorem source_of_part {part : UInt32 × ModuleRecord} (h : part ∈ partsAround m retired) :
    ∃ m' ∈ retired, m'.owner = .process pid ∧ part.1 = m'.id ∧ Leaves m' m part.2 := by
  obtain ⟨m', hm', hpart⟩ := List.mem_flatMap.mp h
  obtain ⟨part, hsplit, rfl⟩ := List.mem_map.mp hpart
  obtain ⟨-, howner', hmeet⟩ := (hmet m').mp hm'
  exact ⟨m', hm', howner'.trans howner, rfl, leaves_of_split hmeet hsplit⟩

theorem parts_fit (hapart : active.Pairwise ApartIfShared) {part : UInt32 × ModuleRecord}
    (h : part ∈ partsAround m retired) : Fits (active.filter fun m' => ¬ Meets m m') part.2 := by
  obtain ⟨source, hsource, howner', -, hleaves⟩ := source_of_part howner hmet h
  refine .ofUser (hleaves.isPart.owner.trans howner') hleaves.nonempty fun m' hm' => ?_
  obtain ⟨hm', hkept⟩ := List.mem_filter.mp hm'
  obtain ⟨hactive, hmeets⟩ := (hmet source).mp hsource
  have hne : m' ≠ source := by
    rintro rfl
    exact of_decide_eq_true hkept hmeets
  intro p hp hp'
  have : Std.Symm ApartIfShared := ⟨fun _ _ => ApartIfShared.symm⟩
  have hsources := hapart.forall hm' hactive hne p hp (hleaves.isPart.owner.symm.trans hp')
  have hstart := hleaves.isPart.start_le
  have hstop := hleaves.isPart.stop_le
  exact hsources.imp hstart.trans' hstop.trans

theorem parts_apart (hnew : m.start.toNat < m.stop.toNat)
    (hordered : retired.Pairwise fun m' m'' => m'.stop.toNat ≤ m''.start.toNat) :
    (partsAround m retired).Pairwise fun part part' =>
      ApartIfShared part.2 part'.2 ∧ identityOf part.2 ≠ identityOf part'.2 := by
  have hapart : (partsAround m retired).Pairwise fun part part' => Apart part.2 part'.2 := by
    refine List.pairwise_flatMap.mpr ⟨fun m' hm' => ?_, ?_⟩
    · exact List.pairwise_map.mpr (split_apart ((hmet m').mp hm').2.2 hnew)
    · refine hordered.imp_of_mem fun {m' m''} hm' hm'' hle part hpart part' hpart' => .inl ?_
      obtain ⟨piece, hpiece, rfl⟩ := List.mem_map.mp hpart
      obtain ⟨piece', hpiece', rfl⟩ := List.mem_map.mp hpart'
      have hstop := (leaves_of_split ((hmet m').mp hm').2.2 hpiece).isPart.stop_le
      have hstart := (leaves_of_split ((hmet m'').mp hm'').2.2 hpiece').isPart.start_le
      exact hstop.trans (hle.trans hstart)
  refine hapart.imp_of_mem fun {part part'} _ hpart' h => ?_
  obtain ⟨source, -, howner', -, hleaves⟩ := source_of_part howner hmet hpart'
  have hfits : Fits [part.2] part'.2 := .ofUser (hleaves.isPart.owner.trans howner')
    hleaves.nonempty (List.forall_mem_singleton.mpr fun _ _ _ => h)
  exact ⟨hfits.apart _ (List.mem_singleton_self _), hfits.identity _ (List.mem_singleton_self _)⟩

end

theorem Replaced.fits {active retired : List ModuleRecord} {activations : List ModuleActivation}
    {active' : List ModuleRecord} (h : Replaced active m retired activations active') {pid : Pid}
    (howner : m.owner = .process pid) (hnew : m.start.toNat < m.stop.toNat) : Fits active' m := by
  refine .ofUser howner hnew fun m' hm' p hp hp' => ?_
  rw [h.active] at hm'
  rcases List.mem_append.mp hm' with hm' | hm'
  · have hkept : ¬ Meets m m' := of_decide_eq_true (List.mem_filter.mp hm').2
    have hout : ¬ moduleRangesOverlap m' m = true := fun hmeet => hkept ⟨hp.trans hp'.symm, hmeet⟩
    rw [overlap_iff] at hout
    unfold Apart
    omega
  · obtain ⟨activation, hactivation, rfl⟩ := List.mem_map.mp hm'
    obtain ⟨part, hpart, -, hmodule⟩ := exists_of_forall₂_right h.entered hactivation
    obtain ⟨_, -, -, -, hleaves⟩ := source_of_part howner h.met hpart
    rw [hmodule]
    exact hleaves.apart

theorem fits_kernel {active : List ModuleRecord} (howner : m.owner = .kernel)
    (hnew : m.start.toNat < m.stop.toNat) (hunknown : ∀ known ∈ active, ¬ Compatible m known) :
    Fits active m := by
  refine ⟨hnew, fun m' _ pid _ hpid => ?_, fun m' hm' hsame => ?_⟩
  · rw [howner] at hpid
    cases hpid
  · obtain ⟨hsame, hgeneration⟩ := identityOf_eq_iff.mp hsame
    exact hunknown m' hm' ⟨hsame, .inl hgeneration⟩

theorem owner_of_pid_none (h : m.pid = none) : m.owner = .kernel := by
  unfold ModuleRecord.pid at h
  rcases howner : m.owner with pid | _
  · rw [howner] at h
    cases h
  · rfl

theorem owner_of_pid_some {pid : Pid} (h : m.pid = some pid) : m.owner = .process pid := by
  unfold ModuleRecord.pid at h
  rcases howner : m.owner with pid' | _
  · rw [howner] at h
    exact congrArg _ (Option.some.inj h)
  · rw [howner] at h
    cases h

section

variable {σ : Type} {write : Op → σ → Except Stop Unit × σ} {writer : σ} {log : List Op}
  {s : Recorder σ}

theorem replaceOverlapping_ran (hs : Recorded write writer log s)
    {pid : Pid} (howner : m.owner = .process pid)
    (hnew : m.start.toNat < m.stop.toNat) :
    Ran write writer log
      (fun result log' _ => Replaced (activeOf log) m result.1 result.2 (activeOf log'))
      (replaceOverlapping write pid.get m s) := by
  obtain ⟨met, hok, hordered, hmet⟩ := overlapping_ok hs.table pid.get m
  rcases hids : s.table.overlappingModuleIds pid.get m with e | ids
  · rw [hids] at hok
    cases hok
  rw [hids] at hok
  replace hmet : ∀ m', m' ∈ met ↔ m' ∈ activeOf log ∧ Meets m m' := by
    intro m'
    unfold Meets
    rw [hmet m', owned_process, howner]
  unfold replaceOverlapping
  rw [bind_ask hids, bind_ask hok]
  by_cases hempty : met.map (·.id) = []
  · obtain rfl : met = [] := List.map_eq_nil_iff.mp hempty
    rw [if_pos hempty]
    refine .done hs ⟨hmet, hordered, .nil, ?_⟩
    rw [List.map_nil, List.append_nil, List.filter_eq_self.mpr]
    intro m' hm'
    exact decide_eq_true fun hmeets => List.not_mem_nil ((hmet m').mpr ⟨hm', hmeets⟩)
  · rw [if_neg hempty]
    have hactive : ∀ m' ∈ met, m' ∈ activeOf log := fun m' hm' => ((hmet m').mp hm').1
    rw [bind_ask (survivors_ok hs.table.toLists m hactive), bind_change]
    have hnodup := nodup_ids hs.table.toLists hactive hordered
    have hs' : Recorded write writer log
        { s with table := s.table.markDirty pid.get } :=
      ⟨hs.written, hs.table.markDirty pid.get, hs.issued⟩
    refine (retireAll_ran hs' (fun m' hm' => ⟨hactive m' hm',
      ((hmet m').mp hm').2.1.trans howner⟩) hnodup List.mem_insert_self).bind
      fun retired ops s'' hs'' hretired => ?_
    obtain ⟨rfl, hkept⟩ := hretired
    replace hkept : activeOf (log ++ ops) = (activeOf log).filter fun m' => ¬ Meets m m' := by
      rw [hkept]
      refine List.filter_congr fun m' hm' => decide_eq_decide.mpr (not_congr ?_)
      rw [List.mem_map]
      constructor
      · rintro ⟨m'', hm'', hid⟩
        rw [← hs.table.eq_of_id (hactive m'' hm'') hm' hid]
        exact ((hmet m'').mp hm'').2
      · exact fun hmeets => ⟨m', (hmet m').mpr ⟨hm', hmeets⟩, rfl⟩
    have hfits : ∀ part ∈ partsAround m retired, Fits (activeOf (log ++ ops)) part.2 := by
      rw [hkept]
      exact fun part hpart => parts_fit howner hmet hs.table.apart hpart
    refine (internSurvivors_ran hs'' hfits (parts_apart howner hmet hnew hordered)).bind
      fun activations more s₃ hs₃ hentered => ?_
    obtain ⟨hentered, hactive'⟩ := hentered
    refine .done hs₃ ⟨hmet, hordered, hentered, ?_⟩
    rw [hactive', hkept]

/-- Enter the mapping behind the parts. -/
theorem enterLast_ran (hs : Recorded write writer log s) (hfits : Fits (activeOf log) m)
    (retired : List ModuleRecord)
    (activations : List ModuleActivation) :
    Ran write writer log
      (fun update log' _ => ∃ id,
        update = ⟨retired, activations ++ [⟨{ m with id := id }, none⟩], true⟩ ∧
          activeOf log' = activeOf log ++ [{ m with id := id }])
      ((do
        let id ← internWithoutOverlap write m
        let known ← ask fun table => table.activeModule id
        return ⟨retired, activations ++ [⟨known, none⟩], true⟩ : Recording σ ModuleUpdate) s) := by
  refine (internWithoutOverlap_ran hs hfits).bind fun id ops s' hs' hactive => ?_
  have hmem : { m with id := id } ∈ activeOf (log ++ ops) := by
    rw [hactive]
    exact List.mem_append_right _ (List.mem_singleton_self _)
  rw [bind_ask (hs'.table.activeModule_ok hmem)]
  exact .done hs' ⟨id, rfl, hactive⟩

/-- What applying a mapping does to the active modules. -/
inductive Applied (active : List ModuleRecord) (m : ModuleRecord) :
    ModuleUpdate → List ModuleRecord → Prop
  | empty : m.stop.toNat ≤ m.start.toNat → Applied active m .default active
  | known (known : ModuleRecord) : m.start.toNat < m.stop.toNat → known ∈ active →
      Compatible m known → Applied active m ⟨[], [⟨known, none⟩], false⟩ active
  | entered (retired : List ModuleRecord) (activations : List ModuleActivation)
      (rest : List ModuleRecord) (id : UInt32) : m.start.toNat < m.stop.toNat →
      (∀ known ∈ active, ¬ Compatible m known) →
      (m.owner = .kernel ∧ retired = [] ∧ activations = [] ∧ rest = active ∨
        (∃ pid, m.owner = .process pid) ∧ Replaced active m retired activations rest) →
      Applied active m ⟨retired, activations ++ [⟨{ m with id := id }, none⟩], true⟩
        (rest ++ [{ m with id := id }])

theorem applyModule_ran (hs : Recorded write writer log s)
    (m : ModuleRecord) :
    Ran write writer log (fun update log' _ => Applied (activeOf log) m update (activeOf log'))
      (applyModule write m s) := by
  unfold applyModule
  by_cases hempty : m.stop ≤ m.start
  · rw [if_pos hempty]
    exact .done hs (.empty hempty)
  rw [if_neg hempty]
  have hnew : m.start.toNat < m.stop.toNat := Nat.lt_of_not_le hempty
  obtain ⟨found, hfound, hcases⟩ := findCompatibleActive_ok hs.table m
  rw [bind_ask hfound]
  rcases found with _ | id
  · simp only
    rcases hpid : m.pid with _ | pid
    · have howner := owner_of_pid_none hpid
      refine (enterLast_ran hs (fits_kernel howner hnew hcases) [] []).mono ?_
      rintro update ops s' - ⟨id, rfl, hactive⟩
      rw [hactive]
      exact .entered [] [] _ id hnew hcases (.inl ⟨howner, rfl, rfl, rfl⟩)
    · have howner := owner_of_pid_some hpid
      refine (replaceOverlapping_ran hs howner hnew).bind fun result ops s' hs' hreplaced => ?_
      refine (enterLast_ran hs' (hreplaced.fits howner hnew) result.1 result.2).mono ?_
      rintro update more s'' - ⟨id, rfl, hactive⟩
      rw [hactive]
      exact .entered _ _ _ id hnew hcases (.inr ⟨⟨pid, howner⟩, hreplaced⟩)
  · obtain ⟨known, hknown, rfl, hcompatible⟩ := hcases
    simp only
    rw [bind_ask (hs.table.activeModule_ok hknown)]
    exact .done hs (.known known hnew hknown hcompatible)

end

end StackPulse.ModuleApplication
