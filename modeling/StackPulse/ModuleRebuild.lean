import StackPulse.ModuleRepresentation

/-!
Rebuilding the index of the table. Only the groups of changed owners are built
again; afterwards every lookup finds the newest module around its address.
-/
namespace StackPulse.ModuleRepresentation

open Model FrameContexts OrderedMap Modules ModuleSearch

variable {table : ModuleTable} {active : List ModuleRecord}

theorem Lists.activeModule_ok (h : Lists table active) {m : ModuleRecord} (hm : m ∈ active) :
    table.activeModule m.id = .ok m := by
  unfold ModuleTable.activeModule
  rw [(h.byId m.id m).mpr ⟨hm, rfl⟩]

theorem Lists.activeModules_ok (h : Lists table active) {ids : List UInt32}
    (hids : ∀ id ∈ ids, ∃ m ∈ active, m.id = id) :
    ∃ modules, table.activeModules ids = .ok modules ∧
      ∀ m, m ∈ modules ↔ m ∈ active ∧ m.id ∈ ids := by
  induction ids with
  | nil => exact ⟨[], rfl, by simp⟩
  | cons id ids ih =>
    obtain ⟨m, hm, rfl⟩ := hids id (.head _)
    obtain ⟨modules, hmodules, hmem⟩ := ih fun id hid => hids id (.tail _ hid)
    refine ⟨m :: modules, ?_, fun m' => ?_⟩
    · rw [ModuleTable.activeModules, h.activeModule_ok hm, hmodules]
      rfl
    · rw [List.mem_cons, hmem m', List.mem_cons]
      constructor
      · rintro (rfl | ⟨hm', hid⟩)
        · exact ⟨hm, .inl rfl⟩
        · exact ⟨hm', .inr hid⟩
      · rintro ⟨hm', hid | hid⟩
        · exact .inl (h.eq_of_id hm' hm hid)
        · exact .inr ⟨hm', hid⟩

/-- The index of the modules of one owner finds the newest of them around an address. -/
theorem find_rebuild_owner (h : Lists table active) {owner : ModuleOwner}
    {modules : List ModuleRecord} (hmodules : ∀ m, m ∈ modules ↔ m ∈ active ∧ m.owner = owner)
    (address : UInt64) :
    (ModuleIndexGroup.rebuild modules).find address =
      (newestAround active (some owner) address).map ModuleIndexEntry.of := by
  have hsorted : (active.filter fun m => m.owner = owner).Pairwise
      fun m m' => m.id.toNat < m'.id.toNat := h.sorted.filter _
  have hsame : ∀ m, m ∈ modules ↔ m ∈ active.filter fun m => m.owner = owner := by
    intro m
    rw [hmodules m, List.mem_filter, decide_eq_true_eq]
  rw [find_rebuild hsorted hsame, ← List.filter_reverse, List.find?_filter]
  unfold newestAround
  congr 2
  funext m
  by_cases howner : m.owner = owner
  · simp [howner]
  · simp [howner, Ne.symm howner]

theorem Represents.mem_processModuleIds (h : Represents table active) {processId : Int32}
    {id : UInt32} : id ∈ table.processModuleIds processId ↔
      ∃ m ∈ active, Owned processId m ∧ m.id = id := by
  unfold ModuleTable.processModuleIds
  rw [List.mem_map]
  constructor
  · rintro ⟨key, hkey, rfl⟩
    obtain ⟨m, hm, howned, rfl⟩ := ((h.keyed processId).keys key).mp hkey
    exact ⟨m, hm, howned, rfl⟩
  · rintro ⟨m, hm, howned, rfl⟩
    exact ⟨⟨m.start, m.id⟩, ((h.keyed processId).keys _).mpr ⟨m, hm, howned, rfl⟩, rfl⟩

theorem newestAround_none {owner : Option ModuleOwner} {address : UInt64}
    (h : ∀ m ∈ active, owner ≠ some m.owner) : newestAround active owner address = none := by
  apply List.find?_eq_none.mpr
  intro m hm hdecide
  exact h m (List.mem_reverse.mp hm) (of_decide_eq_true hdecide).1

/-- The index after the group of one process was rebuilt. -/
theorem Represents.rebuildProcess (h : Represents table active) (index : ModuleIndex)
    (processId : Int32) :
    ∃ index', table.rebuildProcess index processId = .ok index' ∧ index'.kernel = index.kernel ∧
      (∀ address, index'.find processId address .user =
        (newestAround active (frameOwner processId .user) address).map ModuleIndexEntry.of) ∧
      ∀ p ≠ processId, ∀ address, index'.find p address .user = index.find p address .user := by
  unfold ModuleTable.rebuildProcess
  rcases hkeys : table.activeByProcess.lookup processId with _ | keys
  · refine ⟨_, rfl, rfl, fun address => ?_, fun p hp address => ?_⟩
    · have hnone : ∀ m ∈ active, frameOwner processId .user ≠ some m.owner := by
        intro m hm howner
        obtain ⟨keys, hkeys', -⟩ := mem_startKeys.mp
          (((h.keyed processId).keys _).mpr ⟨m, hm, owned_iff.mpr howner, rfl⟩)
        rw [hkeys] at hkeys'
        cases hkeys'
      rw [newestAround_none hnone]
      unfold ModuleIndex.find
      simp only [AList.lookup_erase]
      rfl
    · unfold ModuleIndex.find
      simp only [AList.lookup_erase_ne hp]
  · have hids : ∀ id ∈ table.processModuleIds processId, ∃ m ∈ active, m.id = id := by
      intro id hid
      obtain ⟨m, hm, -, hid⟩ := h.mem_processModuleIds.mp hid
      exact ⟨m, hm, hid⟩
    obtain ⟨modules, hmodules, hmem⟩ := h.toLists.activeModules_ok hids
    refine ⟨{ index with byProcess := index.byProcess.insert processId (.rebuild modules) },
      by simp only [hmodules]; rfl, rfl, fun address => ?_, fun p hp address => ?_⟩
    · -- The ordered set is not empty, so the process has a module and an owner.
      obtain ⟨key, hkey⟩ : ∃ key, key ∈ table.startKeys processId := by
        obtain ⟨⟨key, _⟩, hentry⟩ := List.exists_mem_of_ne_nil _
          ((h.keyed processId).nonempty keys hkeys)
        exact ⟨key, mem_startKeys.mpr ⟨keys, hkeys, BTreeMap.get_eq_some.mpr hentry⟩⟩
      obtain ⟨first, -, hfirst, -⟩ := ((h.keyed processId).keys key).mp hkey
      have howner := owned_iff.mp hfirst
      unfold ModuleIndex.find
      simp only [AList.lookup_insert, Option.bind_some]
      rw [howner]
      apply find_rebuild_owner h.toLists
      intro m
      rw [hmem m, h.mem_processModuleIds]
      constructor
      · rintro ⟨hm, m', hm', howned, hid⟩
        rw [h.eq_of_id hm hm' hid.symm]
        exact ⟨hm', Option.some.inj ((owned_iff.mp howned).symm.trans howner)⟩
      · rintro ⟨hm, hsame⟩
        refine ⟨hm, m, hm, owned_iff.mpr ?_, rfl⟩
        rw [howner, hsame]
    · unfold ModuleIndex.find
      simp only [AList.lookup_insert_ne hp]

theorem Represents.rebuildProcesses (h : Represents table active) (processIds : List Int32)
    (index : ModuleIndex) :
    ∃ index', table.rebuildProcesses processIds index = .ok index' ∧
      index'.kernel = index.kernel ∧
      (∀ p ∈ processIds, ∀ address, index'.find p address .user =
        (newestAround active (frameOwner p .user) address).map ModuleIndexEntry.of) ∧
      ∀ p ∉ processIds, ∀ address, index'.find p address .user = index.find p address .user := by
  induction processIds generalizing index with
  | nil => exact ⟨index, rfl, rfl, by simp, fun _ _ _ => rfl⟩
  | cons processId processIds ih =>
    obtain ⟨first, hfirst, hkernel, hfound, hother⟩ := h.rebuildProcess index processId
    obtain ⟨index', hindex', hkernel', hfound', hother'⟩ := ih first
    refine ⟨index', ?_, hkernel'.trans hkernel, fun p hp address => ?_, fun p hp address => ?_⟩
    · rw [ModuleTable.rebuildProcesses, hfirst]
      exact hindex'
    · by_cases hrest : p ∈ processIds
      · exact hfound' p hrest address
      · rcases List.mem_cons.mp hp with rfl | hin
        · rw [hother' p hrest, hfound]
        · exact absurd hin hrest
    · obtain ⟨hne, hrest⟩ := not_or.mp (fun hor => hp (List.mem_cons.mpr hor))
      rw [hother' p hrest, hother p hne]

theorem Lists.mem_kernelModules (h : Lists table active) (m : ModuleRecord) :
    m ∈ table.kernelModules ↔ m ∈ active ∧ m.owner = .kernel := by
  have hkernel : m.isKernel = true ↔ m.owner = .kernel := by
    unfold ModuleRecord.isKernel
    rcases m.owner with pid | _ <;> simp [ModuleOwner.isKernel]
  unfold ModuleTable.kernelModules
  rw [List.mem_filter, hkernel]
  refine and_congr_left fun _ => ?_
  rw [List.mem_map]
  constructor
  · rintro ⟨⟨id, m'⟩, hentry, rfl⟩
    have hlookup : table.active.lookup id = some m' := AList.mem_lookup_iff.mpr hentry
    exact ((h.byId id m').mp hlookup).1
  · intro hm
    have hlookup := (h.byId m.id m).mpr ⟨hm, rfl⟩
    exact ⟨⟨m.id, m⟩, AList.mem_lookup_iff.mp hlookup, rfl⟩

/-- A table whose index is up to date. -/
structure Rebuilt (table table' : ModuleTable) : Prop where
  same : table' = { table with
    index := table'.index
    dirtyProcesses := []
    kernelIndexDirty := false }

theorem Represents.rebuildIndexIfNeeded (h : Represents table active) :
    ∃ table', table.rebuildIndexIfNeeded = .ok table' ∧ Rebuilt table table' ∧
      Represents table' active := by
  unfold ModuleTable.rebuildIndexIfNeeded
  by_cases hneeded : table.dirtyProcesses ≠ [] ∨ table.kernelIndexDirty = true
  · rw [if_pos hneeded]
    obtain ⟨index, hindex, hkernel, hfound, hother⟩ :=
      h.rebuildProcesses table.dirtyProcesses table.index
    refine ⟨{ table with
        index := if table.kernelIndexDirty then
            { index with kernel := .rebuild table.kernelModules }
          else index
        dirtyProcesses := []
        kernelIndexDirty := false },
      by unfold ModuleTable.rebuildDirtyIndexGroups; rw [hindex]; rfl, ⟨rfl⟩,
      ⟨⟨h.sorted, h.bound, h.nonempty, h.apart, h.byId, h.byKey, fun p _ address => ?_,
        fun _ p address => ?_⟩, fun p => ⟨(h.keyed p).keys, (h.keyed p).nonempty⟩⟩⟩
    · have huser : ∀ kernel, ModuleIndex.find ⟨index.byProcess, kernel⟩ p address .user =
          index.find p address .user := fun _ => rfl
      have hsame : index.find p address .user =
          (newestAround active (frameOwner p .user) address).map ModuleIndexEntry.of := by
        by_cases hdirty : p ∈ table.dirtyProcesses
        · exact hfound p hdirty address
        · rw [hother p hdirty, h.found p hdirty]
      rcases hk : table.kernelIndexDirty with _ | _
      · simpa only [hk, Bool.false_eq_true, if_false] using hsame
      · simpa only [hk, if_true, huser] using hsame
    · rcases hk : table.kernelIndexDirty with _ | _
      · simp only [Bool.false_eq_true, if_false]
        unfold ModuleIndex.find
        simp only
        rw [hkernel]
        exact h.foundKernel hk p address
      · simp only [if_true]
        exact find_rebuild_owner h.toLists h.mem_kernelModules address
  · rw [if_neg hneeded]
    obtain ⟨hclean, hkernel⟩ := not_or.mp hneeded
    refine ⟨table, rfl, ⟨?_⟩, h⟩
    rw [← not_not.mp hclean, ← Bool.eq_false_iff.mpr hkernel]

end StackPulse.ModuleRepresentation
