import Mathlib.Data.List.Find
import StackPulse.ModuleSearch
import StackPulse.Recall

/-!
The table represents a list of modules in the order of their ids. Each of its maps
holds the modules of the list and nothing else, the modules of a process are
disjoint, and what the index has not to rebuild it finds as a scan of the list does.
-/
namespace StackPulse.ModuleRepresentation

open Model FrameContexts OrderedMap Modules ModuleSearch

variable {m m' : ModuleRecord} {processId : Int32} {pid : Pid}

/-- The ranges have no address in common. -/
def Apart (m m' : ModuleRecord) : Prop :=
  m.stop.toNat ≤ m'.start.toNat ∨ m'.stop.toNat ≤ m.start.toNat

theorem Apart.symm (h : Apart m m') : Apart m' m := Or.symm h

/-- Modules of one process are apart. -/
def ApartIfShared (m m' : ModuleRecord) : Prop :=
  ∀ pid, m.owner = .process pid → m'.owner = .process pid → Apart m m'

theorem ApartIfShared.symm (h : ApartIfShared m m') : ApartIfShared m' m :=
  fun pid howner howner' => (h pid howner' howner).symm

/-- The module belongs to the process. -/
def Owned (processId : Int32) (m : ModuleRecord) : Prop := m.pid.map (·.get) = some processId

instance (processId : Int32) (m : ModuleRecord) : Decidable (Owned processId m) := by
  unfold Owned
  infer_instance

/-- The module of an owner around an address with the highest id, in a list in the order of
ids. -/
def newestAround (active : List ModuleRecord) (owner : Option ModuleOwner) (address : UInt64) :
    Option ModuleRecord :=
  active.reverse.find? fun m => decide (owner = some m.owner ∧ Around m address)

theorem owned_iff : Owned processId m ↔ frameOwner processId .user = some m.owner := by
  unfold Owned frameOwner ModuleRecord.pid
  cases howner : m.owner with
  | kernel =>
    simp only [ModuleOwner.pid, Option.map_none, reduceCtorEq, Option.map_eq_some_iff, and_false,
      exists_false]
  | process pid =>
    simp only [ModuleOwner.pid, Option.map_some, Option.some_inj, Option.map_eq_some_iff,
      ModuleOwner.process.injEq, exists_eq_right, Pid.new_eq_some]

theorem owned_process : Owned pid.get m ↔ m.owner = .process pid := by
  rw [owned_iff]
  simp only [frameOwner, Pid.new_get, Option.map_some, Option.some_inj, eq_comm]

/-- A module of another owner makes no difference. -/
theorem newestAround_append {active : List ModuleRecord} {owner : Option ModuleOwner}
    (h : owner ≠ some m.owner) (address : UInt64) :
    newestAround (active ++ [m]) owner address = newestAround active owner address := by
  unfold newestAround
  rw [List.reverse_append, List.reverse_singleton, List.singleton_append,
    List.find?_cons_of_neg (by simp [h])]

theorem find?_filter_of_imp {α : Type} {p q : α → Bool} {l : List α}
    (h : ∀ a ∈ l, p a = true → q a = true) : (l.filter q).find? p = l.find? p := by
  rw [List.find?_filter]
  apply List.find?_congr
  intro a ha
  cases hp : p a with
  | false => simp
  | true => simp [h a ha hp]

theorem newestAround_filter {active : List ModuleRecord} {owner : Option ModuleOwner}
    {keep : ModuleRecord → Bool} (h : ∀ m ∈ active, owner = some m.owner → keep m = true)
    (address : UInt64) :
    newestAround (active.filter keep) owner address = newestAround active owner address := by
  unfold newestAround
  rw [← List.filter_reverse]
  apply find?_filter_of_imp
  intro m hm hp
  exact h m (List.mem_reverse.mp hm) (of_decide_eq_true hp).1

theorem mem_startKeys {table : ModuleTable} {key : StartKey} :
    key ∈ table.startKeys processId ↔
      ∃ keys, table.activeByProcess.lookup processId = some keys ∧ keys.get key = some () := by
  unfold ModuleTable.startKeys
  rcases table.activeByProcess.lookup processId with _ | keys
  · simp
  · simp only [Option.map_some, Option.getD_some, List.mem_map, Option.some_inj, exists_eq_left',
      BTreeMap.get_eq_some]
    constructor
    · rintro ⟨⟨_, ⟨⟩⟩, hmem, rfl⟩
      exact hmem
    · exact fun hmem => ⟨(key, ()), hmem, rfl⟩

/-- The modules and what finds them by id, by identity and by address. -/
structure Lists (table : ModuleTable) (active : List ModuleRecord) : Prop where
  sorted : active.Pairwise fun m m' => m.id.toNat < m'.id.toNat
  bound : ∀ m ∈ active, m.id.toNat < table.nextId
  nonempty : ∀ m ∈ active, m.start.toNat < m.stop.toNat
  apart : active.Pairwise ApartIfShared
  byId : ∀ id m, table.active.lookup id = some m ↔ m ∈ active ∧ m.id = id
  byKey : ∀ key id, table.activeByKey.lookup key = some id ↔
    ∃ m ∈ active, identityOf m = key ∧ m.id = id
  found : ∀ processId ∉ table.dirtyProcesses, ∀ address,
    table.index.find processId address .user =
      (newestAround active (frameOwner processId .user) address).map ModuleIndexEntry.of
  foundKernel : table.kernelIndexDirty = false → ∀ processId address,
    table.index.find processId address .kernel =
      (newestAround active (some .kernel) address).map ModuleIndexEntry.of

/-- The ordered set of a process holds its modules. There is no empty set. -/
structure Keyed (table : ModuleTable) (active : List ModuleRecord) (processId : Int32) : Prop where
  keys : ∀ key, key ∈ table.startKeys processId ↔
    ∃ m ∈ active, Owned processId m ∧ key = ⟨m.start, m.id⟩
  nonempty : ∀ keys, table.activeByProcess.lookup processId = some keys → keys.entries ≠ []

structure Represents (table : ModuleTable) (active : List ModuleRecord) : Prop
    extends Lists table active where
  keyed : ∀ processId, Keyed table active processId

theorem represents_default : Represents .default [] where
  sorted := .nil
  bound := by simp
  nonempty := by simp
  apart := .nil
  byId := by simp [ModuleTable.default]
  byKey := by simp [ModuleTable.default]
  found := by
    intro processId _ address
    simp [ModuleTable.default, ModuleIndex.find, newestAround]
  foundKernel := by
    intro _ processId address
    rfl
  keyed := fun processId => ⟨by simp [ModuleTable.startKeys, ModuleTable.default],
    by simp [ModuleTable.default]⟩

variable {table : ModuleTable} {active : List ModuleRecord}

theorem Lists.eq_of_id (h : Lists table active) (hm : m ∈ active) (hm' : m' ∈ active)
    (hid : m.id = m'.id) : m = m' := by
  have hm := (h.byId m.id m).mpr ⟨hm, rfl⟩
  have hm' := (h.byId m.id m').mpr ⟨hm', hid.symm⟩
  exact Option.some.inj (hm.symm.trans hm')

theorem Lists.apart_of_ne (h : Lists table active) (hm : m ∈ active) (hm' : m' ∈ active)
    (hne : m ≠ m') (howner : m.owner = .process pid) (howner' : m'.owner = .process pid) :
    Apart m m' := by
  have : Std.Symm ApartIfShared := ⟨fun _ _ => ApartIfShared.symm⟩
  exact h.apart.forall hm hm' hne pid howner howner'

theorem Lists.withProcesses (h : Lists table active) (byProcess : FxHashMap Int32 StartSet) :
    Lists { table with activeByProcess := byProcess } active :=
  ⟨h.sorted, h.bound, h.nonempty, h.apart, h.byId, h.byKey, h.found, h.foundKernel⟩

theorem Keyed.congr {table' : ModuleTable} (h : Keyed table active processId)
    (hsame : table'.activeByProcess.lookup processId = table.activeByProcess.lookup processId) :
    Keyed table' active processId := by
  refine ⟨fun key => ?_, fun keys hkeys => h.nonempty keys (hsame ▸ hkeys)⟩
  rw [← h.keys key, mem_startKeys, mem_startKeys, hsame]

theorem Lists.markDirty (h : Lists table active) (processId : Int32) :
    Lists (table.markDirty processId) active :=
  ⟨h.sorted, h.bound, h.nonempty, h.apart, h.byId, h.byKey,
    fun p hp => h.found p fun hmem => hp (List.mem_insert_of_mem hmem), h.foundKernel⟩

/-- What a process may enter: a module with the next id that is apart from its others. -/
structure Enterable (table : ModuleTable) (active : List ModuleRecord) (m : ModuleRecord) :
    Prop where
  id : m.id.toNat = table.nextId
  nonempty : m.start.toNat < m.stop.toNat
  apart : ∀ m' ∈ active, ApartIfShared m' m
  identity : ∀ m' ∈ active, identityOf m' ≠ identityOf m

section

theorem enter_active (m : ModuleRecord) : (table.enter m).active = table.active.insert m.id m := by
  unfold ModuleTable.enter
  rcases m.pid with _ | pid <;> rfl

theorem enter_nextId (m : ModuleRecord) : (table.enter m).nextId = table.nextId + 1 := by
  unfold ModuleTable.enter
  rcases m.pid with _ | pid <;> rfl

theorem enter_activeByKey (m : ModuleRecord) :
    (table.enter m).activeByKey = table.activeByKey.insert (identityOf m) m.id := by
  unfold ModuleTable.enter
  rcases m.pid with _ | pid <;> rfl

theorem enter_index (m : ModuleRecord) : (table.enter m).index = table.index := by
  unfold ModuleTable.enter
  rcases m.pid with _ | pid <;> rfl

theorem Lists.enter (h : Lists table active) (hm : Enterable table active m) :
    Lists (table.enter m) (active ++ [m]) where
  sorted := by
    refine List.pairwise_append.mpr ⟨h.sorted, List.pairwise_singleton _ _, fun m' hm' n hn => ?_⟩
    rw [List.mem_singleton.mp hn, hm.id]
    exact h.bound m' hm'
  bound := by
    rw [enter_nextId]
    exact List.forall_mem_append.mpr ⟨fun m' hm' => Nat.lt_succ_of_lt (h.bound m' hm'),
      List.forall_mem_singleton.mpr (Nat.lt_succ_of_le hm.id.le)⟩
  nonempty := List.forall_mem_append.mpr ⟨h.nonempty, List.forall_mem_singleton.mpr hm.nonempty⟩
  apart := by
    refine List.pairwise_append.mpr ⟨h.apart, List.pairwise_singleton _ _, fun m' hm' n hn => ?_⟩
    rw [List.mem_singleton.mp hn]
    exact hm.apart m' hm'
  byId := by
    intro id m'
    have hfresh : ∀ m' ∈ active, m'.id ≠ m.id := by
      intro m' hm' hid
      have hlt := h.bound m' hm'
      rw [hid, hm.id] at hlt
      exact Nat.lt_irrefl _ hlt
    rw [enter_active, lookup_insert_eq, List.mem_append, List.mem_singleton]
    by_cases hid : id = m.id
    · subst hid
      rw [if_pos rfl, Option.some_inj]
      constructor
      · rintro rfl
        exact ⟨.inr rfl, rfl⟩
      · rintro ⟨hold | rfl, hid⟩
        · exact absurd hid (hfresh m' hold)
        · rfl
    · rw [if_neg hid, h.byId]
      constructor
      · exact fun hold => ⟨.inl hold.1, hold.2⟩
      · rintro ⟨hold | rfl, hid'⟩
        · exact ⟨hold, hid'⟩
        · exact absurd hid'.symm hid
  byKey := by
    intro key id
    rw [enter_activeByKey, lookup_insert_eq]
    simp only [List.mem_append, List.mem_singleton, or_and_right, exists_or, exists_eq_left]
    by_cases hkey : key = identityOf m
    · subst hkey
      rw [if_pos rfl, Option.some_inj]
      constructor
      · exact fun hid => .inr ⟨rfl, hid⟩
      · rintro (⟨m', hm', hsame, -⟩ | ⟨-, hid⟩)
        · exact absurd hsame (hm.identity m' hm')
        · exact hid
    · rw [if_neg hkey, h.byKey]
      constructor
      · exact Or.inl
      · rintro (hold | ⟨hsame, -⟩)
        · exact hold
        · exact absurd hsame.symm hkey
  found := by
    intro processId hclean address
    have hother : frameOwner processId .user ≠ some m.owner := by
      intro howner
      obtain ⟨pid, hpid, hget⟩ := Option.map_eq_some_iff.mp (owned_iff.mpr howner)
      apply hclean
      unfold ModuleTable.enter
      rw [hpid, ← hget]
      exact List.mem_insert_self
    have hclean' : processId ∉ table.dirtyProcesses := by
      intro hmem
      apply hclean
      unfold ModuleTable.enter
      rcases m.pid with _ | pid
      · exact hmem
      · exact List.mem_insert_of_mem hmem
    rw [enter_index, newestAround_append hother, h.found processId hclean' address]
  foundKernel := by
    intro hclean processId address
    rcases hpid : m.pid with _ | pid
    · unfold ModuleTable.enter at hclean
      rw [hpid] at hclean
      cases hclean
    · have hclean' : table.kernelIndexDirty = false := by
        unfold ModuleTable.enter at hclean
        rw [hpid] at hclean
        exact hclean
      have hother : some ModuleOwner.kernel ≠ some m.owner := by
        intro howner
        unfold ModuleRecord.pid at hpid
        rw [← Option.some.inj howner] at hpid
        cases hpid
      rw [enter_index, newestAround_append hother, h.foundKernel hclean' processId address]

theorem startKeys_enter (m : ModuleRecord) (processId : Int32) (key : StartKey) :
    key ∈ (table.enter m).startKeys processId ↔
      key ∈ table.startKeys processId ∨ (Owned processId m ∧ key = ⟨m.start, m.id⟩) := by
  unfold Owned
  rw [mem_startKeys, mem_startKeys]
  rcases hpid : m.pid with _ | pid
  · have hsame : (table.enter m).activeByProcess = table.activeByProcess := by
      unfold ModuleTable.enter
      rw [hpid]
    rw [hsame]
    simp
  · have hinsert : (table.enter m).activeByProcess = table.activeByProcess.insert pid.get
        (((table.activeByProcess.lookup pid.get).getD .empty).insert ⟨m.start, m.id⟩ ()) := by
      unfold ModuleTable.enter
      rw [hpid]
      rfl
    rw [hinsert, lookup_insert_eq, Option.map_some, Option.some_inj]
    by_cases hprocess : processId = pid.get
    · subst hprocess
      rw [if_pos rfl]
      simp only [Option.some_inj, exists_eq_left', BTreeMap.get_insert, true_and]
      rcases table.activeByProcess.lookup pid.get with _ | keys
      · by_cases hkey : key = ⟨m.start, m.id⟩
        · simp [hkey]
        · simp [hkey, BTreeMap.empty, BTreeMap.get]
      · by_cases hkey : key = ⟨m.start, m.id⟩
        · simp [hkey]
        · simp [hkey]
    · rw [if_neg hprocess]
      simp [Ne.symm hprocess]

theorem Keyed.enter (h : Keyed table active processId) (m : ModuleRecord) :
    Keyed (table.enter m) (active ++ [m]) processId where
  keys := by
    intro key
    rw [startKeys_enter, h.keys key]
    simp only [List.mem_append, List.mem_singleton, or_and_right, exists_or, exists_eq_left]
  nonempty := by
    intro keys hkeys
    rcases hpid : m.pid with _ | pid
    · unfold ModuleTable.enter at hkeys
      rw [hpid] at hkeys
      exact h.nonempty keys hkeys
    · unfold ModuleTable.enter at hkeys
      rw [hpid] at hkeys
      have hlookup : (table.activeByProcess.insert pid.get
          (((table.activeByProcess.lookup pid.get).getD .empty).insert ⟨m.start, m.id⟩ ())).lookup
            processId = some keys := hkeys
      rw [lookup_insert_eq] at hlookup
      by_cases hprocess : processId = pid.get
      · rw [if_pos hprocess] at hlookup
        have hget : keys.get ⟨m.start, m.id⟩ = some () := by
          rw [← Option.some.inj hlookup, BTreeMap.get_insert, if_pos rfl]
        exact List.ne_nil_of_mem (BTreeMap.get_eq_some.mp hget)
      · rw [if_neg hprocess] at hlookup
        exact h.nonempty keys hlookup

end

theorem Represents.enter (h : Represents table active) (hm : Enterable table active m) :
    Represents (table.enter m) (active ++ [m]) :=
  ⟨h.toLists.enter hm, fun processId => (h.keyed processId).enter m⟩

section

/-- Take a module of a changed process out of the maps by id and by identity. -/
def drop (table : ModuleTable) (id : UInt32) (m : ModuleRecord) : ModuleTable :=
  { table with
    active := table.active.erase id
    activeByKey := table.activeByKey.erase (identityOf m) }

theorem Lists.drop (h : Lists table active) (hm : m ∈ active)
    (howned : Owned processId m) (hdirty : processId ∈ table.dirtyProcesses) :
    Lists (drop table m.id m) (active.filter fun m' => m'.id ≠ m.id) where
  sorted := h.sorted.filter _
  bound := fun m' hm' => h.bound m' (List.mem_of_mem_filter hm')
  nonempty := fun m' hm' => h.nonempty m' (List.mem_of_mem_filter hm')
  apart := h.apart.filter _
  byId := by
    intro id m'
    show (table.active.erase m.id).lookup id = some m' ↔ _
    rw [lookup_erase_eq, List.mem_filter, decide_eq_true_eq]
    by_cases hid : id = m.id
    · subst hid
      rw [if_pos rfl]
      simp only [reduceCtorEq, false_iff, not_and]
      exact fun hmem hid => hmem.2 hid
    · rw [if_neg hid, h.byId]
      constructor
      · rintro ⟨hmem, rfl⟩
        exact ⟨⟨hmem, hid⟩, rfl⟩
      · exact fun hmem => ⟨hmem.1.1, hmem.2⟩
  byKey := by
    intro key id
    show (table.activeByKey.erase (identityOf m)).lookup key = some id ↔ _
    rw [lookup_erase_eq]
    simp only [List.mem_filter, decide_eq_true_eq]
    by_cases hkey : key = identityOf m
    · subst hkey
      rw [if_pos rfl]
      simp only [reduceCtorEq, false_iff, not_exists, not_and]
      intro m' hm' hsame
      -- The identity of the module leads to its own id only.
      have hself := (h.byKey (identityOf m) m.id).mpr ⟨m, hm, rfl, rfl⟩
      have hother := (h.byKey (identityOf m) m'.id).mpr ⟨m', hm'.1, hsame, rfl⟩
      exact absurd (Option.some.inj (hother.symm.trans hself)) hm'.2
    · rw [if_neg hkey, h.byKey]
      constructor
      · rintro ⟨m', hm', rfl, rfl⟩
        refine ⟨m', ⟨hm', fun hid => hkey ?_⟩, rfl, rfl⟩
        rw [h.eq_of_id hm' hm hid]
      · rintro ⟨m', hm', hsame⟩
        exact ⟨m', hm'.1, hsame⟩
  found := by
    intro p hclean address
    have hkeep : ∀ m' ∈ active, frameOwner p .user = some m'.owner →
        decide (m'.id ≠ m.id) = true := by
      intro m' hm' howner
      refine decide_eq_true fun hid => ?_
      rw [h.eq_of_id hm' hm hid] at howner
      have hp : p = processId := Option.some.inj ((owned_iff.mpr howner).symm.trans howned)
      exact hclean (hp ▸ hdirty)
    rw [newestAround_filter hkeep]
    exact h.found p hclean address
  foundKernel := by
    intro hclean p address
    have hkeep : ∀ m' ∈ active, some ModuleOwner.kernel = some m'.owner →
        decide (m'.id ≠ m.id) = true := by
      intro m' hm' howner
      refine decide_eq_true fun hid => ?_
      rw [h.eq_of_id hm' hm hid] at howner
      have hkernel := owned_iff.mp howned
      rw [← howner] at hkernel
      unfold frameOwner at hkernel
      obtain ⟨pid, -, hpid⟩ := Option.map_eq_some_iff.mp hkernel
      cases hpid
    rw [newestAround_filter hkeep]
    exact h.foundKernel hclean p address

/-- For a process whose modules do not include it, nothing changes. -/
theorem Keyed.drop_other (h : Lists table active) (hkeyed : Keyed table active processId)
    (hm : m ∈ active) (hother : ¬ Owned processId m) :
    Keyed (drop table m.id m) (active.filter fun m' => m'.id ≠ m.id) processId where
  keys := by
    intro key
    show key ∈ table.startKeys processId ↔ _
    rw [hkeyed.keys key]
    constructor
    · rintro ⟨m', hm', howned, hkey⟩
      refine ⟨m', List.mem_filter.mpr ⟨hm', decide_eq_true fun hid => hother ?_⟩, howned, hkey⟩
      rw [← h.eq_of_id hm' hm hid]
      exact howned
    · rintro ⟨m', hm', howned, hkey⟩
      exact ⟨m', List.mem_of_mem_filter hm', howned, hkey⟩
  nonempty := hkeyed.nonempty

/-- The ordered sets after a module was taken out. -/
theorem lookup_removeProcessActive (table : ModuleTable) (hpid : m.pid = some pid) {keys : StartSet}
    (hkeys : table.activeByProcess.lookup pid.get = some keys) (processId : Int32) :
    (table.removeProcessActive m).activeByProcess.lookup processId =
      if processId = pid.get then
        if (keys.remove ⟨m.start, m.id⟩).entries = [] then none
        else some (keys.remove ⟨m.start, m.id⟩)
      else table.activeByProcess.lookup processId := by
  unfold ModuleTable.removeProcessActive
  rw [hpid]
  simp only [hkeys]
  by_cases hempty : (keys.remove ⟨m.start, m.id⟩).entries = []
  · rw [if_pos hempty, if_pos hempty]
    exact lookup_erase_eq _ _ _
  · rw [if_neg hempty, if_neg hempty]
    exact lookup_insert_eq _ _ _ _

theorem Keyed.removeProcessActive (h : Lists table active) (hkeyed : Keyed table active pid.get)
    (hm : m ∈ active) (hpid : m.pid = some pid) :
    Keyed (table.removeProcessActive m) (active.filter fun m' => m'.id ≠ m.id) pid.get := by
  have howned : Owned pid.get m := by
    unfold Owned
    rw [hpid]
    rfl
  obtain ⟨keys, hkeys, -⟩ := mem_startKeys.mp ((hkeyed.keys _).mpr ⟨m, hm, howned, rfl⟩)
  have hlookup := lookup_removeProcessActive table hpid hkeys pid.get
  rw [if_pos rfl] at hlookup
  constructor
  · intro key
    have hget : key ∈ (table.removeProcessActive m).startKeys pid.get ↔
        key ≠ ⟨m.start, m.id⟩ ∧ key ∈ table.startKeys pid.get := by
      rw [mem_startKeys, mem_startKeys, hlookup, hkeys]
      by_cases hempty : (keys.remove ⟨m.start, m.id⟩).entries = []
      · rw [if_pos hempty]
        simp only [reduceCtorEq, false_and, exists_false, Option.some_inj, exists_eq_left',
          false_iff, not_and]
        intro hne hkey
        have hremoved : (keys.remove ⟨m.start, m.id⟩).get key = some () := by
          rw [BTreeMap.get_remove, if_neg hne, hkey]
        have hmem := BTreeMap.get_eq_some.mp hremoved
        rw [hempty] at hmem
        cases hmem
      · rw [if_neg hempty]
        simp only [Option.some_inj, exists_eq_left', BTreeMap.get_remove]
        by_cases hkey : key = ⟨m.start, m.id⟩
        · simp [hkey]
        · simp [hkey]
    rw [hget, hkeyed.keys key]
    simp only [List.mem_filter, decide_eq_true_eq]
    constructor
    · rintro ⟨hne, m', hm', howned', rfl⟩
      refine ⟨m', ⟨hm', fun hid => hne ?_⟩, howned', rfl⟩
      rw [h.eq_of_id hm' hm hid]
    · rintro ⟨m', ⟨hm', hid⟩, howned', rfl⟩
      exact ⟨fun hkey => hid (congrArg StartKey.id hkey), m', hm', howned', rfl⟩
  · intro keys' hkeys'
    rw [hlookup] at hkeys'
    by_cases hempty : (keys.remove ⟨m.start, m.id⟩).entries = []
    · rw [if_pos hempty] at hkeys'
      cases hkeys'
    · rw [if_neg hempty] at hkeys'
      cases hkeys'
      exact hempty

theorem removeProcessActive_eq (table : ModuleTable) (m : ModuleRecord) : ∃ byProcess,
    table.removeProcessActive m = { table with activeByProcess := byProcess } := by
  unfold ModuleTable.removeProcessActive
  rcases m.pid with _ | pid
  · exact ⟨_, rfl⟩
  · simp only
    rcases table.activeByProcess.lookup pid.get with _ | keys
    · exact ⟨_, rfl⟩
    · simp only
      split
      · exact ⟨_, rfl⟩
      · exact ⟨_, rfl⟩

theorem Represents.forget (h : Represents table active) (hm : m ∈ active) (hpid : m.pid = some pid)
    (hdirty : pid.get ∈ table.dirtyProcesses) :
    Represents (table.forget m.id m) (active.filter fun m' => m'.id ≠ m.id) := by
  have howned : Owned pid.get m := by
    unfold Owned
    rw [hpid]
    rfl
  have hdrop := h.toLists.drop hm howned hdirty
  obtain ⟨keys, hkeys, -⟩ := mem_startKeys.mp
    (((h.keyed pid.get).keys _).mpr ⟨m, hm, howned, rfl⟩)
  show Represents ((drop table m.id m).removeProcessActive m) _
  refine ⟨?_, fun processId => ?_⟩
  · obtain ⟨byProcess, hremove⟩ := removeProcessActive_eq (drop table m.id m) m
    rw [hremove]
    exact hdrop.withProcesses byProcess
  by_cases hprocess : processId = pid.get
  · subst hprocess
    refine (Keyed.removeProcessActive h.toLists (h.keyed pid.get) hm hpid).congr ?_
    rw [lookup_removeProcessActive table hpid hkeys]
    exact lookup_removeProcessActive (drop table m.id m) hpid hkeys pid.get
  · have hother : ¬ Owned processId m := fun hown =>
      hprocess (Option.some.inj (hown.symm.trans howned))
    refine (Keyed.drop_other h.toLists (h.keyed processId) hm hother).congr ?_
    rw [lookup_removeProcessActive (drop table m.id m) hpid hkeys, if_neg hprocess]

end

theorem Represents.markDirty (h : Represents table active) (processId : Int32) :
    Represents (table.markDirty processId) active :=
  ⟨h.toLists.markDirty processId, fun p => ⟨(h.keyed p).keys, (h.keyed p).nonempty⟩⟩

/-- An id that is given to no active module. -/
theorem Represents.skipId (h : Represents table active) :
    Represents { table with nextId := table.nextId + 1 } active :=
  ⟨⟨h.sorted, fun m hm => Nat.lt_succ_of_lt (h.bound m hm), h.nonempty, h.apart, h.byId, h.byKey,
    h.found, h.foundKernel⟩, fun p => ⟨(h.keyed p).keys, (h.keyed p).nonempty⟩⟩

end StackPulse.ModuleRepresentation
