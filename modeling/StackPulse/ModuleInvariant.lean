import StackPulse.ModuleRuns
import StackPulse.Resolution

/-!
The invariant of the module table, in terms of its maps alone. The map by id is the
set of active modules; the other two maps follow from it, and the index finds the
covering module with the highest id. Every run keeps this, also behind calls that
fail.
-/
namespace StackPulse.ModuleInvariant

open Model FrameContexts Resolution Sessions Recall Modules ModuleSearch ModuleRepresentation
  ModuleChanges ModuleRuns StableSort

/-- The maps of a table agree. -/
structure Consistent (table : ModuleTable) : Prop where
  id : ∀ id m, table.active.lookup id = some m → m.id = id
  nonempty : ∀ id m, table.active.lookup id = some m → m.start.toNat < m.stop.toNat
  disjoint : ∀ id id' m m' pid, table.active.lookup id = some m →
    table.active.lookup id' = some m' → id ≠ id' → m.owner = .process pid →
      m'.owner = .process pid → Apart m m'
  byProcess : ∀ processId start id,
    (∃ keys, table.activeByProcess.lookup processId = some keys ∧
      keys.get ⟨start, id⟩ = some ()) ↔
        ∃ m, table.active.lookup id = some m ∧ Owned processId m ∧ m.start = start
  noEmptySet : ∀ processId keys, table.activeByProcess.lookup processId = some keys →
    keys.entries ≠ []
  byKey : ∀ key id, table.activeByKey.lookup key = some id ↔
    ∃ m, table.active.lookup id = some m ∧ identityOf m = key
  byKeyInjective : ∀ key key' id, table.activeByKey.lookup key = some id →
    table.activeByKey.lookup key' = some id → key = key'

/-- The active module of an owner around an address with the highest id. -/
structure HighestAround (table : ModuleTable) (owner : Option ModuleOwner) (address : UInt64)
    (m : ModuleRecord) : Prop where
  active : table.active.lookup m.id = some m
  owned : owner = some m.owner
  around : Around m address
  highest : ∀ id m', table.active.lookup id = some m' → owner = some m'.owner →
    Around m' address → id.toNat ≤ m.id.toNat

/-- A lookup rebuilds what is out of date in the index and then finds the highest module. -/
def Indexed (table : ModuleTable) : Prop :=
  ∃ table', table.rebuildIndexIfNeeded = .ok table' ∧ table'.active = table.active ∧
    ∀ processId mode address entry, table'.index.find processId address mode = some entry ↔
      ∃ m, HighestAround table (frameOwner processId mode) address m ∧
        entry = ModuleIndexEntry.of m

theorem find?_reverse_eq_some_iff {α : Type} {f : α → ℕ} {l : List α}
    (hsorted : l.Pairwise fun a b => f a < f b) {p : α → Bool} {a : α} :
    l.reverse.find? p = some a ↔ a ∈ l ∧ p a = true ∧ ∀ b ∈ l, p b = true → f b ≤ f a := by
  have hle : SortedBy f l := hsorted.imp Nat.le_of_lt
  refine ⟨find?_reverse_highest f hle, ?_⟩
  rintro ⟨ha, hp, hhighest⟩
  rcases hfind : l.reverse.find? p with _ | b
  · exact absurd hp (List.find?_eq_none.mp hfind a (List.mem_reverse.mpr ha))
  · obtain ⟨hb, hpb, hhighest'⟩ := find?_reverse_highest f hle hfind
    have hinj := List.inj_on_of_nodup_map ((List.pairwise_map.mpr hsorted).imp Nat.ne_of_lt)
    rw [hinj hb ha ((hhighest b hb hpb).antisymm (hhighest' a ha hp))]

section

variable {table : ModuleTable} {active : List ModuleRecord}

theorem consistent_of_represents (h : Represents table active) : Consistent table where
  id := fun id m hm => ((h.byId id m).mp hm).2
  nonempty := fun id m hm => h.nonempty m ((h.byId id m).mp hm).1
  disjoint := by
    intro id id' m m' pid hm hm' hne howner howner'
    obtain ⟨hmem, rfl⟩ := (h.byId id m).mp hm
    obtain ⟨hmem', rfl⟩ := (h.byId id' m').mp hm'
    exact h.apart_of_ne hmem hmem' (fun hsame => hne (congrArg _ hsame)) howner howner'
  byProcess := by
    intro processId start id
    rw [← mem_startKeys, (h.keyed processId).keys]
    constructor
    · rintro ⟨m, hm, howned, hkey⟩
      cases hkey
      exact ⟨m, (h.byId _ m).mpr ⟨hm, rfl⟩, howned, rfl⟩
    · rintro ⟨m, hm, howned, rfl⟩
      obtain ⟨hmem, rfl⟩ := (h.byId id m).mp hm
      exact ⟨m, hmem, howned, rfl⟩
  noEmptySet := fun processId => (h.keyed processId).nonempty
  byKey := by
    intro key id
    rw [h.byKey]
    constructor
    · rintro ⟨m, hm, hkey, hid⟩
      exact ⟨m, (h.byId id m).mpr ⟨hm, hid⟩, hkey⟩
    · rintro ⟨m, hm, hkey⟩
      obtain ⟨hm, hid⟩ := (h.byId id m).mp hm
      exact ⟨m, hm, hkey, hid⟩
  byKeyInjective := by
    intro key key' id hkey hkey'
    obtain ⟨m, hm, rfl, hid⟩ := (h.byKey key id).mp hkey
    obtain ⟨m', hm', rfl, hid'⟩ := (h.byKey key' id).mp hkey'
    rw [h.eq_of_id hm hm' (hid.trans hid'.symm)]

theorem newestAround_eq_some_iff (h : Lists table active) {owner : Option ModuleOwner}
    {address : UInt64} {m : ModuleRecord} :
    newestAround active owner address = some m ↔ HighestAround table owner address m := by
  unfold newestAround
  rw [find?_reverse_eq_some_iff h.sorted]
  simp only [decide_eq_true_eq]
  constructor
  · rintro ⟨hm, ⟨howner, haround⟩, hhighest⟩
    refine ⟨(h.byId m.id m).mpr ⟨hm, rfl⟩, howner, haround, fun id m' hm' howner' haround' => ?_⟩
    obtain ⟨hmem', rfl⟩ := (h.byId id m').mp hm'
    exact hhighest m' hmem' ⟨howner', haround'⟩
  · rintro ⟨hm, howner, haround, hhighest⟩
    refine ⟨((h.byId _ m).mp hm).1, ⟨howner, haround⟩, fun m' hm' hother => ?_⟩
    exact hhighest m'.id m' ((h.byId _ m').mpr ⟨hm', rfl⟩) hother.1 hother.2

theorem indexed_of_represents (h : Represents table active) : Indexed table := by
  obtain ⟨table', hrebuild, hrebuilt, htable⟩ := h.rebuildIndexIfNeeded
  have hclean : table'.dirtyProcesses = [] := congrArg ModuleTable.dirtyProcesses hrebuilt.same
  have hkernel : table'.kernelIndexDirty = false :=
    congrArg ModuleTable.kernelIndexDirty hrebuilt.same
  refine ⟨table', hrebuild, by rw [hrebuilt.same], fun processId mode address entry => ?_⟩
  rw [find_represents htable hclean hkernel, Option.map_eq_some_iff]
  refine exists_congr fun m => ?_
  rw [newestAround_eq_some_iff h.toLists, eq_comm]

end

/-- With a writer that never fails, every run keeps the invariant, writes the ids from zero on
and meets no inconsistent index. -/
theorem module_table_invariant {σ : Type} (write : Op → σ → Except Stop Unit × σ)
    (hwrite : NeverFails write) (writer : σ) (calls : List TableCall) :
    Consistent (performAll write calls ⟨.default, writer⟩).2.table ∧
      Indexed (performAll write calls ⟨.default, writer⟩).2.table ∧
      (∃ log, (performAll write calls ⟨.default, writer⟩).2.writer = feed write writer log ∧
        (log.filterMap writtenModule).map (·.id.toNat) =
          List.range (performAll write calls ⟨.default, writer⟩).2.table.nextId) ∧
      .error (invalidData "active process module index was inconsistent") ∉
        (performAll write calls ⟨.default, writer⟩).1 := by
  obtain ⟨⟨log, hs⟩, houtcomes⟩ := performAll_recorded (recorded_default writer) calls
  rw [List.nil_append] at hs
  refine ⟨consistent_of_represents hs.table, indexed_of_represents hs.table,
    ⟨log, hs.written hwrite, hs.ids⟩, fun hmem => ?_⟩
  obtain ⟨call, -, hfailure⟩ := ModuleApplication.exists_of_forall₂_right houtcomes hmem
  rcases hfailure _ rfl with (hexhausted | hfails) | ⟨_, _, _, _, hinvalid⟩
  · cases hexhausted
  · exact hfails hwrite
  · cases hinvalid

/-- A mapping, one in its middle, a child that takes both over and the end of the parent. -/
def forkedCalls : List TableCall :=
  [.applyModule mappedModule,
    .applyModule { mappedModule with start := 5000, stop := 6000 },
    .cloneProcessModules 1 2, .deactivateProcessModules 1]

theorem module_table_invariant_forked :
    Consistent (performAll keepCalls forkedCalls ⟨.default, []⟩).2.table ∧
      Indexed (performAll keepCalls forkedCalls ⟨.default, []⟩).2.table ∧
      (∃ log, (performAll keepCalls forkedCalls ⟨.default, []⟩).2.writer =
          feed keepCalls [] log ∧
        (log.filterMap writtenModule).map (·.id.toNat) =
          List.range (performAll keepCalls forkedCalls ⟨.default, []⟩).2.table.nextId) ∧
      .error (invalidData "active process module index was inconsistent") ∉
        (performAll keepCalls forkedCalls ⟨.default, []⟩).1 :=
  module_table_invariant keepCalls (fun _ _ => rfl) [] forkedCalls

end StackPulse.ModuleInvariant
