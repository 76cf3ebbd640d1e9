import StackPulse.ModuleRebuild

/-!
The parts of a module that a replacement leaves, and the modules that a
replacement meets. A part translates addresses as its module does as long as its
file offset is not cut off at the largest 64-bit number. The modules of a process
are disjoint, so besides those that start inside the replacement only the last one
that starts before it can reach into it.
-/
namespace StackPulse.ModuleParts

open Model Words Modules ModuleSearch ModuleRepresentation

variable {m part : ModuleRecord}

/-- The second module is a part of the first one. -/
structure Part (old part : ModuleRecord) : Prop where
  owner : part.owner = old.owner
  start_le : old.start.toNat ≤ part.start.toNat
  stop_le : part.stop.toNat ≤ old.stop.toNat
  fileOffset : part.fileOffset.toNat =
    min (old.fileOffset.toNat + (part.start.toNat - old.start.toNat)) (2 ^ 64 - 1)
  inode : part.inode = old.inode
  deviceMajor : part.deviceMajor = old.deviceMajor
  deviceMinor : part.deviceMinor = old.deviceMinor
  inodeGeneration : part.inodeGeneration = old.inodeGeneration
  path : part.path = old.path
  jitSymbols : part.jitSymbols = old.jitSymbols

theorem Part.refl (m : ModuleRecord) : Part m m := by
  have hlt := m.fileOffset.toNat_lt
  exact ⟨rfl, le_rfl, le_rfl, by omega, rfl, rfl, rfl, rfl, rfl, rfl⟩

theorem Part.trans {old piece : ModuleRecord} (h : Part old part) (h' : Part part piece) :
    Part old piece := by
  have hstart := h.start_le
  have hstart' := h'.start_le
  have hoffset := h.fileOffset
  have hoffset' := h'.fileOffset
  exact ⟨h'.owner.trans h.owner, hstart.trans hstart', h'.stop_le.trans h.stop_le, by omega,
    h'.inode.trans h.inode, h'.deviceMajor.trans h.deviceMajor,
    h'.deviceMinor.trans h.deviceMinor, h'.inodeGeneration.trans h.inodeGeneration,
    h'.path.trans h.path, h'.jitSymbols.trans h.jitSymbols⟩

/-- The id is no part of it. -/
theorem Part.withId {old : ModuleRecord} (h : Part old part) (id : UInt32) :
    Part old { part with id := id } :=
  ⟨h.owner, h.start_le, h.stop_le, h.fileOffset, h.inode, h.deviceMajor, h.deviceMinor,
    h.inodeGeneration, h.path, h.jitSymbols⟩

theorem overlap_iff {left right : ModuleRecord} : moduleRangesOverlap left right = true ↔
    left.start.toNat < right.stop.toNat ∧ right.start.toNat < left.stop.toNat := by
  unfold moduleRangesOverlap
  rw [Bool.and_eq_true, decide_eq_true_eq, decide_eq_true_eq]
  rfl

theorem toNat_min (a b : UInt64) : (min a b).toNat = min a.toNat b.toNat := by
  show (if a ≤ b then a else b).toNat = _
  by_cases h : a ≤ b
  · have hle : a.toNat ≤ b.toNat := h
    rw [if_pos h]
    omega
  · have hle : ¬ a.toNat ≤ b.toNat := h
    rw [if_neg h]
    omega

theorem toNat_max (a b : UInt64) : (max a b).toNat = max a.toNat b.toNat := by
  show (if a ≤ b then b else a).toNat = _
  by_cases h : a ≤ b
  · have hle : a.toNat ≤ b.toNat := h
    rw [if_pos h]
    omega
  · have hle : ¬ a.toNat ≤ b.toNat := h
    rw [if_neg h]
    omega

/-- What a replacement leaves of a module on one side. -/
structure Leaves (old replacement part : ModuleRecord) : Prop where
  isPart : Part old part
  nonempty : part.start.toNat < part.stop.toNat
  apart : Apart part replacement
  start : part.start = old.start ∨ part.start = replacement.stop

section

variable {old replacement : ModuleRecord}

theorem leaves_left (hmeet : replacement.start.toNat < old.stop.toNat)
    (hlt : old.start.toNat < replacement.start.toNat) :
    Leaves old replacement { old with id := 0, stop := min replacement.start old.stop } := by
  have hoffset := old.fileOffset.toNat_lt
  refine ⟨⟨rfl, le_rfl, ?_, ?_, rfl, rfl, rfl, rfl, rfl, rfl⟩, ?_, .inl ?_, .inl rfl⟩
  · show (min replacement.start old.stop).toNat ≤ _
    rw [toNat_min]
    omega
  · show old.fileOffset.toNat =
      min (old.fileOffset.toNat + (old.start.toNat - old.start.toNat)) (2 ^ 64 - 1)
    omega
  · show old.start.toNat < (min replacement.start old.stop).toNat
    rw [toNat_min]
    omega
  · show (min replacement.start old.stop).toNat ≤ _
    rw [toNat_min]
    omega

theorem leaves_right (hmeet : old.start.toNat < replacement.stop.toNat)
    (hlt : replacement.stop.toNat < old.stop.toNat) :
    Leaves old replacement { old with
      id := 0
      start := max replacement.stop old.start
      fileOffset := saturatingAdd old.fileOffset
        (max replacement.stop old.start - old.start) } := by
  have hmax : max replacement.stop old.start = replacement.stop := by
    apply UInt64.toNat_inj.mp
    rw [toNat_max]
    omega
  have hsub : (replacement.stop - old.start).toNat = replacement.stop.toNat - old.start.toNat :=
    UInt64.toNat_sub_of_le _ _ hmeet.le
  rw [hmax]
  refine ⟨⟨rfl, hmeet.le, le_rfl, ?_, rfl, rfl, rfl, rfl, rfl, rfl⟩, hlt,
    Or.inr le_rfl, .inr rfl⟩
  show (saturatingAdd old.fileOffset (replacement.stop - old.start)).toNat = _
  rw [toNat_saturatingAdd, hsub]

variable (hmeet : moduleRangesOverlap old replacement = true)

include hmeet

theorem leaves_of_split (h : part ∈ splitModuleAround old replacement) :
    Leaves old replacement part := by
  obtain ⟨hleft, hright⟩ := overlap_iff.mp hmeet
  rcases List.mem_append.mp h with hin | hin
  · obtain ⟨hlt, hpart⟩ := List.mem_ite_nil_right.mp hin
    rw [List.mem_singleton.mp hpart]
    exact leaves_left hright hlt
  · obtain ⟨hlt, hpart⟩ := List.mem_ite_nil_right.mp hin
    rw [List.mem_singleton.mp hpart]
    exact leaves_right hleft hlt

theorem split_apart (hnew : replacement.start.toNat < replacement.stop.toNat) :
    (splitModuleAround old replacement).Pairwise Apart := by
  obtain ⟨hleft, hright⟩ := overlap_iff.mp hmeet
  unfold splitModuleAround
  by_cases hlt : old.start < replacement.start
  · by_cases hlt' : replacement.stop < old.stop
    · simp only [if_pos hlt, if_pos hlt', List.singleton_append]
      refine List.pairwise_cons.mpr ⟨fun part hpart => .inl ?_, List.pairwise_singleton _ _⟩
      rw [List.mem_singleton.mp hpart]
      show (min replacement.start old.stop).toNat ≤ (max replacement.stop old.start).toNat
      rw [toNat_min, toNat_max]
      omega
    · simp only [if_pos hlt, if_neg hlt', List.append_nil]
      exact List.pairwise_singleton _ _
  · by_cases hlt' : replacement.stop < old.stop
    · simp only [if_neg hlt, if_pos hlt', List.nil_append]
      exact List.pairwise_singleton _ _
    · simp only [if_neg hlt, if_neg hlt', List.nil_append]
      exact .nil

/-- No address outside the replacement is lost. -/
theorem split_around {address : UInt64} (h : Around old address)
    (hout : ¬ Around replacement address) :
    ∃ part ∈ splitModuleAround old replacement, Around part address := by
  obtain ⟨hleft, hright⟩ := overlap_iff.mp hmeet
  obtain ⟨hstart, hstop⟩ := h
  rcases Nat.lt_or_ge address.toNat replacement.start.toNat with hbefore | hbehind
  · have hlt : old.start < replacement.start := by
      show old.start.toNat < replacement.start.toNat
      omega
    refine ⟨{ old with id := 0, stop := min replacement.start old.stop },
      List.mem_append_left _ (by rw [if_pos hlt]; exact List.mem_singleton_self _), hstart, ?_⟩
    show address.toNat < (min replacement.start old.stop).toNat
    rw [toNat_min]
    omega
  · have hge : replacement.stop.toNat ≤ address.toNat := by
      by_contra hlt
      exact hout ⟨hbehind, by omega⟩
    have hlt : replacement.stop < old.stop := by
      show replacement.stop.toNat < old.stop.toNat
      omega
    refine ⟨{ old with
        id := 0
        start := max replacement.stop old.start
        fileOffset := saturatingAdd old.fileOffset (max replacement.stop old.start - old.start) },
      List.mem_append_right _ (by rw [if_pos hlt]; exact List.mem_singleton_self _), ?_, hstop⟩
    show (max replacement.stop old.start).toNat ≤ address.toNat
    rw [toNat_max]
    omega

end

section

variable {table : ModuleTable} {active modules : List ModuleRecord} {replacement : ModuleRecord}

theorem retainActive_ok (h : Lists table active) (p : ModuleRecord → Bool)
    (hmodules : ∀ m ∈ modules, m ∈ active) :
    table.retainActive p (modules.map (·.id)) = .ok ((modules.filter p).map (·.id)) := by
  induction modules with
  | nil => rfl
  | cons m modules ih =>
    rw [List.map_cons, ModuleTable.retainActive,
      h.activeModule_ok (hmodules m (.head _)),
      ih fun m' hm' => hmodules m' (List.mem_cons_of_mem m hm'), List.filter_cons]
    show Except.ok (if p m then m.id :: _ else _) = _
    cases p m <;> rfl

theorem survivors_ok (h : Lists table active) (replacement : ModuleRecord)
    (hmodules : ∀ m ∈ modules, m ∈ active) :
    table.survivors replacement (modules.map (·.id)) = .ok (modules.flatMap fun m =>
      (splitModuleAround m replacement).map fun part => (m.id, part)) := by
  induction modules with
  | nil => rfl
  | cons m modules ih =>
    rw [List.map_cons, ModuleTable.survivors, h.activeModule_ok (hmodules m (.head _)),
      ih fun m' hm' => hmodules m' (List.mem_cons_of_mem m hm')]
    rfl

theorem startKeys_sorted (table : ModuleTable) (processId : Int32) :
    (table.startKeys processId).Pairwise (· < ·) := by
  unfold ModuleTable.startKeys
  rcases table.activeByProcess.lookup processId with _ | keys
  · exact .nil
  · exact List.pairwise_map.mpr keys.sorted

theorem start_le_of_lt {key key' : StartKey} (h : key < key') :
    key.start.toNat ≤ key'.start.toNat := by
  have hnats : key.toNats < key'.toNats := h
  rcases Prod.Lex.toLex_lt_toLex.mp hnats with hlt | heq
  · exact hlt.le
  · exact heq.1.le

/-- The modules of a process in the order of their starts. -/
theorem exists_ordered (h : Represents table active) (processId : Int32) :
    ∃ modules : List ModuleRecord,
      table.startKeys processId = modules.map (fun m => ⟨m.start, m.id⟩) ∧
      modules.Pairwise (fun m m' => m.stop.toNat ≤ m'.start.toNat) ∧
      ∀ m, m ∈ modules ↔ m ∈ active ∧ Owned processId m := by
  have hexists : ∀ keys : List StartKey, (∀ key ∈ keys, key ∈ table.startKeys processId) →
      ∃ modules : List ModuleRecord, keys = modules.map (fun m => ⟨m.start, m.id⟩) ∧
        ∀ m ∈ modules, m ∈ active ∧ Owned processId m := by
    intro keys hkeys
    induction keys with
    | nil => exact ⟨[], rfl, by simp⟩
    | cons key keys ih =>
      obtain ⟨m, hm, howned, rfl⟩ := ((h.keyed processId).keys key).mp (hkeys key (.head _))
      obtain ⟨modules, rfl, hmodules⟩ := ih fun key hkey => hkeys key (.tail _ hkey)
      exact ⟨m :: modules, rfl, List.forall_mem_cons.mpr ⟨⟨hm, howned⟩, hmodules⟩⟩
  obtain ⟨modules, hkeys, hmodules⟩ := hexists _ fun _ hkey => hkey
  refine ⟨modules, hkeys, ?_, fun m => ⟨hmodules m, fun hm => ?_⟩⟩
  · have hsorted := startKeys_sorted table processId
    rw [hkeys, List.pairwise_map] at hsorted
    refine hsorted.imp_of_mem fun {m m'} hm hm' hlt => ?_
    have hstart : m.start.toNat ≤ m'.start.toNat := start_le_of_lt hlt
    have hnonempty := h.nonempty m' (hmodules m' hm').1
    have hne : m ≠ m' := by
      rintro rfl
      exact lt_irrefl _ hlt
    obtain ⟨pid, hpid⟩ := Option.map_eq_some_iff.mp (hmodules m hm).2
    have howner : m.owner = .process pid := owned_process.mp (hpid.2 ▸ (hmodules m hm).2)
    have howner' : m'.owner = .process pid := owned_process.mp (hpid.2 ▸ (hmodules m' hm').2)
    rcases h.apart_of_ne (hmodules m hm).1 (hmodules m' hm').1 hne howner howner' with hle | hle
    · exact hle
    · omega
  · have hkey := ((h.keyed processId).keys ⟨m.start, m.id⟩).mpr ⟨m, hm.1, hm.2, rfl⟩
    rw [hkeys, List.mem_map] at hkey
    obtain ⟨m', hm', hsame⟩ := hkey
    rwa [h.eq_of_id hm.1 (hmodules m' hm').1 (congrArg StartKey.id hsame).symm]

/-- The last of the ordered modules that starts no later reaches into the replacement, or no
earlier one does. -/
theorem last_before {limit : UInt64}
    (hordered : modules.Pairwise fun m m' => m.stop.toNat ≤ m'.start.toNat) :
    ∀ m ∈ modules, m.start.toNat ≤ limit.toNat → limit.toNat < m.stop.toNat →
      modules.reverse.find? (fun m => decide (m.start ≤ limit)) = some m := by
  intro m hm hle hlt
  obtain ⟨before, behind, rfl⟩ := List.append_of_mem hm
  have hbehind : ∀ m' ∈ behind.reverse, ¬ decide (m'.start ≤ limit) = true := by
    intro m' hm' hstart
    have hstart : m'.start.toNat ≤ limit.toNat := of_decide_eq_true hstart
    have hfollows := (List.pairwise_cons.mp (List.pairwise_append.mp hordered).2.1).1 m'
      (List.mem_reverse.mp hm')
    omega
  rw [List.reverse_append, List.reverse_cons, List.append_assoc, List.find?_append,
    List.find?_eq_none.mpr hbehind]
  have hstart : decide (m.start ≤ limit) = true := decide_eq_true hle
  simp only [List.singleton_append, List.find?_cons, hstart, Option.none_or]

theorem mem_takeWhile_of_ordered {α : Type} {p : α → Bool} {r : α → α → Prop} {l : List α}
    (hordered : l.Pairwise r) (hp : ∀ a b, r a b → p b = true → p a = true) {a : α} (ha : a ∈ l)
    (hpa : p a = true) : a ∈ l.takeWhile p := by
  induction l with
  | nil => cases ha
  | cons b l ih =>
    obtain ⟨hfirst, hrest⟩ := List.pairwise_cons.mp hordered
    have hpb : p b = true := by
      rcases List.mem_cons.mp ha with rfl | ha
      · exact hpa
      · exact hp b a (hfirst a ha) hpa
    rw [List.takeWhile_cons_of_pos hpb]
    rcases List.mem_cons.mp ha with rfl | ha
    · exact .head _
    · exact .tail _ (ih hrest ha)

/-- The predecessor of a replacement if it reaches into it. -/
def reachingIn (modules : List ModuleRecord) (replacement : ModuleRecord) : List ModuleRecord :=
  ((modules.reverse.find? fun m => decide (m.start ≤ replacement.start)).filter
    fun m => decide (replacement.start < m.stop)).toList

/-- The modules that start inside a replacement. -/
def startingIn (modules : List ModuleRecord) (replacement : ModuleRecord) : List ModuleRecord :=
  (modules.filter fun m => replacement.start < m.start).takeWhile
    fun m => m.start < replacement.stop

theorem overlappingModuleIds_eq (h : Lists table active) {processId : Int32}
    (hkeys : table.startKeys processId = modules.map (fun m => ⟨m.start, m.id⟩))
    (hmodules : ∀ m ∈ modules, m ∈ active) (replacement : ModuleRecord) :
    table.overlappingModuleIds processId replacement = .ok
      ((reachingIn modules replacement ++ startingIn modules replacement).map (·.id)) := by
  unfold ModuleTable.overlappingModuleIds reachingIn startingIn
  simp only [hkeys, ← List.map_reverse, List.find?_map, List.filter_map, List.takeWhile_map,
    List.map_append, List.map_map, Function.comp_def]
  rcases hfound : modules.reverse.find? (fun m => decide (m.start ≤ replacement.start)) with _ | m
  · simp only [hfound]
    rfl
  · have hm : m ∈ active := hmodules m (List.mem_reverse.mp (List.mem_of_find?_eq_some hfound))
    simp only [hfound, Option.map_some, h.activeModule_ok hm]
    by_cases hreach : replacement.start < m.stop
    · simp only [Option.filter, hreach, decide_true, if_true, Option.toList_some, bind,
        Except.bind, pure, Except.pure, List.map_cons, List.map_nil]
    · simp only [Option.filter, hreach, decide_false, if_false, Option.toList_none, bind,
        Except.bind, pure, Except.pure, List.map_nil, Bool.false_eq_true]

theorem mem_reachingIn (h : m ∈ reachingIn modules replacement) :
    m ∈ modules ∧ m.start.toNat ≤ replacement.start.toNat := by
  obtain ⟨hfound, -⟩ := Option.filter_eq_some_iff.mp (Option.mem_toList.mp h)
  have hstart := List.find?_some hfound
  exact ⟨List.mem_reverse.mp (List.mem_of_find?_eq_some hfound), of_decide_eq_true hstart⟩

theorem mem_startingIn (h : m ∈ startingIn modules replacement) :
    m ∈ modules ∧ replacement.start.toNat < m.start.toNat := by
  have hmem := List.mem_filter.mp ((List.takeWhile_prefix _).subset h)
  exact ⟨hmem.1, of_decide_eq_true hmem.2⟩

/-- A replacement meets no other module. -/
theorem mem_of_overlap (hordered : modules.Pairwise fun m m' => m.stop.toNat ≤ m'.start.toNat)
    (hnonempty : ∀ m ∈ modules, m.start.toNat < m.stop.toNat) (hm : m ∈ modules)
    (hmeet : moduleRangesOverlap m replacement = true) :
    m ∈ reachingIn modules replacement ++ startingIn modules replacement := by
  obtain ⟨hleft, hright⟩ := overlap_iff.mp hmeet
  rcases Nat.lt_or_ge replacement.start.toNat m.start.toNat with hlt | hle
  · have hstarts : (modules.filter fun m => replacement.start < m.start).Pairwise
        fun m m' => m.start.toNat ≤ m'.start.toNat :=
      (hordered.imp_of_mem fun {m _} hm _ hle => (hnonempty m hm).le.trans hle).filter _
    refine List.mem_append_right _ (mem_takeWhile_of_ordered hstarts ?_
      (List.mem_filter.mpr ⟨hm, decide_eq_true hlt⟩) (decide_eq_true hleft))
    intro m m' hle hstart
    exact decide_eq_true (Nat.lt_of_le_of_lt hle (of_decide_eq_true hstart))
  · refine List.mem_append_left _ ?_
    unfold reachingIn
    have hreach : decide (replacement.start < m.stop) = true := decide_eq_true hright
    rw [last_before hordered m hm hle hright, Option.filter_some, if_pos hreach]
    exact List.mem_singleton_self _

/-- The ids of the modules of the process that overlap a module, in the order of their starts. -/
theorem overlapping_ok (h : Represents table active) (processId : Int32)
    (replacement : ModuleRecord) :
    ∃ met : List ModuleRecord,
      (table.overlappingModuleIds processId replacement >>=
        table.retainActive fun known => moduleRangesOverlap known replacement) =
          .ok (met.map (·.id)) ∧
      met.Pairwise (fun m m' => m.stop.toNat ≤ m'.start.toNat) ∧
      ∀ m, m ∈ met ↔ m ∈ active ∧ Owned processId m ∧ moduleRangesOverlap m replacement = true := by
  obtain ⟨modules, hkeys, hordered, hmodules⟩ := exists_ordered h processId
  have hactive : ∀ m ∈ modules, m ∈ active := fun m hm => ((hmodules m).mp hm).1
  have hnonempty : ∀ m ∈ modules, m.start.toNat < m.stop.toNat := fun m hm =>
    h.nonempty m (hactive m hm)
  have hmem : ∀ m ∈ reachingIn modules replacement ++ startingIn modules replacement,
      m ∈ modules := fun m hm => (List.mem_append.mp hm).elim
    (fun hm => (mem_reachingIn hm).1) (fun hm => (mem_startingIn hm).1)
  refine ⟨(reachingIn modules replacement ++ startingIn modules replacement).filter
    fun m => moduleRangesOverlap m replacement, ?_, ?_, ?_⟩
  · rw [overlappingModuleIds_eq h.toLists hkeys hactive]
    exact retainActive_ok h.toLists _ fun m hm => hactive m (hmem m hm)
  · refine List.Pairwise.filter _ (List.pairwise_append.mpr ⟨?_, ?_, ?_⟩)
    · unfold reachingIn
      rcases Option.filter _ _ with _ | m
      · exact .nil
      · exact List.pairwise_singleton _ _
    · exact (hordered.filter _).sublist (List.takeWhile_prefix _).sublist
    · intro m hm m' hm'
      obtain ⟨hm, hle⟩ := mem_reachingIn hm
      obtain ⟨hm', hlt⟩ := mem_startingIn hm'
      have hapart : modules.Pairwise Apart := hordered.imp fun hle => .inl hle
      have : Std.Symm Apart := ⟨fun _ _ => Apart.symm⟩
      have hne : m ≠ m' := by
        rintro rfl
        omega
      have hnonempty' := hnonempty m' hm'
      rcases hapart.forall hm hm' hne with hle' | hle'
      · exact hle'
      · omega
  · intro m
    rw [List.mem_filter]
    constructor
    · rintro ⟨hm, hmeet⟩
      obtain ⟨hactive, howned⟩ := (hmodules m).mp (hmem m hm)
      exact ⟨hactive, howned, hmeet⟩
    · rintro ⟨hm, howned, hmeet⟩
      exact ⟨mem_of_overlap hordered hnonempty ((hmodules m).mpr ⟨hm, howned⟩) hmeet, hmeet⟩

theorem nodup_ids (h : Lists table active) (hmodules : ∀ m ∈ modules, m ∈ active)
    (hordered : modules.Pairwise fun m m' => m.stop.toNat ≤ m'.start.toNat) :
    (modules.map (·.id)).Nodup := by
  refine List.pairwise_map.mpr (hordered.imp_of_mem fun {m m'} hm hm' hle hid => ?_)
  rw [h.eq_of_id (hmodules m hm) (hmodules m' hm') hid] at hle
  exact absurd (h.nonempty m' (hmodules m' hm')) (Nat.not_lt.mpr hle)

end

end StackPulse.ModuleParts
