import StackPulse.ModuleApplication

/-!
The end of a process and its start. A process that ends loses all its modules. A
child takes the modules of its parent over, one after another in the order of their
starts: each is applied to the child as a mapping of its own. For a child without
modules the table leaves out the search for overlaps, since there are none.
-/
namespace StackPulse.ModuleInheritance

open Model FrameContexts Sessions Recall Attempts Modules ModuleRepresentation ModuleParts
  ModuleChanges ModuleApplication

variable {active active' : List ModuleRecord} {u : ModuleUpdate} {m : ModuleRecord}
  {processId : Int32} {table : ModuleTable}

/-- A process without modules has no set of them. -/
theorem lookup_eq_none_iff (h : Keyed table active processId) :
    table.activeByProcess.lookup processId = none ↔ ∀ m ∈ active, ¬ Owned processId m := by
  constructor
  · intro hnone m hm howned
    obtain ⟨keys, hkeys, -⟩ := mem_startKeys.mp ((h.keys _).mpr ⟨m, hm, howned, rfl⟩)
    rw [hnone] at hkeys
    cases hkeys
  · intro hother
    apply Option.eq_none_iff_forall_ne_some.mpr
    intro keys hkeys
    obtain ⟨entry, hentry⟩ := List.exists_mem_of_ne_nil _ (h.nonempty keys hkeys)
    obtain ⟨m, hm, howned, -⟩ := (h.keys entry.1).mp
      (mem_startKeys.mpr ⟨keys, hkeys, OrderedMap.BTreeMap.get_eq_some.mpr hentry⟩)
    exact hother m hm howned

/-- Only processes have modules. -/
theorem pos_of_keys (h : Keyed table active processId) {keys : StartSet}
    (hkeys : table.activeByProcess.lookup processId = some keys) : 0 < processId := by
  by_contra hpos
  have hnone : table.activeByProcess.lookup processId = none := by
    refine (lookup_eq_none_iff h).mpr fun m _ howned => hpos ?_
    obtain ⟨pid, -, rfl⟩ := Option.map_eq_some_iff.mp howned
    exact pid.pos
  rw [hnone] at hkeys
  cases hkeys

section

variable {σ : Type} {write : Op → σ → Except Stop Unit × σ} {writer : σ} {log : List Op}
  {s : Recorder σ}

theorem removeAll_ok {modules : List ModuleRecord} (h : Lists s.table active)
    (hkeyed : ∀ p ≠ processId, Keyed s.table active p)
    (hmodules : ∀ m ∈ modules, m ∈ active ∧ Owned processId m) (hnodup : (modules.map (·.id)).Nodup)
    (hdirty : processId ∈ s.table.dirtyProcesses) :
    ∃ table, removeAll (modules.map (·.id)) s = (.ok (), { s with table := table }) ∧
      Lists table (active.filter fun m => m.id ∉ modules.map (·.id)) ∧
      (∀ p ≠ processId, Keyed table (active.filter fun m => m.id ∉ modules.map (·.id)) p) ∧
      table.activeByProcess = s.table.activeByProcess ∧ table.nextId = s.table.nextId := by
  induction modules generalizing s active with
  | nil =>
    have hall : (active.filter fun m => m.id ∉ ([] : List ModuleRecord).map (·.id)) = active :=
      List.filter_eq_self.mpr fun m _ => by simp
    rw [hall]
    exact ⟨s.table, rfl, h, hkeyed, rfl, rfl⟩
  | cons m modules ih =>
    obtain ⟨hm, howned⟩ := hmodules m (.head _)
    obtain ⟨hfirst, hrest⟩ := List.nodup_cons.mp hnodup
    have hother : ∀ p ≠ processId, ¬ Owned p m := fun p hne hp =>
      hne (Option.some.inj (hp.symm.trans howned))
    obtain ⟨table, hrun, hlists, hkeyed', hsame, hnext⟩ :=
      ih (s := { s with table := drop s.table m.id m }) (h.drop hm howned hdirty)
        (fun p hne => Keyed.drop_other h (hkeyed p hne) hm (hother p hne))
        (fun m' hm' => by
          obtain ⟨hactive, howned'⟩ := hmodules m' (List.mem_cons_of_mem m hm')
          refine ⟨List.mem_filter.mpr ⟨hactive, decide_eq_true fun hid => hfirst ?_⟩, howned'⟩
          show m.id ∈ modules.map (·.id)
          rw [← hid]
          exact List.mem_map_of_mem hm')
        hrest hdirty
    have hfilter : (active.filter fun m' => m'.id ≠ m.id).filter
        (fun m' => m'.id ∉ modules.map (·.id)) =
          active.filter fun m' => m'.id ∉ (m :: modules).map (·.id) := by
      rw [List.filter_filter]
      refine List.filter_congr fun m' _ => ?_
      simp only [List.map_cons, List.mem_cons, not_or, Bool.decide_and, Bool.and_comm]
    rw [hfilter] at hlists hkeyed'
    refine ⟨table, ?_, hlists, hkeyed', hsame, hnext⟩
    rw [List.map_cons, removeAll, bind_askOk, (h.byId m.id m).mpr ⟨hm, rfl⟩]
    simp only
    rw [bind_change]
    exact hrun

theorem activeAfter_deactivation (active : List ModuleRecord) (processId : Int32) :
    activeAfter active (.writeModuleDeactivation processId) =
      active.filter fun m => ¬ Owned processId m := by
  refine List.filter_congr fun m _ => ?_
  rw [Bool.eq_iff_iff, decide_eq_true_eq, Owned]
  rcases m.pid with _ | pid <;> simp

/-- The table of a process that is about to lose its modules. -/
def closing (table : ModuleTable) (processId : Int32) : ModuleTable :=
  ({ table with activeByProcess := table.activeByProcess.erase processId } :
    ModuleTable).markDirty processId

theorem removeAll_closing {modules : List ModuleRecord} (h : Represents table active)
    (hmodules : ∀ m, m ∈ modules ↔ m ∈ active ∧ Owned processId m)
    (hnodup : (modules.map (·.id)).Nodup) (w : σ) :
    ∃ table', removeAll (modules.map (·.id)) ⟨closing table processId, w⟩ =
        (.ok (), ⟨table', w⟩) ∧
      Represents table' (active.filter fun m => ¬ Owned processId m) ∧
      table'.nextId = table.nextId := by
  have hothers : ∀ p ≠ processId, Keyed (closing table processId) active p := fun p hne =>
    (h.keyed p).congr (AList.lookup_erase_ne hne)
  obtain ⟨table', hrun, hlists, hkeyed, hsame, hnext⟩ := removeAll_ok
    (s := ⟨closing table processId, w⟩)
    ((h.toLists.withProcesses (table.activeByProcess.erase processId)).markDirty processId)
    hothers (fun m hm => (hmodules m).mp hm) hnodup List.mem_insert_self
  have hfilter : (active.filter fun m => m.id ∉ modules.map (·.id)) =
      active.filter fun m => ¬ Owned processId m := by
    refine List.filter_congr fun m hm => ?_
    rw [Bool.eq_iff_iff, decide_eq_true_eq, decide_eq_true_eq, List.mem_map]
    refine not_congr ⟨?_, fun howned => ⟨m, (hmodules m).mpr ⟨hm, howned⟩, rfl⟩⟩
    rintro ⟨m', hm', hid⟩
    rw [← h.eq_of_id ((hmodules m').mp hm').1 hm hid]
    exact ((hmodules m').mp hm').2
  rw [hfilter] at hlists hkeyed
  refine ⟨table', hrun, ⟨hlists, fun p => ?_⟩, hnext⟩
  by_cases hne : p = processId
  · subst hne
    have hnone : table'.activeByProcess.lookup p = none := by
      rw [hsame]
      exact AList.lookup_erase _ _
    refine ⟨fun key => ⟨fun hkey => ?_, ?_⟩, fun keys hkeys => ?_⟩
    · obtain ⟨keys, hkeys, -⟩ := mem_startKeys.mp hkey
      rw [hnone] at hkeys
      cases hkeys
    · rintro ⟨m, hm, howned, -⟩
      exact absurd howned (of_decide_eq_true (List.mem_filter.mp hm).2)
    · rw [hnone] at hkeys
      cases hkeys
  · exact hkeyed p hne

theorem deactivateProcessModules_ran (hs : Recorded write writer log s) (processId : Int32) :
    Ran write writer log
      (fun _ log' _ => activeOf log' = (activeOf log).filter fun m => ¬ Owned processId m)
      (deactivateProcessModules write processId s) := by
  unfold deactivateProcessModules
  rw [bind_askOk]
  obtain ⟨modules, hordered, hpairwise, hmodules⟩ := exists_ordered hs.table processId
  rcases hlookup : s.table.activeByProcess.lookup processId with _ | keys
  · have hnone := (lookup_eq_none_iff (hs.table.keyed processId)).mp hlookup
    refine .done hs (List.filter_eq_self.mpr fun m hm => ?_).symm
    rw [decide_eq_true_eq]
    exact hnone m hm
  · have hids : keys.entries.map (fun e => e.1.id) = modules.map (·.id) := by
      have hkeys : s.table.startKeys processId = keys.entries.map (·.1) := by
        unfold ModuleTable.startKeys
        rw [hlookup]
        rfl
      have hmapped := congrArg (List.map StartKey.id) (hkeys.symm.trans hordered)
      rwa [List.map_map, List.map_map] at hmapped
    obtain ⟨table, hrun, htable, hnext⟩ := removeAll_closing hs.table hmodules
      (nodup_ids hs.table.toLists (fun m hm => ((hmodules m).mp hm).1) hpairwise) s.writer
    simp only
    rw [bind_change, hids]
    change Ran write writer log _
      ((removeAll (modules.map (·.id)) >>= _) ⟨closing s.table processId, s.writer⟩)
    rw [bind_of_ok hrun]
    have hdone : ∀ w, (NeverFails write →
        w = feed write s.writer [.writeModuleDeactivation processId]) →
        Recorded write writer (log ++ [.writeModuleDeactivation processId]) ⟨table, w⟩ := by
      intro w hw
      refine hs.extend _ hw ?_ ?_
      · show Represents table (activeAfter (activeOf log) (.writeModuleDeactivation processId))
        rw [activeAfter_deactivation]
        exact htable
      · exact ⟨pos_of_keys (hs.table.keyed processId) hlookup, hnext⟩
    refine ran_emit (fun w hw => ?_) fun hfails w => ⟨_, hdone w fun hnever =>
      absurd hnever hfails⟩
    refine .ok _ (hdone w fun _ => (congrArg Prod.snd hw).symm) ?_
    rw [activeOf_append]
    exact activeAfter_deactivation _ _

end

/-- A module as a mapping of a child. -/
def inherited (childPid : Pid) (m : ModuleRecord) : ModuleRecord :=
  { m with id := 0, owner := .process childPid }

/-- Mappings that are applied one after another. -/
inductive AppliedAll : List ModuleRecord → List ModuleRecord → List ModuleUpdate →
    List ModuleRecord → Prop
  | nil (active : List ModuleRecord) : AppliedAll active [] [] active
  | cons {active active' active'' : List ModuleRecord} {m : ModuleRecord} {u : ModuleUpdate}
      {mappings : List ModuleRecord} {updates : List ModuleUpdate} : Applied active m u active' →
      AppliedAll active' mappings updates active'' →
      AppliedAll active (m :: mappings) (u :: updates) active''

/-- The updates taken together, behind an earlier one. -/
structure Combines (combined : ModuleUpdate) (updates : List ModuleUpdate)
    (update : ModuleUpdate) : Prop where
  retired : update.retired = combined.retired ++ updates.flatMap (·.retired)
  active : update.active.map (·.module) =
    combined.active.map (·.module) ++ updates.flatMap (·.active.map (·.module))

theorem combines_nil (combined : ModuleUpdate) : Combines combined [] combined :=
  ⟨(List.append_nil _).symm, (List.append_nil _).symm⟩

theorem Combines.cons {combined next update : ModuleUpdate} {updates : List ModuleUpdate}
    (h : Combines next updates update) (hretired : next.retired = combined.retired ++ u.retired)
    (hactive : next.active.map (·.module) =
      combined.active.map (·.module) ++ u.active.map (·.module)) :
    Combines combined (u :: updates) update where
  retired := by rw [h.retired, hretired, List.append_assoc, List.flatMap_cons]
  active := by rw [h.active, hactive, List.append_assoc, List.flatMap_cons]

section

variable (h : Applied active m u active')

include h

/-- Modules of other owners stay. -/
theorem mem_of_applied {m' : ModuleRecord} (hm' : m' ∈ active) (hother : m'.owner ≠ m.owner) :
    m' ∈ active' := by
  cases h with
  | empty => exact hm'
  | known => exact hm'
  | entered retired activations rest id hnew hunknown hrest =>
    refine List.mem_append_left _ ?_
    rcases hrest with ⟨-, -, -, rfl⟩ | ⟨-, hreplaced⟩
    · exact hm'
    · rw [hreplaced.active]
      exact List.mem_append_left _ (List.mem_filter.mpr
        ⟨hm', decide_eq_true fun hmeets => hother hmeets.1⟩)

/-- A mapping that is already there changes nothing. -/
theorem eq_of_applied {known : ModuleRecord} (hknown : known ∈ active)
    (hcompatible : Compatible m known) : active' = active := by
  cases h with
  | empty => rfl
  | known => rfl
  | entered retired activations rest id hnew hunknown hrest =>
    exact absurd hcompatible (hunknown known hknown)

theorem active_ne_nil_of_applied (hnew : m.start.toNat < m.stop.toNat) : u.active ≠ [] := by
  cases h with
  | empty hle => omega
  | known => exact List.cons_ne_nil _ _
  | entered => exact List.append_ne_nil_of_right_ne_nil _ (List.cons_ne_nil _ _)

end

theorem withSource_ok (sourceId : UInt32) {activations : List ModuleActivation}
    (h : activations ≠ []) :
    ∃ activations', withSource sourceId activations = .ok activations' ∧
      activations'.map (·.module) = activations.map (·.module) := by
  unfold withSource
  rw [List.getLast?_eq_getLast_of_ne_nil h]
  refine ⟨_, rfl, ?_⟩
  have hsplit := congrArg (List.map (·.module)) (List.dropLast_append_getLast h)
  rwa [List.map_append] at hsplit ⊢

theorem compatible_inherited {childPid : Pid} (h : m.owner = .process childPid) :
    Compatible (inherited childPid m) m := by
  refine ⟨?_, .inl rfl⟩
  exact sameMapping_iff.mpr ⟨h, rfl, rfl, rfl, rfl, rfl, rfl, rfl⟩

section

variable {σ : Type} {write : Op → σ → Except Stop Unit × σ} {writer : σ} {log : List Op}
  {s : Recorder σ}

/-- A child that has modules applies each module of its parent. -/
theorem inheritAll_ran_apply (hs : Recorded write writer log s) (childPid : Pid)
    {sources : List ModuleRecord} {owner : ModuleOwner}
    (hsources : ∀ m ∈ sources, m ∈ activeOf log ∧ m.owner = owner) (combined : ModuleUpdate) :
    Ran write writer log
      (fun update log' _ => ∃ updates, Combines combined updates update ∧
        AppliedAll (activeOf log) (sources.map (inherited childPid)) updates (activeOf log'))
      (inheritAll write childPid true (sources.map (·.id)) combined s) := by
  induction sources generalizing log s combined with
  | nil => exact .done hs ⟨[], combines_nil _, .nil _⟩
  | cons source sources ih =>
    obtain ⟨hsource, howner⟩ := hsources source (.head _)
    rw [List.map_cons (f := fun m : ModuleRecord => m.id), inheritAll,
      bind_ask (hs.table.activeModule_ok hsource)]
    simp only [if_true]
    refine (applyModule_ran hs (inherited childPid source)).bind fun u ops s' hs' happlied => ?_
    obtain ⟨activations, hactivations, hmodules⟩ := withSource_ok source.id
      (active_ne_nil_of_applied happlied (hs.table.nonempty source hsource))
    rw [bind_ask hactivations]
    have hkept : ∀ m ∈ sources, m ∈ activeOf (log ++ ops) ∧ m.owner = owner := by
      intro m hm
      obtain ⟨hactive, howner'⟩ := hsources m (.tail _ hm)
      refine ⟨?_, howner'⟩
      by_cases hchild : owner = .process childPid
      · -- A process that inherits from itself has the mapping already.
        have hcompatible := compatible_inherited (howner.trans hchild)
        rw [eq_of_applied happlied hsource hcompatible]
        exact hactive
      · exact mem_of_applied happlied hactive fun hsame => hchild (howner'.symm.trans hsame)
    refine (ih hs' hkept _).mono fun update more s'' _ hupdate => ?_
    obtain ⟨updates, hcombines, happliedAll⟩ := hupdate
    refine ⟨u :: updates, hcombines.cons rfl ?_, .cons happlied happliedAll⟩
    rw [List.map_append, hmodules]

section

variable {m' : ModuleRecord} (h : Fits active m) {pid : Pid} (howner : m.owner = .process pid)

include h howner

theorem not_meets_of_fits (hm' : m' ∈ active) : ¬ Meets m m' := by
  intro ⟨howner', hmeet⟩
  have hapart := h.apart m' hm' pid (howner'.trans howner) howner
  have hrange := overlap_iff.mp hmeet
  unfold Apart at hapart
  omega

theorem not_compatible_of_fits (hm' : m' ∈ active) : ¬ Compatible m m' := by
  intro hcompatible
  obtain ⟨howner', hstart, hstop, -⟩ := sameMapping_iff.mp hcompatible.same
  have hnonempty := h.nonempty
  refine not_meets_of_fits h howner hm' ⟨howner', overlap_iff.mpr ?_⟩
  rw [hstart, hstop]
  exact ⟨hnonempty, hnonempty⟩

theorem filter_not_meets_of_fits : active.filter (fun m' => ¬ Meets m m') = active :=
  List.filter_eq_self.mpr fun _ hm' => decide_eq_true (not_meets_of_fits h howner hm')

/-- A module that fits is entered alone. -/
theorem applied_of_fits (id : UInt32) :
    Applied active m ⟨[], [⟨{ m with id := id }, none⟩], true⟩
      (active ++ [{ m with id := id }]) := by
  refine .entered [] [] active id h.nonempty
    (fun _ hknown => not_compatible_of_fits h howner hknown)
    (.inr ⟨⟨pid, howner⟩, ⟨fun m' => ?_, .nil, .nil, ?_⟩⟩)
  · simpa using fun hm' => not_meets_of_fits h howner hm'
  · rw [List.map_nil, List.append_nil, filter_not_meets_of_fits h howner]

/-- Applying a module that fits enters it behind the others. -/
theorem eq_append_of_applied {update : ModuleUpdate} {active' : List ModuleRecord}
    (happlied : Applied active m update active') :
    ∃ id, active' = active ++ [{ m with id := id }] := by
  cases happlied with
  | empty hempty => exact absurd h.nonempty (Nat.not_lt.mpr hempty)
  | known known _ hknown hcompatible =>
    exact absurd hcompatible (not_compatible_of_fits h howner hknown)
  | entered retired activations rest id _ _ hrest =>
    refine ⟨id, ?_⟩
    rcases hrest with ⟨hkernel, -⟩ | ⟨-, hreplaced⟩
    · rw [howner] at hkernel
      cases hkernel
    · have hretired : retired = [] := List.eq_nil_iff_forall_not_mem.mpr fun m' hm' =>
        not_meets_of_fits h howner ((hreplaced.met m').mp hm').1 ((hreplaced.met m').mp hm').2
      subst hretired
      cases hreplaced.entered
      rw [hreplaced.active, List.map_nil, List.append_nil, filter_not_meets_of_fits h howner]

end

/-- A child without modules enters each module of its parent. -/
theorem inheritAll_ran_enter (hs : Recorded write writer log s) {childPid : Pid}
    {sources : List ModuleRecord} (hsources : ∀ m ∈ sources, m ∈ activeOf log)
    (hordered : sources.Pairwise fun m m' => m.stop.toNat ≤ m'.start.toNat)
    (hfits : ∀ m ∈ sources, Fits (activeOf log) (inherited childPid m)) (combined : ModuleUpdate) :
    Ran write writer log
      (fun update log' _ => ∃ updates, Combines combined updates update ∧
        AppliedAll (activeOf log) (sources.map (inherited childPid)) updates (activeOf log'))
      (inheritAll write childPid false (sources.map (·.id)) combined s) := by
  induction sources generalizing log s combined with
  | nil => exact .done hs ⟨[], combines_nil _, .nil _⟩
  | cons source sources ih =>
    obtain ⟨hfirst, hrest⟩ := List.pairwise_cons.mp hordered
    have hsource := hsources source (.head _)
    have hfitsSource := hfits source (.head _)
    rw [List.map_cons (f := fun m : ModuleRecord => m.id), inheritAll,
      bind_ask (hs.table.activeModule_ok hsource)]
    simp only [Bool.false_eq_true, if_false]
    refine (internWithoutOverlap_ran hs hfitsSource).bind fun id ops s' hs' hactive => ?_
    have hmem : { inherited childPid source with id := id } ∈ activeOf (log ++ ops) := by
      rw [hactive]
      exact List.mem_append_right _ (List.mem_singleton_self _)
    rw [bind_ask (hs'.table.activeModule_ok hmem)]
    have hsources' : ∀ m ∈ sources, m ∈ activeOf (log ++ ops) := by
      intro m hm
      rw [hactive]
      exact List.mem_append_left _ (hsources m (.tail _ hm))
    have hfits' : ∀ m ∈ sources, Fits (activeOf (log ++ ops)) (inherited childPid m) := by
      intro m hm
      have h := hfits m (.tail _ hm)
      rw [hactive]
      refine .ofUser rfl h.nonempty (List.forall_mem_append.mpr
        ⟨h.apart, List.forall_mem_singleton.mpr fun _ _ _ => .inl (hfirst m hm)⟩)
    refine (ih hs' hsources' hrest hfits' _).mono fun update more s'' _ hupdate => ?_
    obtain ⟨updates, hcombines, happliedAll⟩ := hupdate
    rw [hactive] at happliedAll
    refine ⟨⟨[], [⟨{ inherited childPid source with id := id }, none⟩], true⟩ :: updates,
      hcombines.cons (List.append_nil _).symm ?_, .cons (applied_of_fits hfitsSource rfl id)
        happliedAll⟩
    rw [List.map_append]
    rfl

/-- What a child takes over from its parent. -/
structure Cloned (active : List ModuleRecord) (parentProcessId : Int32) (childPid : Pid)
    (cloned : ClonedProcessModules) (active' : List ModuleRecord) (sources : List ModuleRecord)
    (updates : List ModuleUpdate) : Prop where
  mem : ∀ m, m ∈ sources ↔ m ∈ active ∧ Owned parentProcessId m
  ordered : sources.Pairwise fun m m' => m.stop.toNat ≤ m'.start.toNat
  combines : Combines .default updates cloned.update
  applied : AppliedAll active (sources.map (inherited childPid)) updates active'
  fresh : cloned.inheritedUnwinderLayout = true ↔ ∀ m ∈ active, ¬ Owned childPid.get m

theorem cloneProcessModules_ran (hs : Recorded write writer log s) (parentProcessId : Int32)
    (childPid : Pid) :
    Ran write writer log
      (fun cloned log' _ => ∃ sources updates,
        Cloned (activeOf log) parentProcessId childPid cloned (activeOf log') sources updates)
      (cloneProcessModules write parentProcessId childPid.get s) := by
  obtain ⟨sources, hkeys, hordered, hsources⟩ := exists_ordered hs.table parentProcessId
  have hids : s.table.processModuleIds parentProcessId = sources.map (·.id) := by
    unfold ModuleTable.processModuleIds
    rw [hkeys, List.map_map]
    rfl
  have hpid : Pid.tryFrom childPid.get = .ok childPid := by
    unfold Pid.tryFrom
    rw [Pid.new_get]
  have hchild : (s.table.activeByProcess.lookup childPid.get).isSome = false ↔
      ∀ m ∈ activeOf log, ¬ Owned childPid.get m := by
    rw [Option.isSome_eq_false_iff, Option.isNone_iff_eq_none]
    exact lookup_eq_none_iff (hs.table.keyed childPid.get)
  unfold cloneProcessModules
  rw [bind_ask (by rw [hpid]), bind_askOk, bind_askOk, hids]
  rcases hhas : (s.table.activeByProcess.lookup childPid.get).isSome with _ | _
  · have hnone := hchild.mp hhas
    refine (inheritAll_ran_enter hs (fun m hm => ((hsources m).mp hm).1) hordered
      (fun m hm => ?_) .default).bind fun update ops s' hs' hupdate => ?_
    · refine .ofUser rfl (hs.table.nonempty m ((hsources m).mp hm).1) fun m' hm' p hp hp' => ?_
      cases hp'
      exact absurd (owned_process.mpr hp) (hnone m' hm')
    · obtain ⟨updates, hcombines, happlied⟩ := hupdate
      exact .done hs' ⟨sources, updates, hsources, hordered, hcombines, happlied,
        iff_of_true rfl hnone⟩
  · have hsome : ¬ ∀ m ∈ activeOf log, ¬ Owned childPid.get m := by
      rw [← hchild, hhas]
      exact Bool.true_eq_false.mp
    have howners : ∀ m ∈ sources,
        m ∈ activeOf log ∧ m.owner = (frameOwner parentProcessId .user).getD .kernel := by
      intro m hm
      obtain ⟨hactive, howned⟩ := (hsources m).mp hm
      rw [owned_iff.mp howned]
      exact ⟨hactive, rfl⟩
    refine (inheritAll_ran_apply hs childPid howners .default).bind
      fun update ops s' hs' hupdate => ?_
    obtain ⟨updates, hcombines, happlied⟩ := hupdate
    exact .done hs' ⟨sources, updates, hsources, hordered, hcombines, happlied,
      iff_of_false Bool.false_ne_true hsome⟩

end

end StackPulse.ModuleInheritance
