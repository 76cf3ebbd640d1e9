import StackPulse.ModuleRuns

/-!
Reconciliation of the modules of a process with its maps. After lost records the maps of a
process are read again. Either its active modules already are the executable regions, and
nothing is written, or they are retired and entered anew from the maps. Both ways the active
modules of the process are the regions, one for one, and no other module changes.
-/
namespace StackPulse.Reconciliation

open Model Sessions Attempts Modules ModuleRepresentation ModuleParts ModuleChanges
  ModuleApplication ModuleInheritance ModuleRuns

/-- A region of the maps of a process. A line with an empty range is not parsed. -/
structure Region where
  start : UInt64
  stop : UInt64
  isExecutable : Bool
  fileOffset : UInt64
  inode : UInt64
  deviceMajor : UInt32
  deviceMinor : UInt32
  path : ModulePath
  start_lt : start.toNat < stop.toNat

def Region.toModule (pid : Pid) (region : Region) : ModuleRecord where
  id := 0
  owner := .process pid
  start := region.start
  stop := region.stop
  fileOffset := region.fileOffset
  inode := region.inode
  deviceMajor := region.deviceMajor
  deviceMinor := region.deviceMinor
  inodeGeneration := 0
  path := region.path
  jitSymbols := none

def executableRegions (maps : List Region) : List Region :=
  maps.filter fun region => region.isExecutable && !region.path.bytes.isEmpty

def executableModulesFromMaps (pid : Pid) (maps : List Region) : List ModuleRecord :=
  (executableRegions maps).map (Region.toModule pid)

/-- Every module of a snapshot has a compatible active module of its own. -/
def matchesAll (table : ModuleTable) : List ModuleRecord → List UInt32 → Except Stop Bool
  | [], _ => .ok true
  | module :: snapshot, matched => do
      match ← table.findCompatibleActive module with
      | none => .ok false
      | some id => if id ∈ matched then .ok false else matchesAll table snapshot (id :: matched)

def processModulesMatch (processId : Int32) (snapshot : List ModuleRecord) (table : ModuleTable) :
    Except Stop Bool :=
  if (table.startKeys processId).length ≠ snapshot.length then .ok false
  else matchesAll table snapshot []

/-- What the recorder knows of a process and reconciliation uses. -/
structure ProcessState (I : Type) where
  image : Option I
  pythonRuntime : Bool

/-- How reading the maps of a process can fail. -/
inductive MapsFault
  | targetGone
  | accessDenied
  | other (e : Stop)

section

variable {σ I : Type} (write : Op → σ → Except Stop Unit × σ)

def recordModule (module : ModuleRecord) : Recording σ Unit :=
  if module.path.bytes.isEmpty then pure () else do
    let _ ← applyModule write module
    pure ()

def registerExistingModules : List ModuleRecord → Recording σ Unit
  | [] => pure ()
  | module :: snapshot => do
      recordModule write module
      registerExistingModules snapshot

def endPythonRuntimeProcess (pid : Pid) (timestampNs : UInt64) (state : ProcessState I) :
    Recording σ (ProcessState I) :=
  if state.pythonRuntime then do
    emit write (.writePythonRuntime timestampNs pid.get false)
    pure { state with pythonRuntime := false }
  else pure state

def markPythonRuntimeProcess (pid : Pid) (timestampNs : UInt64) (state : ProcessState I) :
    Recording σ (ProcessState I) :=
  if state.pythonRuntime then pure state else do
    emit write (.writePythonRuntime timestampNs pid.get true)
    pure { state with pythonRuntime := true }

def imageMatches [DecidableEq I] (identity : Option I) (state : ProcessState I) : Bool :=
  identity.all fun image => state.image = some image

/-- The modules are compared only if the image is the one that was seen. -/
def unchangedImage [DecidableEq I] (pid : Pid) (identity : Option I) (snapshot : List ModuleRecord)
    (state : ProcessState I) : Recording σ Bool :=
  if imageMatches identity state then ask (processModulesMatch pid.get snapshot) else pure false

/-- The modules and the marks of a process, anew from a snapshot. -/
def rebuildProcess (isPythonRuntime : ModulePath → Bool) (perfSupport : Bool) (pid : Pid)
    (timestampNs : UInt64) (identity : Option I) (snapshot : List ModuleRecord)
    (state : ProcessState I) : Recording σ (Bool × ProcessState I) := do
  let _ ← deactivateProcessModules write pid.get
  let state ← endPythonRuntimeProcess write pid timestampNs state
  registerExistingModules write snapshot
  let state := { state with image := identity <|> state.image }
  if snapshot.any (fun module => isPythonRuntime module.path) && perfSupport then do
    let state ← markPythonRuntimeProcess write pid timestampNs state
    pure (true, state)
  else pure (true, state)

/-- The result says whether the process is still there. -/
def reconcileProcessImage [DecidableEq I] (isPythonRuntime : ModulePath → Bool)
    (perfSupport : Bool) (pid : Pid) (timestampNs : UInt64) (identity : Option I)
    (maps : Except MapsFault (List Region)) (state : ProcessState I) :
    Recording σ (Bool × ProcessState I) :=
  match maps with
  | .error .targetGone => pure (false, { state with image := none })
  | .error .accessDenied => pure (true, state)
  | .error (.other e) => ask fun _ => .error e
  | .ok maps =>
      if executableModulesFromMaps pid maps = [] then pure (true, state)
      else do
        let unchanged ← unchangedImage pid identity (executableModulesFromMaps pid maps) state
        if unchanged then pure (true, { state with image := identity <|> state.image })
        else
          rebuildProcess write isPythonRuntime perfSupport pid timestampNs identity
            (executableModulesFromMaps pid maps) state

end

/-- A module is a region of a process. Paths are compared by their components. -/
structure Matches (pid : Pid) (region : Region) (m : ModuleRecord) : Prop where
  owner : m.owner = .process pid
  start : m.start = region.start
  stop : m.stop = region.stop
  fileOffset : m.fileOffset = region.fileOffset
  inode : m.inode = region.inode
  deviceMajor : m.deviceMajor = region.deviceMajor
  deviceMinor : m.deviceMinor = region.deviceMinor
  path : m.path.components = region.path.components

def Disjoint (region region' : Region) : Prop :=
  region.stop.toNat ≤ region'.start.toNat ∨ region'.stop.toNat ≤ region.start.toNat

/-- The active modules of a process are some regions, one for one. -/
def Lays (pid : Pid) (regions : List Region) (active : List ModuleRecord) : Prop :=
  ∃ modules, modules.Perm (active.filter fun m => Owned pid.get m) ∧
    List.Forall₂ (Matches pid) regions modules

section

variable {pid : Pid} {regions : List Region} {active : List ModuleRecord} {table : ModuleTable}

/-- A region does not say the generation of its inode, so any generation fits. -/
theorem compatible_iff {region : Region} {m : ModuleRecord} :
    Compatible (region.toModule pid) m ↔ Matches pid region m := by
  constructor
  · intro h
    obtain ⟨h1, h2, h3, h4, h5, h6, h7, h8⟩ := sameMapping_iff.mp h.same
    exact ⟨h1, h2, h3, h4, h5, h6, h7, h8⟩
  · intro ⟨h1, h2, h3, h4, h5, h6, h7, h8⟩
    refine ⟨sameMapping_iff.mpr ⟨h1, h2, h3, h4, h5, h6, h7, h8⟩, ?_⟩
    by_cases hgeneration : m.inodeGeneration = 0
    · exact .inl hgeneration
    · exact .inr ⟨rfl, hgeneration⟩

theorem starts_ne (h : regions.Pairwise Disjoint) :
    regions.Pairwise fun region region' => region.start ≠ region'.start := by
  refine h.imp fun {region region'} hdisjoint hstart => ?_
  have hlt := region.start_lt
  have hlt' := region'.start_lt
  unfold Disjoint at hdisjoint
  rw [hstart] at hdisjoint hlt
  omega

/-- Regions that start apart never find the same module, so the ids only have to be there. -/
theorem matchesAll_ok (h : Represents table active) (pid : Pid)
    (hstarts : regions.Pairwise fun region region' => region.start ≠ region'.start)
    (matched : List UInt32) (hmatched : ∀ m ∈ active, m.id ∈ matched →
      ∀ region ∈ regions, m.start ≠ region.start) :
    ∃ found, matchesAll table (regions.map (Region.toModule pid)) matched = .ok found ∧
      (found = true ↔ ∀ region ∈ regions, ∃ m ∈ active, Matches pid region m) := by
  induction regions generalizing matched with
  | nil => exact ⟨true, rfl, by simp⟩
  | cons region regions ih =>
    obtain ⟨hfirst, hrest⟩ := List.pairwise_cons.mp hstarts
    obtain ⟨found, hfound, hcases⟩ := findCompatibleActive_ok h (region.toModule pid)
    rw [List.map_cons, matchesAll, hfound]
    rcases found with _ | id
    · refine ⟨false, rfl, ⟨Bool.noConfusion, fun hall => ?_⟩⟩
      obtain ⟨m, hm, hmatches⟩ := hall region (.head _)
      exact absurd (compatible_iff.mpr hmatches) (hcases m hm)
    · obtain ⟨m, hm, rfl, hcompatible⟩ := hcases
      have hmatches := compatible_iff.mp hcompatible
      have hnew : m.id ∉ matched := fun hmem =>
        hmatched m hm hmem region (.head _) hmatches.start
      obtain ⟨found, hfound, hiff⟩ := ih hrest (m.id :: matched) (by
        intro m' hm' hid region' hregion'
        rcases List.mem_cons.mp hid with hid | hid
        · rw [h.toLists.eq_of_id hm' hm hid, hmatches.start]
          exact hfirst region' hregion'
        · exact hmatched m' hm' hid region' (.tail _ hregion'))
      refine ⟨found, ?_, hiff.trans ?_⟩
      · show (if m.id ∈ matched then _ else _) = _
        rw [if_neg hnew, hfound]
      · rw [List.forall_mem_cons]
        exact (and_iff_right ⟨m, hm, hmatches⟩).symm

/-- As many modules as regions, and a module for each region, are the regions. -/
theorem lays_iff (hstarts : regions.Pairwise fun region region' => region.start ≠ region'.start) :
    Lays pid regions active ↔
      (active.filter fun m => Owned pid.get m).length = regions.length ∧
        ∀ region ∈ regions, ∃ m ∈ active, Matches pid region m := by
  constructor
  · intro ⟨modules, hperm, hmatches⟩
    refine ⟨hperm.length_eq.symm.trans hmatches.length_eq.symm, fun region hregion => ?_⟩
    obtain ⟨m, hm, hmatch⟩ := exists_of_forall₂_right hmatches.flip hregion
    exact ⟨m, List.mem_of_mem_filter (hperm.mem_iff.mp hm), hmatch⟩
  · intro ⟨hlength, hall⟩
    obtain ⟨modules, hmatches, hmem⟩ : ∃ modules, List.Forall₂ (Matches pid) regions modules ∧
        ∀ m ∈ modules, m ∈ active := by
      clear hlength hstarts
      induction regions with
      | nil => exact ⟨[], .nil, by simp⟩
      | cons region regions ih =>
        obtain ⟨⟨m, hm, hmatch⟩, hrest⟩ := List.forall_mem_cons.mp hall
        obtain ⟨modules, hmatches, hmem⟩ := ih hrest
        exact ⟨m :: modules, .cons hmatch hmatches, List.forall_mem_cons.mpr ⟨hm, hmem⟩⟩
    have hsame : modules.map (·.start) = regions.map (·.start) := by
      clear hlength hall hmem hstarts
      induction hmatches with
      | nil => rfl
      | cons hmatch _ ih => rw [List.map_cons, List.map_cons, hmatch.start, ih]
    have hnodup : modules.Nodup := by
      refine List.Nodup.of_map (·.start) ?_
      rw [hsame]
      exact List.pairwise_map.mpr hstarts
    refine ⟨modules, ?_, hmatches⟩
    refine (List.subperm_of_subset hnodup fun m hm => ?_).perm_of_length_le ?_
    · obtain ⟨region, -, hmatch⟩ := exists_of_forall₂_right hmatches hm
      exact List.mem_filter.mpr ⟨hmem m hm, decide_eq_true (owned_process.mpr hmatch.owner)⟩
    · rw [hlength, hmatches.length_eq]

/-- The match test says whether the active modules of the process are the regions. -/
theorem processModulesMatch_ok (h : Represents table active) (pid : Pid)
    (hdisjoint : regions.Pairwise Disjoint) :
    ∃ found, processModulesMatch pid.get (regions.map (Region.toModule pid)) table = .ok found ∧
      (found = true ↔ Lays pid regions active) := by
  have hactive : active.Nodup :=
    h.sorted.imp fun hlt heq => absurd (congrArg (·.id.toNat) heq) (Nat.ne_of_lt hlt)
  obtain ⟨modules, hkeys, hordered, hmodules⟩ := exists_ordered h pid.get
  have hlength : (table.startKeys pid.get).length =
      (active.filter fun m => Owned pid.get m).length := by
    rw [hkeys, List.length_map]
    refine List.Perm.length_eq ((List.perm_ext_iff_of_nodup ?_ (hactive.filter _)).mpr fun m => ?_)
    · exact List.Nodup.of_map _ (nodup_ids h.toLists (fun m hm => ((hmodules m).mp hm).1) hordered)
    · rw [hmodules, List.mem_filter, decide_eq_true_eq]
  obtain ⟨found, hfound, hiff⟩ := matchesAll_ok h pid (starts_ne hdisjoint) []
    (fun _ _ hid => absurd hid List.not_mem_nil)
  unfold processModulesMatch
  rw [lays_iff (starts_ne hdisjoint), hlength, List.length_map]
  split
  · next hne => exact ⟨false, rfl, ⟨Bool.noConfusion, fun hall => absurd hall.1 hne⟩⟩
  · next heq => exact ⟨found, hfound, hiff.trans (and_iff_right (not_not.mp heq)).symm⟩

end

section

variable {σ I : Type} {write : Op → σ → Except Stop Unit × σ} {writer : σ} {log : List Op}
  {s : Recorder σ} {pid : Pid}

section

variable (hs : Recorded write writer log s)

include hs

/-- Disjoint regions beside the active modules are entered one by one, as they are. -/
theorem registerExistingModules_ran {regions : List Region}
    (hpaths : ∀ region ∈ regions, region.path.bytes ≠ []) (hdisjoint : regions.Pairwise Disjoint)
    (hfits : ∀ region ∈ regions, Fits (activeOf log) (region.toModule pid)) :
    Ran write writer log (fun _ log' _ => ∃ modules, activeOf log' = activeOf log ++ modules ∧
        List.Forall₂ (Matches pid) regions modules)
      (registerExistingModules write (regions.map (Region.toModule pid)) s) := by
  induction regions generalizing log s with
  | nil => exact .done hs ⟨[], (List.append_nil _).symm, .nil⟩
  | cons region regions ih =>
    obtain ⟨hfirst, hrest⟩ := List.pairwise_cons.mp hdisjoint
    have hpath : ¬ region.path.bytes.isEmpty = true := fun hempty =>
      hpaths region (.head _) (List.isEmpty_iff.mp hempty)
    rw [List.map_cons, registerExistingModules, recordModule, Region.toModule, if_neg hpath]
    refine ((applyModule_ran hs _).bind fun update ops s' hs' happlied =>
      .done hs' (Q := fun _ log' _ => ∃ id, activeOf log' =
        activeOf log ++ [{ region.toModule pid with id := id }])
        (eq_append_of_applied (hfits region (.head _)) rfl happlied)).bind
      fun _ ops s' hs' hentered => ?_
    obtain ⟨id, hactive⟩ := hentered
    refine (ih hs' (fun r hr => hpaths r (.tail _ hr)) hrest fun r hr => ?_).mono
      fun _ more s'' hs'' hq => ?_
    · refine .ofUser rfl r.start_lt fun m hm => ?_
      rw [hactive] at hm
      rcases List.mem_append.mp hm with hm | hm
      · exact (hfits r (.tail _ hr)).apart m hm
      · rw [List.mem_singleton.mp hm]
        exact fun _ _ _ => hfirst r hr
    · obtain ⟨modules, hmodules, hmatches⟩ := hq
      refine ⟨{ region.toModule pid with id := id } :: modules, ?_,
        .cons ⟨rfl, rfl, rfl, rfl, rfl, rfl, rfl, rfl⟩ hmatches⟩
      rw [hmodules, hactive, List.append_assoc]
      rfl

/-- A mark of a process is no call about modules. -/
theorem ran_mark {β : Type} {Q : β → List Op → Recorder σ → Prop} (timestampNs : UInt64)
    (isPythonRuntime : Bool) {f : Unit → Recording σ β}
    (hf : ∀ ops s', Recorded write writer (log ++ ops) s' →
      activeOf (log ++ ops) = activeOf log → Ran write writer (log ++ ops) Q (f () s')) :
    Ran write writer log Q
      ((emit write (.writePythonRuntime timestampNs pid.get isPythonRuntime) >>= f) s) := by
  refine ran_emit (fun w hw => ?_) fun hfails w => ⟨[], ?_⟩
  · have hactive : activeOf (log ++ [.writePythonRuntime timestampNs pid.get isPythonRuntime]) =
        activeOf log := by rw [activeOf_append]; rfl
    refine (hf _ _ (hs.extend _ (fun _ => (congrArg Prod.snd hw).symm) ?_ ?_) hactive).behind
    · exact hs.table
    · exact ⟨pid.pos, rfl⟩
  · rw [List.append_nil]
    exact hs.failed hfails w

/-- A run that leaves the active modules as they are. -/
theorem endPythonRuntimeProcess_ran (timestampNs : UInt64) (state : ProcessState I) :
    Ran write writer log (fun _ log' _ => activeOf log' = activeOf log)
      (endPythonRuntimeProcess write pid timestampNs state s) := by
  unfold endPythonRuntimeProcess
  split
  · exact ran_mark hs timestampNs false fun ops s' hs' hactive => .done hs' hactive
  · exact .done hs rfl

theorem markPythonRuntimeProcess_ran (timestampNs : UInt64) (state : ProcessState I) :
    Ran write writer log (fun _ log' _ => activeOf log' = activeOf log)
      (markPythonRuntimeProcess write pid timestampNs state s) := by
  unfold markPythonRuntimeProcess
  split
  · exact .done hs rfl
  · exact ran_mark hs timestampNs true fun ops s' hs' hactive => .done hs' hactive

end

/-- The active modules that a process is left with. -/
def Rebuilt (pid : Pid) (regions : List Region) (active active' : List ModuleRecord) : Prop :=
  ∃ modules, active' = active.filter (fun m => ¬ Owned pid.get m) ++ modules ∧
    List.Forall₂ (Matches pid) regions modules

theorem Rebuilt.owned {regions : List Region} {active active' : List ModuleRecord}
    (h : Rebuilt pid regions active active') : Lays pid regions active' ∧
      active'.filter (fun m => ¬ Owned pid.get m) = active.filter fun m => ¬ Owned pid.get m := by
  obtain ⟨modules, rfl, hmatches⟩ := h
  have howned : ∀ m ∈ modules, Owned pid.get m := by
    intro m hm
    obtain ⟨region, -, hmatch⟩ := exists_of_forall₂_right hmatches hm
    exact owned_process.mpr hmatch.owner
  have hself : modules.filter (fun m => Owned pid.get m) = modules :=
    List.filter_eq_self.mpr fun m hm => decide_eq_true (howned m hm)
  have hnone : modules.filter (fun m => ¬ Owned pid.get m) = [] :=
    List.filter_eq_nil_iff.mpr fun m hm => by simpa using howned m hm
  refine ⟨⟨modules, ?_, hmatches⟩, ?_⟩
  · rw [List.filter_append, hself, List.filter_filter]
    simp
  · rw [List.filter_append, hnone, List.filter_filter, List.append_nil]
    simp

theorem rebuildProcess_ran (hs : Recorded write writer log s)
    (isPythonRuntime : ModulePath → Bool) (perfSupport : Bool) (pid : Pid) (timestampNs : UInt64)
    (identity : Option I) {maps : List Region}
    (hdisjoint : (executableRegions maps).Pairwise Disjoint) (state : ProcessState I) :
    Ran write writer log (fun result log' _ => result.1 = true ∧
        Rebuilt pid (executableRegions maps) (activeOf log) (activeOf log'))
      (rebuildProcess write isPythonRuntime perfSupport pid timestampNs identity
        (executableModulesFromMaps pid maps) state s) := by
  unfold rebuildProcess
  refine (deactivateProcessModules_ran hs pid.get).bind fun _ ops s' hs' hcleared => ?_
  refine (endPythonRuntimeProcess_ran hs' timestampNs state).bind fun state _ s' hs' hended => ?_
  have hkept := hended.trans hcleared
  have hpaths : ∀ region ∈ executableRegions maps, region.path.bytes ≠ [] := by
    intro region hregion hempty
    have hnamed := (List.mem_filter.mp hregion).2
    rw [hempty] at hnamed
    simp at hnamed
  refine (registerExistingModules_ran hs' hpaths hdisjoint fun region _ => ?_).bind
    fun _ _ s' hs' hq => ?_
  · refine .ofUser rfl region.start_lt fun m hm pid' howner howner' => ?_
    rw [hkept] at hm
    cases howner'
    exact absurd (owned_process.mpr howner) (by simpa using (List.mem_filter.mp hm).2)
  rw [hkept] at hq
  split
  · refine (markPythonRuntimeProcess_ran hs' timestampNs _).bind fun _ _ s' hs' hmarked => ?_
    exact .done hs' ⟨rfl, by rwa [Rebuilt, hmarked]⟩
  · exact .done hs' ⟨rfl, hq⟩

end

/-- After a reconciliation that returns, the active modules of the process are the executable
regions of its maps, one for one, and those of every other owner are as before. If the image
and the regions were the known ones, nothing is written and the table is as before. -/
theorem reconcileProcessImage_converges {σ I : Type} [DecidableEq I]
    {write : Op → σ → Except Stop Unit × σ} {writer : σ} {log : List Op} {s s' : Recorder σ}
    (hs : Recorded write writer log s) (isPythonRuntime : ModulePath → Bool) (perfSupport : Bool)
    (pid : Pid) (timestampNs : UInt64) (identity : Option I) {maps : List Region}
    (hregions : executableRegions maps ≠ [])
    (hdisjoint : (executableRegions maps).Pairwise Disjoint) (state : ProcessState I)
    {result : Bool × ProcessState I}
    (hrun : reconcileProcessImage write isPythonRuntime perfSupport pid timestampNs identity
      (.ok maps) state s = (.ok result, s')) :
    result.1 = true ∧ ∃ ops, Recorded write writer (log ++ ops) s' ∧
      Lays pid (executableRegions maps) (activeOf (log ++ ops)) ∧
      (activeOf (log ++ ops)).filter (fun m => ¬ Owned pid.get m) =
        (activeOf log).filter (fun m => ¬ Owned pid.get m) ∧
      (imageMatches identity state = true → Lays pid (executableRegions maps) (activeOf log) →
        ops = [] ∧ s' = s) := by
  obtain ⟨found, hfound, hiff⟩ := processModulesMatch_ok hs.table pid hdisjoint
  have hunchanged : unchangedImage pid identity (executableModulesFromMaps pid maps) state s =
      (.ok (imageMatches identity state && found), s) := by
    unfold unchangedImage
    cases imageMatches identity state
    · rfl
    · exact congrArg (·, s) hfound
  have hne : executableModulesFromMaps pid maps ≠ [] := fun h => hregions (List.map_eq_nil_iff.mp h)
  unfold reconcileProcessImage at hrun
  dsimp only at hrun
  rw [if_neg hne, bind_of_ok hunchanged] at hrun
  cases hsame : imageMatches identity state && found with
  | true =>
    rw [hsame] at hrun
    cases hrun
    rw [Bool.and_eq_true] at hsame
    refine ⟨rfl, [], ?_⟩
    rw [List.append_nil]
    exact ⟨hs, hiff.mp hsame.2, rfl, fun _ _ => ⟨rfl, rfl⟩⟩
  | false =>
    rw [hsame] at hrun
    have hran := rebuildProcess_ran hs isPythonRuntime perfSupport pid timestampNs identity
      hdisjoint
      state
    rw [if_neg Bool.false_ne_true] at hrun
    rw [hrun] at hran
    cases hran with
    | ok ops hs' hq =>
      refine ⟨hq.1, ops, hs', hq.2.owned.1, hq.2.owned.2, fun himage hlays => ?_⟩
      rw [himage, hiff.mpr hlays] at hsame
      cases hsame

/-- Two regions that touch, one that overlaps both, and one without code. -/
def textRegion : Region := ⟨4096, 8192, true, 0, 1, 2, 3, ⟨[47, 97]⟩, by decide⟩
def libraryRegion : Region := ⟨8192, 12288, true, 0, 5, 2, 3, ⟨[47, 98]⟩, by decide⟩
def staleRegion : Region := ⟨6144, 10240, true, 0, 4, 2, 3, ⟨[47, 99]⟩, by decide⟩
def dataRegion : Region := ⟨12288, 16384, false, 0, 5, 2, 3, ⟨[47, 98]⟩, by decide⟩

/-- A reconciliation of a process with the image 7. -/
def reconciled (processId : Pid) (maps : List Region) (state : ProcessState ℕ)
    (s : Recorder (List Op)) : Except Stop (Bool × ProcessState ℕ) × Recorder (List Op) :=
  reconcileProcessImage keepCalls (fun _ => true) true processId 9 (some 7) (.ok maps) state s

/-- Process 2 and process 1 have a module each. -/
def staleTable : Recorder (List Op) :=
  (reconciled ⟨1, by decide⟩ [staleRegion] ⟨none, false⟩
    (reconciled ⟨2, by decide⟩ [textRegion] ⟨none, false⟩ ⟨.default, []⟩).2).2

/-- The maps of process 1 are read twice. -/
def rereadTable : Recorder (List Op) :=
  (reconciled ⟨1, by decide⟩ [libraryRegion, dataRegion, textRegion] ⟨some 7, true⟩ staleTable).2

theorem reconcileProcessImage_converges_stale :
    (activeOf staleTable.writer).map (fun m => (m.owner, m.start)) =
        [(.process ⟨2, by decide⟩, 4096), (.process ⟨1, by decide⟩, 6144)] ∧
      ∃ ops, Recorded keepCalls [] (staleTable.writer ++ ops) rereadTable ∧
        Lays ⟨1, by decide⟩ [libraryRegion, textRegion] (activeOf (staleTable.writer ++ ops)) ∧
        (activeOf (staleTable.writer ++ ops)).filter (fun m => ¬ Owned 1 m) =
          (activeOf staleTable.writer).filter (fun m => ¬ Owned 1 m) ∧
        (reconciled ⟨1, by decide⟩ [libraryRegion, dataRegion, textRegion] ⟨some 7, true⟩
          rereadTable).2 = rereadTable := by
  have hfirst : reconciled ⟨2, by decide⟩ [textRegion] ⟨none, false⟩ ⟨.default, []⟩ =
      (.ok (true, ⟨some 7, true⟩), _) := Prod.ext rfl rfl
  obtain ⟨-, ops, hs, -⟩ := reconcileProcessImage_converges (recorded_default [])
    _ _ _ _ _ (by decide) (List.pairwise_singleton _ _) _ hfirst
  have hstale : reconciled ⟨1, by decide⟩ [staleRegion] ⟨none, false⟩
      (reconciled ⟨2, by decide⟩ [textRegion] ⟨none, false⟩ ⟨.default, []⟩).2 =
      (.ok (true, ⟨some 7, true⟩), staleTable) := Prod.ext rfl rfl
  obtain ⟨-, more, hs, -⟩ := reconcileProcessImage_converges hs
    _ _ _ _ _ (by decide) (List.pairwise_singleton _ _) _ hstale
  have hlog := hs.written keepCalls_neverFails
  rw [feed_keepCalls, List.nil_append] at hlog
  rw [← hlog] at hs
  have hdisjoint : (executableRegions [libraryRegion, dataRegion, textRegion]).Pairwise Disjoint :=
    List.pairwise_pair.mpr (.inr le_rfl)
  have hreread : reconciled ⟨1, by decide⟩ [libraryRegion, dataRegion, textRegion] ⟨some 7, true⟩
      staleTable = (.ok (true, ⟨some 7, true⟩), rereadTable) := Prod.ext rfl rfl
  obtain ⟨-, last, hs', hlays, hothers, -⟩ := reconcileProcessImage_converges hs
    _ _ _ _ _ (by decide) hdisjoint _ hreread
  have hagain : reconciled ⟨1, by decide⟩ [libraryRegion, dataRegion, textRegion] ⟨some 7, true⟩
      rereadTable = (.ok (true, ⟨some 7, true⟩), _) := Prod.ext rfl rfl
  obtain ⟨-, _, -, -, -, hsame⟩ := reconcileProcessImage_converges hs'
    _ _ _ _ _ (by decide) hdisjoint _ hagain
  exact ⟨by decide +kernel, last, hs', hlays, hothers, (hsame rfl hlays).2⟩

end StackPulse.Reconciliation
