import Mathlib.Data.Prod.Lex
import StackPulse.OrderedMap
import StackPulse.Sessions
import StackPulse.StableSort

/-!
The table of active modules. A mapping that replaces parts of others retires them
and keeps their remaining parts under new ids; every change is written to the
spool. Lookups go through an index per owner that is rebuilt when its owner has
changed.
-/
namespace StackPulse.Modules

open Model Words Writer Sessions Attempts OrderedMap StableSort

/-- What makes two records the same mapping. Paths are compared by components. -/
structure ModuleIdentity where
  owner : ModuleOwner
  start : UInt64
  stop : UInt64
  fileOffset : UInt64
  inode : UInt64
  deviceMajor : UInt32
  deviceMinor : UInt32
  inodeGeneration : UInt64
  path : PathComponents
  deriving DecidableEq

def identityOf (module : ModuleRecord) : ModuleIdentity where
  owner := module.owner
  start := module.start
  stop := module.stop
  fileOffset := module.fileOffset
  inode := module.inode
  deviceMajor := module.deviceMajor
  deviceMinor := module.deviceMinor
  inodeGeneration := module.inodeGeneration
  path := module.path.components

/-- A module in the order of its process: by start, then by id. -/
structure StartKey where
  start : UInt64
  id : UInt32
  deriving DecidableEq

namespace StartKey

def toNats (key : StartKey) : ℕ ×ₗ ℕ := toLex (key.start.toNat, key.id.toNat)

theorem toNats_injective : Function.Injective toNats := by
  rintro ⟨start, id⟩ ⟨start', id'⟩ h
  have hpair := toLex_inj.mp h
  simp only [Prod.mk.injEq, UInt64.toNat_inj, UInt32.toNat_inj] at hpair
  rw [hpair.1, hpair.2]

instance : LinearOrder StartKey := LinearOrder.lift' toNats toNats_injective

end StartKey

abbrev StartSet := BTreeMap StartKey Unit

structure ModuleIndexEntry where
  start : UInt64
  stop : UInt64
  fileOffset : UInt64
  id : UInt32
  deriving DecidableEq

def ModuleIndexEntry.of (module : ModuleRecord) : ModuleIndexEntry :=
  ⟨module.start, module.stop, module.fileOffset, module.id⟩

structure ModuleIndexGroup where
  entries : List ModuleIndexEntry
  hasOverlaps : Bool

structure ModuleIndex where
  byProcess : FxHashMap Int32 ModuleIndexGroup
  kernel : ModuleIndexGroup

structure ModuleTable where
  active : FxHashMap UInt32 ModuleRecord
  nextId : ℕ
  activeByKey : FxHashMap ModuleIdentity UInt32
  activeByProcess : FxHashMap Int32 StartSet
  index : ModuleIndex
  dirtyProcesses : List Int32
  kernelIndexDirty : Bool

def ModuleTable.default : ModuleTable where
  active := ∅
  nextId := 0
  activeByKey := ∅
  activeByProcess := ∅
  index := ⟨∅, ⟨[], false⟩⟩
  dirtyProcesses := []
  kernelIndexDirty := false

structure ModuleActivation where
  module : ModuleRecord
  sourceModuleId : Option UInt32
  deriving DecidableEq

structure ModuleUpdate where
  retired : List ModuleRecord
  active : List ModuleActivation
  mappingChanged : Bool
  deriving DecidableEq

def ModuleUpdate.default : ModuleUpdate := ⟨[], [], false⟩

structure ClonedProcessModules where
  update : ModuleUpdate
  inheritedUnwinderLayout : Bool
  deriving DecidableEq

def moduleRangesOverlap (left right : ModuleRecord) : Bool :=
  decide (left.start < right.stop) && decide (right.start < left.stop)

def sameMappingExceptInodeGeneration (left right : ModuleRecord) : Bool :=
  decide (left.owner = right.owner) && decide (left.start = right.start) &&
    decide (left.stop = right.stop) && decide (left.fileOffset = right.fileOffset) &&
    decide (left.inode = right.inode) && decide (left.deviceMajor = right.deviceMajor) &&
    decide (left.deviceMinor = right.deviceMinor) &&
    decide (left.path.components = right.path.components)

/-- The parts of a module on both sides of its replacement. -/
def splitModuleAround (old replacement : ModuleRecord) : List ModuleRecord :=
  let left := if old.start < replacement.start then
      [{ old with id := 0, stop := min replacement.start old.stop }]
    else []
  let right := if replacement.stop < old.stop then
      let start := max replacement.stop old.start
      [{ old with
          id := 0
          start := start
          fileOffset := saturatingAdd old.fileOffset (start - old.start) }]
    else []
  left ++ right

namespace ModuleIndexGroup

/-- Some entry reaches over the start of the next one. -/
def anyOverlap : List ModuleIndexEntry → Bool
  | first :: second :: rest => decide (second.start < first.stop) || anyOverlap (second :: rest)
  | _ => false

def finish (entries : List ModuleIndexEntry) : ModuleIndexGroup :=
  let entries := sortByKey (fun e => toLex (e.start.toNat, e.id.toNat)) entries
  if anyOverlap entries then ⟨sortByKey (fun e => e.id.toNat) entries, true⟩
  else ⟨entries, false⟩

def rebuild (modules : List ModuleRecord) : ModuleIndexGroup :=
  finish (modules.map ModuleIndexEntry.of)

def find (group : ModuleIndexGroup) (address : UInt64) : Option ModuleIndexEntry :=
  if group.hasOverlaps then
    group.entries.reverse.find? fun e => decide (e.start ≤ address) && decide (address < e.stop)
  else
    let idx := FrameContexts.partitionPoint (fun e => decide (e.start ≤ address)) group.entries
    if idx = 0 then none
    else match group.entries[idx - 1]? with
      | none => none
      | some entry => if address < entry.stop then some entry else none

end ModuleIndexGroup

def ModuleIndex.find (index : ModuleIndex) (processId : Int32) (address : UInt64) :
    FrameMode → Option ModuleIndexEntry
  | .user => (index.byProcess.lookup processId).bind fun group => group.find address
  | .kernel => index.kernel.find address
  | .truncatedStackMarker => none

namespace ModuleTable

/-- `self.active[&id]`. -/
def activeModule (table : ModuleTable) (id : UInt32) : Except Stop ModuleRecord :=
  match table.active.lookup id with
  | some module => .ok module
  | none => .error (.panic "no entry found for key")

/-- The first of the ids whose module satisfies the predicate. -/
def findActive (table : ModuleTable) (p : ModuleRecord → Bool) :
    List UInt32 → Except Stop (Option UInt32)
  | [] => .ok none
  | id :: ids => do
      let known ← table.activeModule id
      if p known then return some id else table.findActive p ids

/-- The keys of a process, in order. -/
def startKeys (table : ModuleTable) (processId : Int32) : List StartKey :=
  ((table.activeByProcess.lookup processId).map fun keys => keys.entries.map (·.1)).getD []

def processModuleIds (table : ModuleTable) (processId : Int32) : List UInt32 :=
  (table.startKeys processId).map (·.id)

def isCompatible (module known : ModuleRecord) : Bool :=
  decide (known.inodeGeneration ≠ 0) && sameMappingExceptInodeGeneration known module

def findCompatibleActive (table : ModuleTable) (module : ModuleRecord) :
    Except Stop (Option UInt32) :=
  match table.activeByKey.lookup (identityOf module) with
  | some id => .ok (some id)
  | none =>
      if module.inodeGeneration ≠ 0 then .ok none
      else match module.pid with
        | some pid => table.findActive (isCompatible module)
            (((table.startKeys pid.get).filter fun key => key.start = module.start).map (·.id))
        | none => .ok (((table.active.entries.filter fun e => isCompatible module e.2).map
            (·.1)).min?)

/-- The predecessor if it reaches into the module, and whatever starts inside. -/
def overlappingModuleIds (table : ModuleTable) (processId : Int32) (module : ModuleRecord) :
    Except Stop (List UInt32) := do
  let keys := table.startKeys processId
  let before ← match keys.reverse.find? fun key => decide (key.start ≤ module.start) with
    | none => .ok []
    | some key => do
        let known ← table.activeModule key.id
        .ok (if module.start < known.stop then [key.id] else [])
  let inside := (keys.filter fun key => module.start < key.start).takeWhile
    fun key => key.start < module.stop
  return before ++ inside.map (·.id)

/-- `overlapping.retain`. -/
def retainActive (table : ModuleTable) (p : ModuleRecord → Bool) :
    List UInt32 → Except Stop (List UInt32)
  | [] => .ok []
  | id :: ids => do
      let known ← table.activeModule id
      let kept ← table.retainActive p ids
      return if p known then id :: kept else kept

/-- The remaining parts of the modules around a replacement, each with its source. -/
def survivors (table : ModuleTable) (module : ModuleRecord) :
    List UInt32 → Except Stop (List (UInt32 × ModuleRecord))
  | [] => .ok []
  | id :: ids => do
      let known ← table.activeModule id
      let rest ← table.survivors module ids
      return (splitModuleAround known module).map (fun part => (id, part)) ++ rest

def markDirty (table : ModuleTable) (processId : Int32) : ModuleTable :=
  { table with dirtyProcesses := table.dirtyProcesses.insert processId }

def removeProcessActive (table : ModuleTable) (module : ModuleRecord) : ModuleTable :=
  match module.pid with
  | none => table
  | some pid =>
      match table.activeByProcess.lookup pid.get with
      | none => table
      | some keys =>
          let keys := keys.remove ⟨module.start, module.id⟩
          if keys.entries = [] then
            { table with activeByProcess := table.activeByProcess.erase pid.get }
          else { table with activeByProcess := table.activeByProcess.insert pid.get keys }

/-- Take a module out of the maps. -/
def forget (table : ModuleTable) (id : UInt32) (module : ModuleRecord) : ModuleTable :=
  ({ table with
      active := table.active.erase id
      activeByKey := table.activeByKey.erase (identityOf module) } :
    ModuleTable).removeProcessActive module

/-- Enter a module whose record is written. -/
def enter (table : ModuleTable) (module : ModuleRecord) : ModuleTable :=
  let table := { table with
    nextId := table.nextId + 1
    activeByKey := table.activeByKey.insert (identityOf module) module.id }
  let table := match module.pid with
    | some pid =>
        ({ table with
            activeByProcess := table.activeByProcess.insert pid.get
              (((table.activeByProcess.lookup pid.get).getD .empty).insert
                ⟨module.start, module.id⟩ ()) } : ModuleTable).markDirty pid.get
    | none => { table with kernelIndexDirty := true }
  { table with active := table.active.insert module.id module }

/-- The modules of some ids. -/
def activeModules (table : ModuleTable) : List UInt32 → Except Stop (List ModuleRecord)
  | [] => .ok []
  | id :: ids => do
      let module ← table.activeModule id
      let modules ← table.activeModules ids
      return module :: modules

def rebuildProcess (table : ModuleTable) (index : ModuleIndex) (processId : Int32) :
    Except Stop ModuleIndex :=
  match table.activeByProcess.lookup processId with
  | none => .ok { index with byProcess := index.byProcess.erase processId }
  | some _ => do
      let modules ← table.activeModules (table.processModuleIds processId)
      return { index with byProcess := index.byProcess.insert processId (.rebuild modules) }

def rebuildProcesses (table : ModuleTable) :
    List Int32 → ModuleIndex → Except Stop ModuleIndex
  | [], index => .ok index
  | processId :: processIds, index => do
      let index ← table.rebuildProcess index processId
      table.rebuildProcesses processIds index

def kernelModules (table : ModuleTable) : List ModuleRecord :=
  (table.active.entries.map fun e => e.2).filter (·.isKernel)

def rebuildDirtyIndexGroups (table : ModuleTable) : Except Stop ModuleTable := do
  let index ← table.rebuildProcesses table.dirtyProcesses table.index
  let index := if table.kernelIndexDirty then
      { index with kernel := .rebuild table.kernelModules }
    else index
  return { table with index := index, dirtyProcesses := [], kernelIndexDirty := false }

def rebuildIndexIfNeeded (table : ModuleTable) : Except Stop ModuleTable :=
  if table.dirtyProcesses ≠ [] ∨ table.kernelIndexDirty then table.rebuildDirtyIndexGroups
  else .ok table

end ModuleTable

/-- A table and the writer that its changes go to. -/
structure Recorder (σ : Type) where
  table : ModuleTable
  writer : σ

section

variable {σ : Type} (write : Op → σ → Except Stop Unit × σ)

abbrev Recording (σ : Type) := Attempt (Recorder σ) Stop

def emit (op : Op) : Recording σ Unit := fun s =>
  let (result, writer) := write op s.writer
  (result, { s with writer := writer })

/-- Read the table. -/
def ask {α : Type} (f : ModuleTable → Except Stop α) : Recording σ α := fun s => (f s.table, s)

def change (f : ModuleTable → ModuleTable) : Recording σ Unit := fun s =>
  (.ok (), { s with table := f s.table })

def nextModuleId : Recording σ UInt32 := ask fun table => nextSpoolId table.nextId "module"

/-- Record a module for frames that are pinned to it; it is never found by an address. -/
def recordPinnedModule (module : ModuleRecord) : Recording σ ModuleRecord := do
  let id ← nextModuleId
  emit write (.writeModule { module with id := id })
  change fun table => { table with nextId := table.nextId + 1 }
  emit write (.writeModuleDeactivationOne id)
  return { module with id := id }

def internWithoutOverlap (module : ModuleRecord) : Recording σ UInt32 := do
  let known ← ask fun table => .ok (table.activeByKey.lookup (identityOf module))
  match known with
  | some id => return id
  | none =>
      let id ← nextModuleId
      emit write (.writeModule { module with id := id })
      change fun table => table.enter { module with id := id }
      return id

def retireAll : List UInt32 → Recording σ (List ModuleRecord)
  | [] => return []
  | id :: ids => do
      let known ← ask fun table => .ok (table.active.lookup id)
      match known with
      | none => retireAll ids
      | some known =>
          change fun table => table.forget id known
          emit write (.writeModuleDeactivationOne id)
          let retired ← retireAll ids
          return known :: retired

def internSurvivors : List (UInt32 × ModuleRecord) → Recording σ (List ModuleActivation)
  | [] => return []
  | (sourceId, survivor) :: rest => do
      let id ← internWithoutOverlap write survivor
      let module ← ask fun table => table.activeModule id
      let activations ← internSurvivors rest
      return ⟨module, some sourceId⟩ :: activations

/-- Retire what a mapping of the process replaces, and keep the remaining parts. -/
def replaceOverlapping (processId : Int32) (module : ModuleRecord) :
    Recording σ (List ModuleRecord × List ModuleActivation) := do
  let overlapping ← ask fun table => table.overlappingModuleIds processId module
  let overlapping ← ask fun table =>
    table.retainActive (fun known => moduleRangesOverlap known module) overlapping
  if overlapping = [] then return ([], [])
  let survivors ← ask fun table => table.survivors module overlapping
  change fun table => table.markDirty processId
  let retired ← retireAll write overlapping
  let activations ← internSurvivors write survivors
  return (retired, activations)

def applyModule (module : ModuleRecord) : Recording σ ModuleUpdate := do
  if module.stop ≤ module.start then return .default
  let compatible ← ask fun table => table.findCompatibleActive module
  match compatible with
  | some id =>
      let known ← ask fun table => table.activeModule id
      return ⟨[], [⟨known, none⟩], false⟩
  | none =>
      let (retired, activations) ← match module.pid with
        | some pid => replaceOverlapping write pid.get module
        | none => pure ([], [])
      let id ← internWithoutOverlap write module
      let known ← ask fun table => table.activeModule id
      return ⟨retired, activations ++ [⟨known, none⟩], true⟩

def removeAll : List UInt32 → Recording σ Unit
  | [] => return ()
  | id :: ids => do
      let known ← ask fun table => .ok (table.active.lookup id)
      match known with
      | none => throw (invalidData "active process module index was inconsistent")
      | some known =>
          change fun table => { table with
            active := table.active.erase id
            activeByKey := table.activeByKey.erase (identityOf known) }
          removeAll ids

/-- Returns the ids that are handed to the callback. -/
def deactivateProcessModules (processId : Int32) : Recording σ (List UInt32) := do
  let known ← ask fun table => .ok (table.activeByProcess.lookup processId)
  match known with
  | none => return []
  | some keys =>
      change fun table => ({ table with
        activeByProcess := table.activeByProcess.erase processId } :
          ModuleTable).markDirty processId
      removeAll (keys.entries.map fun e => e.1.id)
      emit write (.writeModuleDeactivation processId)
      return keys.entries.map fun e => e.1.id

/-- Let the last activation come from the given module. -/
def withSource (sourceId : UInt32) (activations : List ModuleActivation) :
    Except Stop (List ModuleActivation) :=
  match activations.getLast? with
  | none => .error (invalidData "inherited module produced no activation")
  | some last => .ok (activations.dropLast ++ [{ last with sourceModuleId := some sourceId }])

/-- Enter the modules of a parent for its child. -/
def inheritAll (childPid : Pid) (childHasModules : Bool) :
    List UInt32 → ModuleUpdate → Recording σ ModuleUpdate
  | [], combined => return combined
  | sourceId :: sourceIds, combined => do
      let source ← ask fun table => table.activeModule sourceId
      let inherited := { source with id := 0, owner := .process childPid }
      if childHasModules then
        let update ← applyModule write inherited
        let activations ← ask fun _ => withSource sourceId update.active
        inheritAll childPid childHasModules sourceIds
          ⟨combined.retired ++ update.retired, combined.active ++ activations,
            combined.mappingChanged || update.mappingChanged⟩
      else
        let id ← internWithoutOverlap write inherited
        let module ← ask fun table => table.activeModule id
        inheritAll childPid childHasModules sourceIds
          ⟨combined.retired, combined.active ++ [⟨module, some sourceId⟩], true⟩

def cloneProcessModules (parentProcessId childProcessId : Int32) :
    Recording σ ClonedProcessModules := do
  let childPid ← ask fun _ => match Pid.tryFrom childProcessId with
    | .ok pid => .ok pid
    | .error error => .error (invalidInput error)
  let sourceIds ← ask fun table => .ok (table.processModuleIds parentProcessId)
  let childHasModules ← ask fun table =>
    .ok (table.activeByProcess.lookup childProcessId).isSome
  let update ← inheritAll write childPid childHasModules sourceIds .default
  return ⟨update, !childHasModules⟩

/-- Rebuild the index and look an address up in it. -/
def lookupIndex (processId : Int32) (address : UInt64) (mode : FrameMode) :
    Recording σ (Option ModuleIndexEntry) := fun s =>
  match s.table.rebuildIndexIfNeeded with
  | .error e => (.error e, s)
  | .ok table => (.ok (table.index.find processId address mode), { s with table := table })

def frameFor (entry : Option ModuleIndexEntry) (absIp : UInt64) (mode : FrameMode) : FrameRecord :=
  let found := entry.bind fun entry => (checkedSub absIp entry.start).bind fun offset =>
    (checkedAdd offset entry.fileOffset).map fun fileRelativeIp => (entry.id, fileRelativeIp)
  match found with
  | some (id, fileRelativeIp) => ⟨some id, fileRelativeIp, absIp, mode⟩
  | none => ⟨none, absIp, absIp, mode⟩

def resolveFrame (processId : Int32) (absIp : UInt64) (mode : FrameMode) :
    Recording σ FrameRecord := do
  let entry ← lookupIndex processId absIp mode
  return frameFor entry absIp mode

def coversUserPc (processId : Int32) (address : UInt64) : Recording σ Bool := do
  let entry ← lookupIndex processId address .user
  return entry.isSome

end

end StackPulse.Modules
