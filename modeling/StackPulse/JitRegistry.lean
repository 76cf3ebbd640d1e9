import StackPulse.IntervalMap
import StackPulse.JitObjects

/-!
The registry of the GDB JIT interface for one process. A refresh takes a snapshot of the
registrations, reads the images and unwind sections that it needs, takes a second
snapshot and accepts what it has read only if both agree. Changes are collected until
they are drained.
-/
namespace StackPulse.JitRegistry

open OrderedMap IntervalMap Attempts JitProtocol JitObjects StableSort

/-- Times in nanoseconds. -/
def POLL_INTERVAL : ℕ := 100 * 1000 * 1000
def REVALIDATION_INTERVAL : ℕ := 1000 * 1000 * 1000

structure RetryBackoff where
  attempts : ℕ
  retryAt : ℕ
  deriving DecidableEq

/-- Schedule the next attempt, with twice the delay up to eight polls. -/
def RetryBackoff.next (previous : Option RetryBackoff) (poll : ℕ) : RetryBackoff :=
  let attempts := previous.elim 0 fun failure => min (failure.attempts + 1) (2 ^ 8 - 1)
  ⟨attempts, min (poll + 2 ^ min attempts 3) (2 ^ 64 - 1)⟩

/-- A mapping of the process, as far as it decides about descriptors. -/
structure Mapping where
  range : Range
  path : String
  fileOffset : ℕ
  fileIdentity : Option FileIdentity

structure Registry where
  pid : ℤ
  descriptors : List JitDescriptorLocation
  descriptorSearchGeneration : Option ℕ
  objects : BTreeMap JitObjectId JitObject
  codeRanges : BTreeMap ℕ (ℕ × JitObjectId)
  limitWarned : Bool
  permissionWarned : Bool
  loadFailures : BTreeMap JitObjectId RetryBackoff
  refreshBackoff : Option RetryBackoff
  pollCount : ℕ
  stalePaths : List String
  updatesPending : Bool
  lastPoll : Option ℕ
  lastDiscovery : Option (ℕ × ℕ)
  lastDemandRefresh : Option ℕ
  lastRevalidation : Option ℕ
  lastDescriptors : List (ℕ × JitDescriptor)
  needsReconciliation : Bool

inductive Update where
  | removed (path : String)
  | loaded (path : String) (modules : List Module) (symbols : Option (List Symbol))

namespace Registry

def new (pid : ℤ) : Registry where
  pid := pid
  descriptors := []
  descriptorSearchGeneration := none
  objects := .empty
  codeRanges := .empty
  limitWarned := false
  permissionWarned := false
  loadFailures := .empty
  refreshBackoff := none
  pollCount := 0
  stalePaths := []
  updatesPending := false
  lastPoll := none
  lastDiscovery := none
  lastDemandRefresh := none
  lastRevalidation := none
  lastDescriptors := []
  needsReconciliation := true

def reportLimit (r : Registry) (limit : Option String) : Registry :=
  { r with limitWarned := limit.isSome }

/-- The limit that some object has run into. -/
def objectLimit (r : Registry) : Option String :=
  r.objects.entries.findSome? fun e => e.2.unwind.cfi.budgetLimit

def clearObjects (r : Registry) : Registry :=
  { r with
    updatesPending := r.updatesPending || !r.objects.entries.isEmpty
    stalePaths := r.objects.entries.foldl (fun paths e => paths.insert e.1.path) r.stalePaths
    objects := .empty
    codeRanges := .empty
    limitWarned := false
    loadFailures := .empty }

/-- The image that defines a descriptor is still mapped where it was. -/
def ownerMapped (r : Registry) (modules : List Mapping) (old : JitDescriptorLocation) : Bool :=
  old.owner == "/proc/" ++ toString r.pid ++ "/exe" ||
    modules.any fun module =>
      module.path == old.owner && module.fileIdentity == old.ownerIdentity &&
        module.range.contains old.address &&
        old.ownerFileOffset.any fun offset =>
          decide (module.fileOffset + (old.address - module.range.start) < 2 ^ 64) &&
            module.fileOffset + (old.address - module.range.start) == offset

/-- Drop the locations at the address before them. -/
def dedupFrom (last : ℕ) : List JitDescriptorLocation → List JitDescriptorLocation
  | [] => []
  | location :: locations =>
      if location.address = last then dedupFrom last locations
      else location :: dedupFrom location.address locations

def dedupAddresses : List JitDescriptorLocation → List JitDescriptorLocation
  | [] => []
  | location :: locations => location :: dedupFrom location.address locations

/-- Take over the locations that were found, with those of loaded images that were missed. -/
def updateDescriptors (r : Registry) (locations : List JitDescriptorLocation)
    (modules : List Mapping) : Registry :=
  let missed := r.descriptors.filter fun old =>
    !(locations.any fun location => location.address == old.address) && ownerMapped r modules old
  let locations := dedupAddresses (sortByKey JitDescriptorLocation.address (locations ++ missed))
  let r :=
    { r with
      descriptorSearchGeneration :=
        if missed.isEmpty then r.descriptorSearchGeneration else none
      needsReconciliation := r.needsReconciliation || decide (r.descriptors ≠ locations)
      descriptors := locations
      refreshBackoff := none }
  if locations.isEmpty then r.clearObjects else r

end Registry

/-- A registration of the snapshot, with the image it had. -/
def isActive (entries : BTreeMap ℕ JitCodeEntry) (id : JitObjectId) : Bool :=
  (entries.get id.entryAddr).any fun entry => decide (JitObjectId.new id.entryAddr entry = id)

/-- Entries named by a notification that has changed. -/
def changedNotifications (r : Registry) (descriptors : List (ℕ × JitDescriptor)) : List ℕ :=
  descriptors.filterMap fun d =>
    if d.2.actionFlag ≠ 0 ∧ (r.lastDescriptors.any fun old =>
        decide (old.1 = d.1) && decide (old.2 ≠ d.2)) = true then some d.2.relevantEntry
    else none

/-- What the checks of loaded objects have found so far. -/
structure Checks where
  invalidated : List JitObjectId
  unwindUpdates : List (JitObjectId × UnwindUpdate)
  failedChecks : List (JitObjectId × Bool)
  checked : List JitObjectId
  remaining : ℕ

def Fault.isLimit : Fault → Bool
  | .limit _ => true
  | _ => false

section

variable (world : World) (poll : ℕ) (revalidate : Bool) (r : Registry) (snapshot : JitSnapshot)

def Checks.noteChecked (checks : Checks) (id : JitObjectId) : Checks :=
  if (r.loadFailures.get id).isSome then { checks with checked := checks.checked ++ [id] }
  else checks

/-- Take up what an inspection has found. -/
def Checks.noteChange (checks : Checks) (id : JitObjectId) (found : ObjectChange × ℕ) : Checks :=
  match found with
  | (.image, remaining) =>
      { checks with invalidated := checks.invalidated ++ [id], remaining := remaining }
  | (.unwind update, remaining) =>
      Checks.noteChecked r
        { checks with
          unwindUpdates := checks.unwindUpdates ++ [(id, update)]
          remaining := remaining } id
  | (.unchanged, _) => checks.noteChecked r id

/-- An object that could not be read keeps its part of the budget. -/
def Checks.noteFault (checks : Checks) (id : JitObjectId) : Fault → Access Checks
  | .underflow => throw .underflow
  | fault =>
      return { checks with failedChecks := checks.failedChecks ++ [(id, Fault.isLimit fault)] }

/-- Read an object again, with its own part of the budget given back. -/
def recheckObject (checks : Checks) (id : JitObjectId) (object : JitObject) : Access Checks :=
  handle (object.inspect world id (checks.remaining + loadedCfiSize object))
    (fun found => return checks.noteChange r id found) (checks.noteFault id)

def checkObject (checks : Checks) (entry : JitObjectId × JitObject) : Access Checks :=
  let (id, object) := entry
  if isActive snapshot.entries id = false then return checks
  else if id.entryAddr ∈ changedNotifications r snapshot.descriptors then
    return { checks with
      invalidated := checks.invalidated ++ [id]
      remaining := checks.remaining + loadedCfiSize object }
  else if (r.loadFailures.get id).any (fun failure => decide (poll < failure.retryAt)) = true ∨
      (revalidate = false ∧ r.loadFailures.get id = none) then return checks
  else recheckObject world r checks id object

def checkObjects : List (JitObjectId × JitObject) → Checks → Access Checks
  | [], checks => return checks
  | entry :: entries, checks => do
      let checks ← checkObject world poll revalidate r snapshot checks entry
      checkObjects entries checks

/-- The budget beside the objects that stay registered. -/
def initialChecks : Checks where
  invalidated := []
  unwindUpdates := []
  failedChecks := []
  checked := []
  remaining := MAX_JIT_TOTAL_CFI_SIZE -
    (r.objects.retain fun id _ => isActive snapshot.entries id).sum loadedCfiSize

/-- Registrations to load, in the order of admission. -/
def pendingIds (invalidated : List JitObjectId) : List JitObjectId :=
  sortByKey id <| snapshot.entries.entries.filterMap fun e =>
    let id := JitObjectId.new e.1 e.2
    if ((r.objects.get id).isNone = true ∨ id ∈ invalidated) ∧
        (r.loadFailures.get id).any (fun failure => decide (poll < failure.retryAt)) = false then
      some id
    else none

/-- The candidate for a registration that could not be loaded. -/
def unloaded (id : JitObjectId) : Fault → Access (JitObjectId × Except Fault JitObject)
  | .underflow => throw .underflow
  | fault => return (id, .error fault)

def loadAll : List JitObjectId → ℕ → Access (List (JitObjectId × Except Fault JitObject))
  | [], _ => return []
  | id :: ids, remaining =>
      handle (JitObject.load world id remaining)
        (fun loaded => do
          let updates ← loadAll ids loaded.2
          return (id, .ok loaded.1) :: updates)
        fun fault => do
          let update ← unloaded id fault
          let updates ← loadAll ids remaining
          return update :: updates

/-- Everything read between two snapshots. -/
structure Candidate where
  checks : Checks
  updates : List (JitObjectId × Except Fault JitObject)

def collect : Access Candidate := do
  let checks ← fun time => checkObjects world poll revalidate r snapshot
    (world.iteration time r.objects.entries) (initialChecks r snapshot) time
  let updates ← loadAll world (pendingIds poll r snapshot checks.invalidated) checks.remaining
  return ⟨checks, updates⟩

end

namespace Registry

def removeRanges (codeRanges : BTreeMap ℕ (ℕ × JitObjectId)) (ranges : List Range) :
    BTreeMap ℕ (ℕ × JitObjectId) :=
  ranges.foldl (fun m range => m.remove range.start) codeRanges

def insertRanges (codeRanges : BTreeMap ℕ (ℕ × JitObjectId)) (id : JitObjectId)
    (ranges : List Range) : BTreeMap ℕ (ℕ × JitObjectId) :=
  ranges.foldl (fun m range => m.insert range.start (range.stop, id)) codeRanges

/-- Objects that are gone or have another image are retired. -/
def retire (r : Registry) (entries : BTreeMap ℕ JitCodeEntry) (invalidated : List JitObjectId) :
    Registry :=
  let active := fun id => isActive entries id && decide (id ∉ invalidated)
  let retired := r.objects.retain fun id _ => !active id
  { r with
    objects := r.objects.retain fun id _ => active id
    stalePaths := retired.entries.foldl (fun paths e => paths.insert e.1.path) r.stalePaths
    codeRanges := removeRanges r.codeRanges (retired.entries.flatMap fun e => e.2.codeRanges)
    updatesPending := r.updatesPending || !retired.entries.isEmpty }

def setFailure (r : Registry) (poll : ℕ) (id : JitObjectId) : Registry :=
  { r with loadFailures := r.loadFailures.insert id (.next (r.loadFailures.get id) poll) }

def settleFailures (r : Registry) (entries : BTreeMap ℕ JitCodeEntry)
    (checked : List JitObjectId) : Registry :=
  { r with
    loadFailures := checked.foldl (fun failures id => failures.remove id)
      (r.loadFailures.retain fun id _ => isActive entries id) }

def noteFailed (poll : ℕ) (r : Registry) (failed : JitObjectId × Bool) : Registry :=
  let r :=
    if failed.2 = true then
      match r.objects.get failed.1 with
      | some object => { r with objects := r.objects.insert failed.1 object.markBudgetLimited }
      | none => r
    else r
  r.setFailure poll failed.1

def applyUnwind (r : Registry) (update : JitObjectId × UnwindUpdate) : Registry :=
  match r.objects.get update.1 with
  | some object =>
      { r with
        objects := r.objects.insert update.1 (object.applyUnwind update.2)
        updatesPending := true }
  | none => r

/-- A loaded object is admitted if it meets no other code. -/
def adopt (poll : ℕ) (r : Registry) (update : JitObjectId × Except Fault JitObject) : Registry :=
  match update.2 with
  | .ok object =>
      if object.codeRanges.any (fun range =>
          meets Prod.fst r.codeRanges range.start range.stop) = true then
        r.setFailure poll update.1
      else
        { r with
          codeRanges := insertRanges r.codeRanges update.1 object.codeRanges
          objects := r.objects.insert update.1 object
          updatesPending := true
          loadFailures := r.loadFailures.remove update.1 }
  | .error _ => r.setFailure poll update.1

/-- The single place where a refresh changes what is registered. -/
def commit (r : Registry) (poll : ℕ) (snapshot : JitSnapshot) (candidate : Candidate) : Registry :=
  let r := r.retire snapshot.entries candidate.checks.invalidated
  let r := r.settleFailures snapshot.entries candidate.checks.checked
  let r := candidate.checks.failedChecks.foldl (noteFailed poll) r
  let r := candidate.checks.unwindUpdates.foldl applyUnwind r
  let r := candidate.updates.foldl (adopt poll) r
  r.reportLimit r.objectLimit

end Registry

/-- A call on a registry. What it has changed up to a failure stays changed. -/
abbrev Call (α : Type) := Attempt (Registry × ℕ) Fault α

/-- A reading that only looks at the registry. -/
def reading {α : Type} (m : Registry → Access α) : Call α := fun s =>
  ((m s.1 s.2).1, (s.1, (m s.1 s.2).2))

def borrow : Call Registry := fun s => (.ok s.1, s)

def change (f : Registry → Registry) : Call Unit := fun s => (.ok (), (f s.1, s.2))

variable (world : World)

def now : Call ℕ := fun s => (.ok (world.clock s.2), s)

def elapsed (interval now : ℕ) (last : Option ℕ) : Bool :=
  last.all fun last => decide (interval ≤ now - last)

/-- The registrations are up to date with a snapshot. -/
def Registry.noteSnapshot (r : Registry) (snapshot : JitSnapshot) : Registry :=
  { r with needsReconciliation := false, lastDescriptors := snapshot.descriptors }

def noteRevalidation (revalidate : Bool) : Call Unit :=
  if revalidate then do
    let revalidated ← now world
    change fun r => { r with lastRevalidation := some revalidated }
  else return ()

/-- Read, check that nothing has moved meanwhile, and accept. -/
def reconcile (poll : ℕ) (revalidate : Bool) (snapshot : JitSnapshot) : Call Unit := do
  let candidate ← reading fun r => collect world poll revalidate r snapshot
  let current ← reading fun r => readRegistry world.toMemory r.descriptors
  if current ≠ snapshot then change fun r => { r with needsReconciliation := true }
  else do
    change fun r => r.noteSnapshot snapshot
    noteRevalidation world revalidate
    change fun r => r.commit poll snapshot candidate

def refreshObjects (poll : ℕ) : Call Unit := do
  let descriptors ← reading fun r => readDescriptors world.toMemory r.descriptors
  let checked ← now world
  let r ← borrow
  let revalidate := elapsed REVALIDATION_INTERVAL checked r.lastRevalidation
  let retryDue := r.loadFailures.entries.any fun e => decide (e.2.retryAt ≤ poll)
  if descriptors = r.lastDescriptors ∧ revalidate = false ∧ retryDue = false ∧
      r.needsReconciliation = false then return ()
  else do
    let snapshot ← reading fun _ => readSnapshot world.toMemory descriptors
    reconcile world poll revalidate snapshot

/-- A refresh that failed is tried again later. -/
def Registry.refreshFailed (r : Registry) (poll : ℕ) (fault : Fault) : Registry :=
  let r :=
    match fault with
    | .limit text => r.reportLimit (some text)
    | .read .permissionDenied => { r with permissionWarned := true }
    | _ => r
  { r with refreshBackoff := some (.next r.refreshBackoff poll) }

/-- Search for descriptors when the mappings have changed, or again after a while. -/
def Registry.discover (r : Registry) (now generation : ℕ) (modules : List Mapping)
    (found : List JitDescriptorLocation × Bool) : Registry :=
  if r.descriptorSearchGeneration ≠ some generation ∧ r.lastDiscovery.all (fun last =>
      decide (last.1 ≠ generation) || decide (REVALIDATION_INTERVAL ≤ now - last.2)) = true then
    let r :=
      { r with
        lastDiscovery := some (generation, now)
        descriptorSearchGeneration := some generation }
    let r := r.updateDescriptors found.1 modules
    if found.2 = false then { r with descriptorSearchGeneration := none } else r
  else r

/-- The clock of registration polls. -/
def Registry.countPoll (r : Registry) : Registry :=
  { r with pollCount := min (r.pollCount + 1) (2 ^ 64 - 1) }

/-- Refresh the objects, and note how that went. -/
def attemptRefresh (poll : ℕ) : Call Unit :=
  handle (refreshObjects world poll) (fun _ => change fun r => { r with refreshBackoff := none })
    fun
    | .underflow => throw .underflow
    | fault => change fun r => r.refreshFailed poll fault

/-- The registration poll of a refresh. -/
def pollObjects : Call Unit := do
  let r ← borrow
  if r.descriptors = [] then return ()
  else do
    change Registry.countPoll
    if r.refreshBackoff.any (fun failure => decide (r.pollCount < failure.retryAt)) = true then
      return ()
    else attemptRefresh world r.pollCount

/-- Refresh the descriptors, which discovery finds in the mappings, and the registrations. -/
def refresh (generation : ℕ) (modules : List Mapping)
    (found : List JitDescriptorLocation × Bool) : Call Unit := do
  let r ← borrow
  if r.descriptorSearchGeneration = some generation ∧ r.descriptors = [] then return ()
  else do
    let started ← now world
    if r.lastPoll.any (fun last => decide (started - last < POLL_INTERVAL)) = true ∧
        r.lastDiscovery.any (fun last => decide (last.1 ≠ generation)) = false then return ()
    else do
      change fun r => { r with lastPoll := some started }
      change fun r => r.discover started generation modules found
      pollObjects world

def Registry.markBudgetLimited (r : Registry) (id : JitObjectId) : Registry :=
  match r.objects.get id with
  | some object => { r with objects := r.objects.insert id object.markBudgetLimited }
  | none => r

def Registry.acceptUnwind (r : Registry) (id : JitObjectId) (object : JitObject)
    (update : UnwindUpdate) : Registry :=
  let r :=
    { r with
      objects := r.objects.insert id (object.applyUnwind update)
      loadFailures := r.loadFailures.remove id
      updatesPending := true }
  if r.limitWarned then r.reportLimit r.objectLimit else r

/-- New unwind data for one object, if nothing has moved since the snapshot. -/
def publishUnwind (id : JitObjectId) (snapshot : JitSnapshot) (update : UnwindUpdate) :
    Call Bool :=
  handle (reading fun r => readRegistry world.toMemory r.descriptors)
    (fun current =>
      if current = snapshot then do
        let r ← borrow
        match r.objects.get id with
        | none => return false
        | some object => do
            change fun r => r.acceptUnwind id object update
            return true
      else return false)
    fun _ => return false

/-- What an inspection on demand leads to. -/
def demandChange (id : JitObjectId) (snapshot : JitSnapshot) : ObjectChange → Call Bool
  | .unwind update => publishUnwind world id snapshot update
  | .image => do
      change fun r => { r with lastRevalidation := none }
      return false
  | .unchanged => return false

def demandFault (id : JitObjectId) : Fault → Call Bool
  | .limit text => do
      change fun r => (r.markBudgetLimited id).reportLimit (some text)
      return false
  | .underflow => throw .underflow
  | .read _ => return false

/-- Check one object between two snapshots, with its own part of the budget given back. -/
def demandObject (id : JitObjectId) (object : JitObject) (snapshot : JitSnapshot) :
    Call Bool := do
  let others ← reading fun r => debit (r.objects.sum loadedCfiSize) (loadedCfiSize object)
  handle (reading fun _ => object.inspect world id (MAX_JIT_TOTAL_CFI_SIZE - others))
    (fun found => demandChange world id snapshot found.1) (demandFault id)

def demandRefresh (id : JitObjectId) (object : JitObject) : Call Bool :=
  handle (reading fun r => readRegistry world.toMemory r.descriptors)
    (fun snapshot =>
      if isActive snapshot.entries id = false then do
        change fun r => { r with needsReconciliation := true }
        return false
      else demandObject world id object snapshot)
    fun _ => return false

/-- The owner of the code is refreshed unless it is waiting or has no unwind section. -/
def demandOwner (now : ℕ) (id : JitObjectId) : Call Bool := do
  let r ← borrow
  match r.objects.get id with
  | none => return false
  | some object =>
      if (r.loadFailures.get id).any (fun failure => decide (r.pollCount < failure.retryAt)) = true
      then return false
      else do
        change fun r => { r with lastDemandRefresh := some now }
        if object.unwind.cfi = .absent then return false
        else demandRefresh world id object

/-- Refresh only the registration whose unwind rules failed, at most once a second. -/
def refreshForAddress (address : ℕ) : Call Bool := do
  let now ← now world
  let r ← borrow
  if r.lastDemandRefresh.any (fun last => decide (now - last < REVALIDATION_INTERVAL)) = true then
    return false
  else
    match covering Prod.fst r.codeRanges address with
    | none => do
        change fun r => { r with lastDemandRefresh := some now }
        return false
    | some (_, (_, id)) => demandOwner world now id

/-- The object has something that was not handed over yet. -/
def JitObject.isPending (object : JitObject) : Bool :=
  !object.pendingModules.isEmpty || object.symbols.isSome

def JitObject.drained (object : JitObject) : JitObject :=
  { object with pendingModules := [], symbols := none }

/-- Retirements come before loads; within each, the order is that of the hash tables. -/
def drainUpdates (time : ℕ) (r : Registry) : List Update × Registry :=
  if r.updatesPending = false then ([], r)
  else
    ((world.iteration time r.stalePaths).map .removed ++
        (world.iteration time r.objects.entries).filterMap fun e =>
          if JitObject.isPending e.2 = true then
            some (.loaded e.1.path e.2.pendingModules e.2.symbols)
          else none,
      { r with
        updatesPending := false
        stalePaths := []
        objects := r.objects.mapValues JitObject.drained })

inductive Op where
  | refresh (generation : ℕ) (modules : List Mapping) (found : List JitDescriptorLocation × Bool)
  | refreshForAddress (address : ℕ)
  | drainUpdates

/-- A call gives the updates that it hands out. -/
def step : Op → Call (List Update)
  | .refresh generation modules found => do
      refresh world generation modules found
      return []
  | .refreshForAddress address => do
      let _ ← refreshForAddress world address
      return []
  | .drainUpdates => fun s =>
      (.ok (drainUpdates world s.2 s.1).1, ((drainUpdates world s.2 s.1).2, s.2))

/-- Time passes between two calls. -/
def tick : Call Unit := fun s => (.ok (), (s.1, s.2 + 1))

def run : List Op → Call (List Update)
  | [] => return []
  | op :: ops => do
      let updates ← step world op
      tick
      let more ← run ops
      return updates ++ more

end StackPulse.JitRegistry
