import StackPulse.Chunks
import StackPulse.Model
import StackPulse.Words

/-!
The module context of a frame: which modules were recorded before it and which
of them had not been deactivated. Frames without a module id are resolved by a
newest-first search of the modules of their owner. The chunked index of that
search is compared with a scan of the recorded modules.
-/
namespace StackPulse.FrameContexts

open Chunks Model Words

def FRAME_CONTEXT_CHUNK_SIZE : ℕ := 1024

instance : NeZero FRAME_CONTEXT_CHUNK_SIZE := ⟨by decide⟩

abbrev ChunkedFrameContext (α : Type) := Chunked FRAME_CONTEXT_CHUNK_SIZE α

/-- The number of leading elements that satisfy the predicate. -/
def partitionPoint {α : Type*} (p : α → Bool) (l : List α) : ℕ := (l.takeWhile p).length

structure FrameLookupContext where
  frameIndex : ℕ
  moduleLimit : ℕ
  deriving DecidableEq

structure SpoolFrameModuleContexts where
  frameModuleLimits : ChunkedFrameContext ℕ
  moduleDeactivatedAt : ChunkedFrameContext (Option ℕ)
  ownedModules : FxHashMap ModuleOwner (ChunkedFrameContext ℕ)

namespace SpoolFrameModuleContexts

def empty : SpoolFrameModuleContexts := ⟨.empty, .empty, ∅⟩

def pushModule (ctx : SpoolFrameModuleContexts) (moduleIndex : ℕ) (owner : ModuleOwner) :
    SpoolFrameModuleContexts :=
  { ctx with
    moduleDeactivatedAt := ctx.moduleDeactivatedAt.push none
    ownedModules := ctx.ownedModules.insert owner
      (((ctx.ownedModules.lookup owner).getD .empty).push moduleIndex) }

/-- Module indices of `owner` below `moduleLimit`, newest first. Only the last
chunk that starts below the limit can straddle it. -/
def ownedModulesBefore (ctx : SpoolFrameModuleContexts) (owner : ModuleOwner)
    (moduleLimit : ℕ) : List ℕ :=
  let chunks := ((ctx.ownedModules.lookup owner).map (·.chunks)).getD []
  let chunks := chunks.take
    (partitionPoint (fun chunk => chunk.head?.any (· < moduleLimit)) chunks)
  chunks.reverse.zipIdx.flatMap fun (chunk, position) =>
    let len := if position = 0 then partitionPoint (· < moduleLimit) chunk else chunk.length
    (chunk.take len).reverse

def pushFrame (ctx : SpoolFrameModuleContexts) (moduleLimit : ℕ) : SpoolFrameModuleContexts :=
  { ctx with frameModuleLimits := ctx.frameModuleLimits.push moduleLimit }

/-- Returns whether the module was active. -/
def deactivateModule (ctx : SpoolFrameModuleContexts) (moduleId deactivatedAt : ℕ) :
    Except Stop (Bool × SpoolFrameModuleContexts) :=
  match ctx.moduleDeactivatedAt.get moduleId with
  | none => .error (.panic "every module has a context")
  | some none =>
      .ok (true, { ctx with
        moduleDeactivatedAt := ctx.moduleDeactivatedAt.set moduleId (some deactivatedAt) })
  | some (some _) => .ok (false, ctx)

/-- Deactivate the listed modules that are still active and return those. -/
def deactivateAll (deactivatedAt : ℕ) :
    List ℕ → SpoolFrameModuleContexts → Except Stop (List ℕ × SpoolFrameModuleContexts)
  | [], ctx => .ok ([], ctx)
  | moduleId :: moduleIds, ctx => do
      let (wasActive, ctx) ← ctx.deactivateModule moduleId deactivatedAt
      let (deactivated, ctx) ← deactivateAll deactivatedAt moduleIds ctx
      return (if wasActive then moduleId :: deactivated else deactivated, ctx)

def deactivateOwner (ctx : SpoolFrameModuleContexts) (owner : ModuleOwner)
    (deactivatedAt : ℕ) : Except Stop (List ℕ × SpoolFrameModuleContexts) :=
  match ctx.ownedModules.lookup owner with
  | none => .ok ([], ctx)
  | some modules => deactivateAll deactivatedAt modules.toList ctx

def forFrameId (ctx : SpoolFrameModuleContexts) (frameId : UInt32) : Option FrameLookupContext :=
  (ctx.frameModuleLimits.get frameId.toNat).map fun moduleLimit =>
    { frameIndex := frameId.toNat, moduleLimit := moduleLimit }

def moduleActive (ctx : SpoolFrameModuleContexts) (moduleIndex : ℕ)
    (context : FrameLookupContext) : Bool :=
  decide (moduleIndex < context.moduleLimit) &&
    match (ctx.moduleDeactivatedAt.get moduleIndex).join with
    | none => true
    | some deactivatedAt => decide (context.frameIndex < deactivatedAt)

end SpoolFrameModuleContexts

structure FrameModuleRef where
  module : ModuleRecord
  fileRelativeIp : UInt64
  deriving DecidableEq

def moduleOwnsFrame (module : ModuleRecord) (processId : Int32) (frame : FrameRecord) : Bool :=
  (match frame.mode with
    | .kernel => module.isKernel
    | .user => module.pid.any fun pid => pid.get == processId
    | .truncatedStackMarker => false) &&
  decide (module.start ≤ frame.absIp) && decide (frame.absIp < module.stop)

def frameModuleRef (module : ModuleRecord) (frame : FrameRecord) : Option FrameModuleRef := do
  let offset ← checkedSub frame.absIp module.start
  let fileRelativeIp ← checkedAdd offset module.fileOffset
  return ⟨module, fileRelativeIp⟩

/-- The owner whose modules a frame can lie in. -/
def frameOwner (processId : Int32) (mode : FrameMode) : Option ModuleOwner :=
  match mode with
  | .kernel => some .kernel
  | .user => (Pid.new processId).map .process
  | .truncatedStackMarker => none

def findUnpinnedFrameModule (modules : List ModuleRecord) (contexts : SpoolFrameModuleContexts)
    (frameId : UInt32) (processId : Int32) (frame : FrameRecord) : Option FrameModuleRef := do
  let context ← contexts.forFrameId frameId
  let owner ← frameOwner processId frame.mode
  let moduleLimit := min context.moduleLimit modules.length
  let module ← (contexts.ownedModulesBefore owner moduleLimit).findSome? fun index =>
    if contexts.moduleActive index context then
      modules[index]?.filter fun module => moduleOwnsFrame module processId frame
    else none
  frameModuleRef module frame

/-- The newest of all modules that is active and around the frame. -/
def moduleForFrameUnbounded (modules : List ModuleRecord) (processId : Int32)
    (frame : FrameRecord) (isActive : ModuleRecord → Bool) : Option FrameModuleRef :=
  if frame.mode = .truncatedStackMarker then none
  else match frame.moduleId with
    | some moduleId => modules[moduleId.toNat]?.map fun module =>
        ⟨module, frame.fileRelativeIp⟩
    | none =>
        (modules.reverse.find? fun module =>
          isActive module && moduleOwnsFrame module processId frame).bind fun module =>
            frameModuleRef module frame

def moduleForFrameWithContext (modules : List ModuleRecord)
    (contexts : SpoolFrameModuleContexts) (frameId : UInt32) (processId : Int32)
    (frame : FrameRecord) : Option FrameModuleRef :=
  if frame.mode = .truncatedStackMarker then none
  else match frame.moduleId with
    | some moduleId => modules[moduleId.toNat]?.map fun module =>
        ⟨module, frame.fileRelativeIp⟩
    | none => findUnpinnedFrameModule modules contexts frameId processId frame

end StackPulse.FrameContexts
