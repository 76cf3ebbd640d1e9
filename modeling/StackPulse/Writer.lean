import StackPulse.Encode

/-!
The spool writer. Frames, stacks and threads are interned: the first use writes a
definition under the next free id, later uses refer to that id. Unpinned frames
are forgotten whenever the modules they could resolve to change.
-/
namespace StackPulse.Writer

open Varint Model Decode Output Encode

/-- The cache a frame is interned in. -/
inductive FrameCache
  | pinned
  | unpinned
  | kernel
  deriving DecidableEq

/-- What the writer remembers of the records it has written. -/
structure Caches where
  lastTimestampNs : UInt64
  pinnedFrameCache : FxHashMap (UInt64 × UInt64) UInt32
  unpinnedFrameCache : FxHashMap (UInt64 × UInt64) UInt32
  kernelFrameCache : FxHashMap (UInt64 × UInt64) UInt32
  kernelModuleIds : Finset UInt32
  nextFrameId : UInt32
  stackCache : FxHashMap (UInt32 × UInt32) UInt32
  threadCache : FxHashMap (Int32 × UInt64) UInt32

namespace Caches

def empty : Caches where
  lastTimestampNs := 0
  pinnedFrameCache := ∅
  unpinnedFrameCache := ∅
  kernelFrameCache := ∅
  kernelModuleIds := ∅
  nextFrameId := 0
  stackCache := ∅
  threadCache := ∅

def frameCache (c : Caches) : FrameCache → FxHashMap (UInt64 × UInt64) UInt32
  | .pinned => c.pinnedFrameCache
  | .unpinned => c.unpinnedFrameCache
  | .kernel => c.kernelFrameCache

def insertFrame (c : Caches) (cache : FrameCache) (key : UInt64 × UInt64) (id : UInt32) :
    Caches :=
  match cache with
  | .pinned => { c with pinnedFrameCache := c.pinnedFrameCache.insert key id }
  | .unpinned => { c with unpinnedFrameCache := c.unpinnedFrameCache.insert key id }
  | .kernel => { c with kernelFrameCache := c.kernelFrameCache.insert key id }

end Caches

structure PerfSpoolWriter (W : Type) extends Caches where
  writer : SpoolOutput W

def compactFrame (frame : FrameRecord) : Except Stop (UInt64 × UInt64) :=
  if frame.mode = .truncatedStackMarker then
    if frame ≠ .truncatedStackMarker then
      .error (invalidInput "invalid truncated stack marker frame")
    else .ok (TRUNCATED_STACK_MARKER_TAG, 0)
  else .ok <| match frame.moduleId with
    | some moduleId => (moduleId.toUInt64 <<< 1, frame.fileRelativeIp)
    | none => ((1 : UInt64) ||| ((if frame.mode = .kernel then 1 else 0 : UInt64) <<< 1),
      frame.absIp)

def nextSpoolId (len : ℕ) (kind : String) : Except Stop UInt32 :=
  if len < 2 ^ 32 then
    if UInt32.ofNat len = NONE_U32 then .error (invalidInput s!"{kind} id space exhausted")
    else .ok (UInt32.ofNat len)
  else .error (invalidInput s!"{kind} id space exhausted")

def checkedSampleTimestampDelta (lastTimestampNs timestampNs : UInt64) : Except Stop Int64 :=
  let delta : ℤ := timestampNs.toNat - lastTimestampNs.toNat
  if -2 ^ 63 ≤ delta ∧ delta < 2 ^ 63 then .ok (Int64.ofInt delta)
  else .error (invalidInput s!"sample timestamp delta {delta} out of range")

def frameCacheOf (frame : FrameRecord) : FrameCache :=
  if frame.moduleId.isSome || frame.isTruncatedStackMarker then .pinned
  else if frame.mode = .kernel then .kernel
  else .unpinned

section

variable {W : Type}

/-- A call on the output. -/
def onWriter {α : Type} (m : Call (SpoolOutput W) α) : Call (PerfSpoolWriter W) α := fun s =>
  let (result, writer) := m s.writer
  (result, { s with writer := writer })

def getCaches : Call (PerfSpoolWriter W) Caches := fun s => (.ok s.toCaches, s)

def modifyCaches (f : Caches → Caches) : Call (PerfSpoolWriter W) Unit := fun s =>
  (.ok (), { s with toCaches := f s.toCaches })

variable (V : IntegerEncoding) [Write W]

def fromWriterWithOrigin (inner : W) (header : SpoolHeader) :
    Except Stop Unit × PerfSpoolWriter W :=
  onWriter (writeHeader V header) { toCaches := .empty, writer := .new inner }

def writeModule (module : ModuleRecord) : Call (PerfSpoolWriter W) Unit := do
  onWriter (writeModuleFields V module)
  modifyCaches fun c => { c with unpinnedFrameCache := ∅ }
  if module.isKernel then
    modifyCaches fun c =>
      { c with kernelModuleIds := insert module.id c.kernelModuleIds, kernelFrameCache := ∅ }

def internThread (processId : Int32) (threadId : UInt64) : Call (PerfSpoolWriter W) UInt32 := do
  let key := (processId, threadId)
  let caches ← getCaches
  match caches.threadCache.lookup key with
  | some id => return id
  | none => do
      let id ← Call.ofExcept (nextSpoolId caches.threadCache.entries.length "thread")
      onWriter (writeRecord V REC_THREAD (id.toUInt64, processId.toInt64, threadId))
      modifyCaches fun c => { c with threadCache := c.threadCache.insert key id }
      return id

def internFrame (frame : FrameRecord) : Call (PerfSpoolWriter W) UInt32 := do
  let cache := frameCacheOf frame
  let key ← Call.ofExcept (compactFrame frame)
  let caches ← getCaches
  match (caches.frameCache cache).lookup key with
  | some id => return id
  | none => do
      let id := caches.nextFrameId
      if id = NONE_U32 then
        Call.ofExcept (.error (invalidInput "frame id space exhausted"))
      onWriter (writeRecord V REC_FRAME (id.toUInt64, key.1, key.2))
      modifyCaches fun c => c.insertFrame cache key id
      -- `checked_add(1)`
      if id.toNat + 1 < 2 ^ 32 then
        modifyCaches fun c => { c with nextFrameId := id + 1 }
      else Call.ofExcept (.error (invalidInput "frame id space exhausted"))
      return id

/-- Intern the nodes of a stack from the root up; the frames stand root first. -/
def internNodes (parent : UInt32) : List FrameRecord → Call (PerfSpoolWriter W) UInt32
  | [] => return parent
  | frame :: frames => do
      let frameId ← internFrame V frame
      let caches ← getCaches
      match caches.stackCache.lookup (parent, frameId) with
      | some stackId => internNodes stackId frames
      | none => do
          let stackId ← Call.ofExcept (nextSpoolId caches.stackCache.entries.length "stack")
          onWriter (writeRecord V REC_STACK
            (stackId.toUInt64, parent.toUInt64, frameId.toUInt64))
          modifyCaches fun c =>
            { c with stackCache := c.stackCache.insert (parent, frameId) stackId }
          internNodes stackId frames

def internStack (frames : List FrameRecord) : Call (PerfSpoolWriter W) (Option UInt32) := do
  let parent ← internNodes V NONE_U32 frames.reverse
  return if parent ≠ NONE_U32 then some parent else none

def writeSampleFrames (timestampNs : UInt64) (processId : Int32) (threadId : UInt64)
    (frames : List FrameRecord) : Call (PerfSpoolWriter W) (Option UInt32) := do
  if frames = [] then return none
  let caches ← getCaches
  let delta ← Call.ofExcept (checkedSampleTimestampDelta caches.lastTimestampNs timestampNs)
  match ← internStack V frames with
  | none => return none
  | some stackId => do
      let threadId ← internThread V processId threadId
      onWriter (writeRecord V REC_SAMPLE (delta, threadId.toUInt64, stackId.toUInt64))
      modifyCaches fun c => { c with lastTimestampNs := timestampNs }
      return some stackId

def writePythonRuntime (timestampNs : UInt64) (processId : Int32) (isPythonRuntime : Bool) :
    Call (PerfSpoolWriter W) Unit :=
  onWriter do
    writeAll [REC_PYTHON_RUNTIME]
    writeVarint V timestampNs
    writeVarint V processId.toInt64
    writeAll [u8From isPythonRuntime]

def writeModuleDeactivation (processId : Int32) : Call (PerfSpoolWriter W) Unit := do
  onWriter do
    writeAll [REC_MODULE_DEACTIVATE]
    writeVarint V processId.toInt64
  modifyCaches fun c => { c with unpinnedFrameCache := ∅ }

def writeModuleDeactivationOne (moduleId : UInt32) : Call (PerfSpoolWriter W) Unit := do
  onWriter do
    writeAll [REC_MODULE_DEACTIVATE_ONE]
    writeVarint V moduleId.toUInt64
  modifyCaches fun c => { c with unpinnedFrameCache := ∅ }
  let caches ← getCaches
  if moduleId ∈ caches.kernelModuleIds then
    modifyCaches fun c =>
      { c with kernelModuleIds := c.kernelModuleIds.erase moduleId, kernelFrameCache := ∅ }

def flush : Call (PerfSpoolWriter W) Unit := onWriter fun out =>
  match out.flush with
  | (.ok (), out) => (.ok (), out)
  | (.error e, out) => (.error (.io e), out)

def PerfSpoolWriter.position (s : PerfSpoolWriter W) : ℕ := s.writer.bytes

end

end StackPulse.Writer
