import StackPulse.OpenSpool

/-!
The incremental reader of a growing spool. It keeps its definitions, its
position and its timestamp baseline between polls, decodes each complete record
once and hands the samples out in bounded batches. A batch also ends behind a
record that deactivates modules.
-/
namespace StackPulse.TailReader

open Bytes Varint Model SpoolCursor Decode Records OpenSpool

def MAX_BATCH_SAMPLES : ℕ := 16 * 1024

structure Tail extends ReaderState where
  visibleLen : Option ℕ
  mmap : Mmap
  position : ℕ
  header : SpoolHeader
  samples : List SampleRecord
  initialSamplesPending : Bool
  observedProcesses : List Pid
  observedProcessSet : Finset Pid
  retiredProcesses : List Pid
  retiredModules : List UInt32
  kernelMappingsChanged : Bool
  moreAvailable : Bool

/-- What one poll hands out: the reader with its buffers, and the ranges of the
definitions that were added. -/
structure TailBatch where
  tail : Tail
  modules : ℕ × ℕ
  frames : ℕ × ℕ

namespace TailBatch

def samples (batch : TailBatch) : List SampleRecord := batch.tail.samples

def hasMore (batch : TailBatch) : Bool := batch.tail.moreAvailable

/-- The processes observed in this batch, in first-seen order. -/
def processes (batch : TailBatch) : List Pid := batch.tail.observedProcesses

end TailBatch

namespace Tail

def cursor (tail : Tail) : Cursor := ⟨tail.mmap, tail.position⟩

def observeProcess (tail : Tail) (process : Pid) : Tail :=
  if tail.observedProcesses.getLast? ≠ some process ∧ process ∉ tail.observedProcessSet then
    { tail with
      observedProcesses := tail.observedProcesses ++ [process]
      observedProcessSet := insert process tail.observedProcessSet }
  else tail

def observeOption (tail : Tail) (process : Option Pid) : Tail :=
  match process with
  | some process => tail.observeProcess process
  | none => tail

/-- `definitions.modules[index]`. -/
def moduleAt (tail : Tail) (index : ℕ) : Except Stop ModuleRecord :=
  match tail.modules[index]? with
  | some module => .ok module
  | none => .error (.panic "module index")

/-- Commit a decoded record to the definitions and to the batch. -/
def commitRecord (tail : Tail) : DecodedSpoolRecord → Except Stop Tail
  | .module module =>
      let tail :=
        { tail with
          toReaderState := tail.pushModule module
          kernelMappingsChanged := tail.kernelMappingsChanged || module.isKernel }
      .ok (tail.observeOption module.pid)
  | .frame frame => .ok { tail with toReaderState := tail.pushFrame frame }
  | .stack node => .ok { tail with toReaderState := tail.pushStack node }
  | .thread thread => .ok { tail with toReaderState := tail.pushThread thread }
  | .sample sample =>
      -- decoding the sample moved the baseline of the timestamps
      let tail := { tail with lastTimestampNs := sample.timestampNs }
      let tail := tail.observeProcess sample.processId
      .ok { tail with samples := tail.samples ++ [sample] }
  | .pythonRuntime record => .ok (tail.observeProcess record.processId)
  | .deactivateProcess processId => do
      let (deactivated, state) ← tail.toReaderState.deactivateProcess processId
      let retired ← deactivated.mapM tail.moduleAt
      let tail :=
        { tail with
          toReaderState := state
          retiredModules := tail.retiredModules ++ retired.map ModuleRecord.id }
      let tail := tail.observeProcess processId
      return { tail with retiredProcesses := tail.retiredProcesses ++ [processId] }
  | .deactivateModule moduleId => do
      let module ← tail.moduleAt moduleId
      let state ← tail.toReaderState.deactivateModule moduleId
      let tail :=
        { tail with
          toReaderState := state
          retiredModules := tail.retiredModules ++ [module.id]
          kernelMappingsChanged := tail.kernelMappingsChanged || module.isKernel }
      return tail.observeOption module.pid

end Tail

/-- Records that end a batch. -/
def endsBatch : DecodedSpoolRecord → Bool
  | .deactivateProcess _ => true
  | .deactivateModule _ => true
  | _ => false

variable (V : IntegerEncoding)

/-- The loop over the complete records in the mapping. It returns whether bytes
are left behind the batch; `pending` marks a loop cut off. -/
def parseLoop : ℕ → Tail → Except Stop Bool × Tail
  | 0, tail => (.error .pending, tail)
  | fuel + 1, tail =>
      match decodeSpoolRecord V tail.toReaderState tail.cursor with
      | (.ok none, _) => (.ok false, tail)
      | (.error e, cursor) =>
          if e.isEof && atEof cursor then (.ok false, tail)
          else match tail.mmap.bytes[tail.position]? with
            | some tag => (.error (recordError e tag tail.position), tail)
            | none => (.error (.panic "record tag index"), tail)
      | (.ok (some record), cursor) =>
          match tail.commitRecord record with
          | .error e => (.error e, tail)
          | .ok tail =>
              let tail := { tail with position := cursor.position }
              if tail.samples.length = MAX_BATCH_SAMPLES ∨ endsBatch record = true then
                (.ok (decide (tail.position < tail.mmap.len)), tail)
              else parseLoop fuel tail

/-- Every record takes at least one byte, so this many rounds are enough. -/
def parseAvailable (tail : Tail) : Except Stop Bool × Tail :=
  parseLoop V (tail.mmap.len + 1) tail

/-- The reader behind the header, before any record. -/
def Tail.start (mmap : Mmap) (visibleLen : Option ℕ) (header : SpoolHeader) (position : ℕ) :
    Tail where
  toReaderState := .initial
  visibleLen := visibleLen
  mmap := mmap
  position := position
  header := header
  samples := []
  initialSamplesPending := true
  observedProcesses := []
  observedProcessSet := ∅
  retiredProcesses := []
  retiredModules := []
  kernelMappingsChanged := false
  moreAvailable := false

def fromFileBounded (file : Mmap) (visibleLen : Option ℕ) : Except Stop Tail :=
  let mmap := match visibleLen with
    | some len => file.take len
    | none => file
  match readHeader V ⟨mmap, 0⟩ with
  | (.error e, _) => .error e
  | (.ok header, cursor) =>
      match parseAvailable V (.start mmap visibleLen header cursor.position) with
      | (.error e, _) => .error e
      | (.ok more, tail) =>
          .ok { tail with moreAvailable := more, kernelMappingsChanged := false }

def openTail (file : Mmap) : Except Stop Tail := fromFileBounded V file none

def remapIfGrown (file : Mmap) (tail : Tail) : Except Stop Tail :=
  let fileLen := tail.visibleLen.getD file.len
  if file.len < fileLen then .error (invalidData "published spool exceeds file length")
  else if fileLen < tail.mmap.len then
    .error (invalidData "spool file shrank while being tailed")
  else if tail.mmap.len < fileLen then .ok { tail with mmap := file.take fileLen }
  else .ok tail

/-- The buffers of the last batch are cleared before the next one. -/
def Tail.clearBatch (tail : Tail) : Tail :=
  { tail with
    samples := []
    observedProcesses := []
    observedProcessSet := ∅
    retiredProcesses := []
    retiredModules := []
    kernelMappingsChanged := false }

def Tail.batch (tail : Tail) (moduleStart frameStart : ℕ) : TailBatch where
  tail := tail
  modules := (moduleStart, tail.modules.length)
  frames := (frameStart, tail.frames.length)

/-- One poll of the file as it is now. The reader keeps what it has decoded when
a poll fails. -/
def poll (file : Mmap) (tail : Tail) : Except Stop TailBatch × Tail :=
  let moduleStart := tail.modules.length
  let frameStart := tail.frames.length
  if tail.initialSamplesPending then
    let mappedLen := tail.mmap.len
    match remapIfGrown file tail with
    | .error e => (.error e, tail)
    | .ok tail =>
        let tail :=
          { tail with
            moreAvailable := tail.moreAvailable || decide (mappedLen < tail.mmap.len)
            initialSamplesPending := false }
        (.ok (tail.batch moduleStart frameStart), tail)
  else
    let tail := tail.clearBatch
    match remapIfGrown file tail with
    | .error e => (.error e, tail)
    | .ok tail =>
        match parseAvailable V tail with
        | (.error e, tail) => (.error e, tail)
        | (.ok more, tail) =>
            let tail := { tail with moreAvailable := more }
            (.ok (tail.batch moduleStart frameStart), tail)

end StackPulse.TailReader
