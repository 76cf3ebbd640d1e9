import StackPulse.Safety

/-!
Sequential replay of the samples of a spool. Opening for replay keeps the byte
ranges of the sample records, up to a limit, and a position from which the rest
of the file is scanned. The iterator decodes the samples again and expects every
step to succeed.
-/
namespace StackPulse.ReplayReader

open Bytes Bytes.ByteReader Varint Model SpoolCursor Decode OpenSpool

/-- A reader opened for replay. -/
structure Replay where
  definitions : SpoolDefinitions
  threads : List ThreadRecord
  mmap : Mmap
  sampleRanges : List SampleRange
  scanStart : Option ReplayScanStart
  sampleCount : ℕ

def Replay.fromOpened (opened : OpenedSpool) : Replay where
  definitions := opened.definitions
  threads := opened.threads
  mmap := opened.mmap
  sampleRanges := opened.sampleRanges
  scanStart := opened.scanStart
  sampleCount := opened.sampleCount

inductive ReplayMode
  | ranges (index : ℕ)
  | records (state : ReplayRecordState)
  deriving DecidableEq

structure ReplaySamples where
  cursor : Cursor
  lastTimestampNs : UInt64
  remaining : ℕ
  mode : ReplayMode

/-- `&list[..n]`. -/
def sliceTo {α : Type} (l : List α) (n : ℕ) : Except Stop (List α) :=
  if n ≤ l.length then .ok (l.take n) else .error (.panic "slice index")

variable (V : IntegerEncoding)

/-- Read over a record that opening the file has accepted before. -/
def consumeValidatedRecord (tag : UInt8) (definitions : SpoolDefinitions)
    (state : ReplayRecordState) : Reader ReplayRecordState :=
  if tag = REC_MODULE ∨ tag = REC_JIT_MODULE then do
    let _ ← readModuleRecord V state.moduleCount tag
    return { state with moduleCount := state.moduleCount + 1 }
  else if tag = REC_FRAME then do
    let modules ← ofExcept (sliceTo definitions.modules state.moduleCount)
    let _ ← readFrame V modules state.frameCount
    return { state with frameCount := state.frameCount + 1 }
  else if tag = REC_STACK then do
    let stackNodes ← ofExcept (sliceTo definitions.stackNodes state.stackCount)
    let _ ← readStackNode V stackNodes state.frameCount
    return { state with stackCount := state.stackCount + 1 }
  else if tag = REC_THREAD then do
    let _ ← readThread V state.threadCount
    return { state with threadCount := state.threadCount + 1 }
  else if tag = REC_PYTHON_RUNTIME then do
    let _ ← readPythonRuntime V
    return state
  else if tag = REC_MODULE_DEACTIVATE then do
    let _ ← readPid V
    return state
  else if tag = REC_MODULE_DEACTIVATE_ONE then do
    let _ ← readIndexWithin V state.moduleCount "module deactivation"
    return state
  else fail (invalidData s!"unexpected replay record tag {tag}")

/-- The loop that looks for the next sample record and reads its tag. It runs for
at most as many rounds as given; `pending` marks a loop cut off. -/
def seek (reader : Replay) : ℕ → Cursor → ReplayMode → Except Stop (UInt8 × Cursor × ReplayMode)
  | 0, _, _ => .error .pending
  | rounds + 1, cursor, .ranges index =>
      match reader.sampleRanges[index]? with
      | none => .error (.panic "sample range index")
      | some range =>
          if cursor.position = range.stop then
            match reader.sampleRanges[index + 1]? with
            | some next => seek reader rounds (cursor.moveTo next.start) (.ranges (index + 1))
            | none =>
                match reader.scanStart with
                | none => .error (.panic "remaining samples require a replay scan")
                | some scanStart =>
                    seek reader rounds (cursor.moveTo scanStart.position)
                      (.records scanStart.state)
          else match readTag cursor with
            | (.error _, _) => .error (.panic "validated sample tag")
            | (.ok none, _) => .error (.panic "validated sample record")
            | (.ok (some tag), cursor) => .ok (tag, cursor, .ranges index)
  | rounds + 1, cursor, .records state =>
      match readTag cursor with
      | (.error _, _) => .error (.panic "validated record tag")
      | (.ok none, _) => .error (.panic "validated sample record")
      | (.ok (some tag), cursor) =>
          if tag = REC_SAMPLE then .ok (tag, cursor, .records state)
          else match consumeValidatedRecord V tag reader.definitions state cursor with
            | (.error _, _) => .error (.panic "validated spool record")
            | (.ok state, cursor) => seek reader rounds cursor (.records state)

/-- Rounds that suffice for one search: it moves on to a later range or reads
over a record in each of them. -/
def seekRounds (reader : Replay) : ℕ := reader.sampleRanges.length + reader.mmap.len + 2

def next (reader : Replay) (it : ReplaySamples) :
    Except Stop (Option SampleRecord × ReplaySamples) :=
  if it.remaining = 0 then .ok (none, it)
  else match seek V reader (seekRounds reader) it.cursor it.mode with
    | .error e => .error e
    | .ok (tag, cursor, mode) =>
        if tag ≠ REC_SAMPLE then .error (.panic "validated replay record")
        else
          let stackCount := reader.definitions.stackNodes.length
          match readSample V reader.threads stackCount it.lastTimestampNs cursor with
          | (.error _, _) => .error (.panic "validated sample record")
          | (.ok sample, cursor) =>
              .ok (some sample,
                { cursor := cursor
                  lastTimestampNs := sample.timestampNs
                  remaining := it.remaining - 1
                  mode := mode })

def replaySamples (reader : Replay) : ReplaySamples :=
  let (start, mode) := match reader.sampleRanges.head?, reader.scanStart with
    | some range, _ => (range.start, ReplayMode.ranges 0)
    | none, some scanStart => (scanStart.position, ReplayMode.records scanStart.state)
    | none, none => (reader.mmap.len, ReplayMode.ranges 0)
  { cursor := ⟨reader.mmap, start⟩
    lastTimestampNs := 0
    remaining := reader.sampleCount
    mode := mode }

/-- Call `next` until it returns nothing, for at most as many rounds as given. -/
def drain (reader : Replay) : ℕ → ReplaySamples → Except Stop (List SampleRecord)
  | 0, _ => .error .pending
  | rounds + 1, it => do
      match ← next V reader it with
      | (none, _) => return []
      | (some sample, it) => return sample :: (← drain reader rounds it)

/-- All samples of a replay. -/
def collect (reader : Replay) : Except Stop (List SampleRecord) :=
  drain V reader (reader.sampleCount + 1) (replaySamples reader)

end StackPulse.ReplayReader
