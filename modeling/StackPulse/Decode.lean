import StackPulse.FrameContexts
import StackPulse.SpoolCursor

/-!
The record readers of the spool. Each reader consumes the fields of one record
and checks them in the order of the source, so the reader of a record that is
cut short and wrong at once reports what it sees first. The checks themselves
are functions of the field values.
-/
namespace StackPulse.Decode

open Bytes.ByteReader Varint Model Words SpoolCursor

def CURRENT_MAGIC : List UInt8 := [83, 80, 85, 76, 83, 69, 52, 0]
def REC_MODULE : UInt8 := 1
def REC_FRAME : UInt8 := 2
def REC_STACK : UInt8 := 3
def REC_THREAD : UInt8 := 4
def REC_SAMPLE : UInt8 := 5
def REC_PYTHON_RUNTIME : UInt8 := 6
def REC_MODULE_DEACTIVATE : UInt8 := 7
def REC_MODULE_DEACTIVATE_ONE : UInt8 := 8
def REC_JIT_MODULE : UInt8 := 9

/-- Pinned frames use even tags and unpinned frames use 1 or 3. -/
def TRUNCATED_STACK_MARKER_TAG : UInt64 := 5

def NONE_U32 : UInt32 := 4294967295

/-- `parent` is the id of the parent node plus one. -/
structure StackNodeRecord where
  parent : Option {n : UInt32 // n ≠ 0}
  frameId : UInt32
  depth : ℕ
  deriving DecidableEq

def u32TryFrom (n : UInt64) (message : String) : Except Stop UInt32 :=
  if n.toNat < 2 ^ 32 then .ok n.toUInt32 else .error (invalidData message)

def moduleIdFrom (expectedId : ℕ) : Except Stop UInt32 :=
  if expectedId < 2 ^ 32 then .ok (UInt32.ofNat expectedId)
  else .error (invalidData "module id too large")

def matchId (id : UInt64) (expected : ℕ) (kind : String) : Except Stop Unit :=
  if id.toNat ≠ expected then
    .error (invalidData s!"{kind} id {id} did not match expected {expected}")
  else .ok ()

/-- The id and its index are the same number. -/
def boundedId (raw : UInt64) (limit : ℕ) (kind : String) : Except Stop UInt32 := do
  let id ← u32TryFrom raw s!"{kind} id too large"
  if limit ≤ id.toNat then .error (invalidData s!"{kind} references missing id {id}")
  else .ok id

def boundedIndex (raw : UInt64) (limit : ℕ) (kind : String) : Except Stop ℕ :=
  if limit ≤ raw.toNat then .error (invalidData s!"{kind} references missing id {raw}")
  else .ok raw.toNat

def i32TryFrom (n : Int64) : Except Stop Int32 :=
  if -2 ^ 31 ≤ n.toInt ∧ n.toInt < 2 ^ 31 then .ok n.toInt32
  else .error (invalidData s!"process id {n} out of range")

def pidTryFrom (raw : Int32) : Except Stop Pid :=
  match Pid.tryFrom raw with
  | .ok pid => .ok pid
  | .error error => .error (invalidData error)

def tidTryFrom (raw : UInt64) : Except Stop Tid :=
  match Tid.tryFrom raw with
  | .ok tid => .ok tid
  | .error error => .error (invalidData error)

def frameMode (isKernel : Bool) : FrameMode := if isKernel then .kernel else .user

/-- Unchecked addition of the source; an overflow panics. -/
def addU64 (a b : UInt64) (site : String) : Except Stop UInt64 :=
  match checkedAdd a b with
  | some c => .ok c
  | none => .error (.panic site)

/-- A frame pinned to `module`: the address is rebuilt from the module record. -/
def pinnedFrame (id : UInt32) (module : ModuleRecord) (encodedIp : UInt64) :
    Except Stop FrameRecord :=
  match checkedSub encodedIp module.fileOffset with
  | none => .error (invalidData s!"frame address precedes module {id} file offset")
  | some offset =>
    match checkedSub module.stop module.start with
    | none => .error (invalidData s!"module {id} end precedes module start")
    | some span =>
      if span ≤ offset then
        .error (invalidData s!"frame address outside referenced module {id}")
      else do
        let absIp ← addU64 module.start offset "frame address overflow"
        return { moduleId := some id, fileRelativeIp := encodedIp, absIp := absIp,
                 mode := frameMode module.isKernel }

/-- Rebuild a frame from its tag and encoded address. -/
def frameFromWire (modules : List ModuleRecord) (tag encodedIp : UInt64) :
    Except Stop FrameRecord :=
  if tag = TRUNCATED_STACK_MARKER_TAG then
    if encodedIp ≠ 0 then .error (invalidData "truncated stack marker has nonzero payload")
    else .ok .truncatedStackMarker
  else if tag &&& 1 = 0 then do
    let id ← boundedId (tag >>> 1) modules.length "frame module"
    match modules[id.toNat]? with
    | none => .error (.panic "frame module index")
    | some module => pinnedFrame id module encodedIp
  else
    .ok { moduleId := none, fileRelativeIp := encodedIp, absIp := encodedIp,
          mode := frameMode (tag &&& 2 != 0) }

/-- The parent named on the wire: its id, `none` for a root. -/
def stackPrefix (rawPrefix : UInt64) (limit : ℕ) : Except Stop (Option UInt32) :=
  if rawPrefix = NONE_U32.toUInt64 then .ok none
  else do
    let id ← boundedId rawPrefix limit "stack prefix"
    return some id

/-- `NonZeroU32::new(id + 1)`, with the unchecked addition of the source. -/
def encodePrefix (id : UInt32) : Except Stop (Option {n : UInt32 // n ≠ 0}) :=
  if id.toNat + 1 < 2 ^ 32 then
    if h : id + 1 ≠ 0 then .ok (some ⟨id + 1, h⟩) else .ok none
  else .error (.panic "stack prefix overflow")

/-- `saturating_add(1)` on a 64-bit depth. -/
def saturatingSucc (depth : ℕ) : ℕ := min (depth + 1) (2 ^ 64 - 1)

def stackNodeFrom (stackNodes : List StackNodeRecord) (parent : Option UInt32)
    (frameId : UInt32) : Except Stop StackNodeRecord :=
  match parent with
  | none => .ok { parent := none, frameId := frameId, depth := 1 }
  | some id =>
    match stackNodes[id.toNat]? with
    | none => .error (.panic "stack prefix index")
    | some node => do
      let encoded ← encodePrefix id
      return { parent := encoded, frameId := frameId, depth := saturatingSucc node.depth }

def sampleTimestamp (lastTimestampNs : UInt64) (delta : Int64) : Except Stop UInt64 :=
  match checkedAddSigned lastTimestampNs delta with
  | some timestampNs => .ok timestampNs
  | none => .error (invalidData s!"sample timestamp delta {delta} out of range")

def threadAt (threads : List ThreadRecord) (index : ℕ) : Except Stop ThreadRecord :=
  match threads[index]? with
  | some thread => .ok thread
  | none => .error (.panic "sample thread index")

variable (V : IntegerEncoding)

def checkId (expected : ℕ) (kind : String) : Reader Unit := do
  let id ← readVarint V UInt64
  ofExcept (matchId id expected kind)

def readIdWithin (limit : ℕ) (kind : String) : Reader UInt32 := do
  let raw ← readVarint V UInt64
  ofExcept (boundedId raw limit kind)

def readIndexWithin (limit : ℕ) (kind : String) : Reader ℕ := do
  let raw ← readVarint V UInt64
  ofExcept (boundedIndex raw limit kind)

def readProcessId : Reader Int32 := do
  let processId ← readVarint V Int64
  ofExcept (i32TryFrom processId)

def readPid : Reader Pid := do
  let processId ← readProcessId V
  ofExcept (pidTryFrom processId)

def readU32 (message : String) : Reader UInt32 := do
  let raw ← readVarint V UInt64
  ofExcept (u32TryFrom raw message)

def readFlag : Reader Bool := do
  let flag ← readBytesRange 1
  return flag.headD 0 != 0

/-- A length, then as many bytes. -/
def readPath : Reader ModulePath := do
  let len ← readVarint V UInt64
  let bytes ← readBytesRange len.toNat
  return ⟨bytes⟩

/-- Range and name of one symbol, checked against its module and the symbol before it. -/
def readSymbol (module : ModuleRecord) (symbols : List JitSymbol) : Reader JitSymbol := do
  let start ← readVarint V UInt64
  let stop ← readVarint V UInt64
  if stop ≤ start ∨ start < module.start ∨ module.stop < stop then
    fail (invalidData "JIT symbol outside its code range")
  else do
    let len ← readVarint V UInt64
    if MAX_JIT_SYMBOL_NAME < len.toNat then fail (invalidData "JIT symbol name too large")
    else do
      let bytes ← readBytesRange len.toNat
      match String.fromUTF8? bytes.toByteArray with
      | none => fail (invalidData "invalid JIT symbol name")
      | some name =>
        if symbols.getLast?.any fun symbol => start < symbol.start then
          fail (invalidData "JIT symbols are not sorted")
        else return { start := start, stop := stop, name := name }

def readSymbolsLoop (module : ModuleRecord) : ℕ → List JitSymbol → Reader (List JitSymbol)
  | 0, symbols => return symbols
  | count + 1, symbols => do
      let symbol ← readSymbol V module symbols
      readSymbolsLoop module count (symbols ++ [symbol])

def readSymbols (module : ModuleRecord) : Reader (List JitSymbol) := do
  let count ← readVarint V UInt64
  if MAX_JIT_SYMBOLS < count.toNat ∨ module.isKernel then
    fail (invalidData "invalid JIT module")
  else readSymbolsLoop V module count.toNat []

def readModuleRecord (expectedId : ℕ) (tag : UInt8) : Reader ModuleRecord := do
  checkId V expectedId "module"
  let id ← ofExcept (moduleIdFrom expectedId)
  let processId ← readProcessId V
  let start ← readVarint V UInt64
  let stop ← readVarint V UInt64
  let fileOffset ← readVarint V UInt64
  let inode ← readVarint V UInt64
  let deviceMajor ← readU32 V "module device major too large"
  let deviceMinor ← readU32 V "module device minor too large"
  let inodeGeneration ← readVarint V UInt64
  let flag ← readFlag
  let owner ← ofExcept (ModuleOwner.fromWire processId flag)
  let path ← readPath V
  let module : ModuleRecord :=
    { id := id, owner := owner, start := start, stop := stop, fileOffset := fileOffset,
      inode := inode, deviceMajor := deviceMajor, deviceMinor := deviceMinor,
      inodeGeneration := inodeGeneration, path := path, jitSymbols := none }
  if tag = REC_JIT_MODULE then do
    let symbols ← readSymbols V module
    return { module with jitSymbols := some symbols }
  else return module

def readPythonRuntime : Reader PythonRuntimeRecord := do
  let timestampNs ← readVarint V UInt64
  let processId ← readPid V
  let flag ← readFlag
  return { timestampNs := timestampNs, processId := processId, isPythonRuntime := flag }

def readFrame (modules : List ModuleRecord) (expectedId : ℕ) : Reader FrameRecord := do
  checkId V expectedId "frame"
  let tag ← readVarint V UInt64
  let encodedIp ← readVarint V UInt64
  ofExcept (frameFromWire modules tag encodedIp)

def readStackNode (stackNodes : List StackNodeRecord) (frameCount : ℕ) :
    Reader StackNodeRecord := do
  checkId V stackNodes.length "stack"
  let rawPrefix ← readVarint V UInt64
  let parent ← ofExcept (stackPrefix rawPrefix stackNodes.length)
  let frameId ← readIdWithin V frameCount "stack frame"
  ofExcept (stackNodeFrom stackNodes parent frameId)

def readThread (expectedId : ℕ) : Reader ThreadRecord := do
  checkId V expectedId "thread"
  let processId ← readPid V
  let threadId ← readVarint V UInt64
  let threadId ← ofExcept (tidTryFrom threadId)
  return { processId := processId, threadId := threadId }

/-- The delta baseline is committed by the caller, from the returned sample. -/
def readSample (threads : List ThreadRecord) (stackCount : ℕ) (lastTimestampNs : UInt64) :
    Reader SampleRecord := do
  let delta ← readVarint V Int64
  let timestampNs ← ofExcept (sampleTimestamp lastTimestampNs delta)
  let threadRef ← readIndexWithin V threads.length "sample thread"
  let thread ← ofExcept (threadAt threads threadRef)
  let stackId ← readIdWithin V stackCount "sample stack"
  return { timestampNs := timestampNs, processId := thread.processId,
           threadId := thread.threadId, stackId := stackId }

def magicError (magic : List UInt8) : Stop :=
  match magic with
  | [83, 80, 85, 76, 83, 69, version, 0] =>
      if 48 ≤ version ∧ version ≤ 57 then
        invalidData (s!"unsupported stackpulse spool format version {Char.ofUInt8 version} " ++
          "(this reader supports version 4)")
      else invalidData "invalid stackpulse spool magic"
  | _ => invalidData "invalid stackpulse spool magic"

def checkMagic : Reader Unit := do
  let magic ← readBytesRange 8
  if magic = CURRENT_MAGIC then return () else fail (magicError magic)

/-- The wall time named by a direction and a duration. -/
def wallTimeFrom (sign : Int64) (duration : Duration) : Except Stop SystemTime :=
  if sign = 1 then
    match SystemTime.epochCheckedAdd duration with
    | some wallTime => .ok wallTime
    | none => .error (invalidData "unrepresentable clock origin")
  else if sign = -1 then
    match SystemTime.epochCheckedSub duration with
    | some wallTime => .ok wallTime
    | none => .error (invalidData "unrepresentable clock origin")
  else .error (invalidData "invalid origin direction")

def readClockOrigin : Reader (Option ClockOrigin) := do
  let present ← readVarint V UInt64
  if present = 0 then return none
  else if present ≠ 1 then fail (invalidData "invalid clock-origin tag")
  else do
    let monotonicNs ← readVarint V UInt64
    let sign ← readVarint V Int64
    let seconds ← readVarint V UInt64
    let nanos ← readVarint V UInt32
    if h : nanos.toNat < 1000000000 then do
      let wallTime ← ofExcept (wallTimeFrom sign ⟨seconds, nanos, h⟩)
      return some { monotonicNs := monotonicNs, wallTime := wallTime }
    else fail (invalidData "invalid origin nanoseconds")

structure SpoolHeader where
  startTimestampUs : UInt64
  sampleIntervalNs : UInt64
  clockOrigin : Option ClockOrigin
  deriving DecidableEq

def readHeader : Reader SpoolHeader := do
  checkMagic
  let startTimestampUs ← readVarint V UInt64
  let sampleIntervalNs ← readVarint V UInt64
  let clockOrigin ← readClockOrigin V
  return { startTimestampUs := startTimestampUs, sampleIntervalNs := sampleIntervalNs,
           clockOrigin := clockOrigin }

end StackPulse.Decode
