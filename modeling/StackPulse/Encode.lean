import StackPulse.Decode
import StackPulse.Output

/-!
The records of a spool as they stand on the wire, and the functions that write
their fields. A record is written in one or in several pieces; what counts for a
reader is the concatenation of the pieces.
-/
namespace StackPulse.Encode

open Varint Model SpoolCursor SpoolVarint Decode Output

/-- A record as it is written. -/
inductive SpoolRecord
  | module (module : ModuleRecord)
  | frame (id : UInt32) (tag address : UInt64)
  | stack (id parent frameId : UInt32)
  | thread (id : UInt32) (processId : Int32) (threadId : UInt64)
  | sample (delta : Int64) (threadId stackId : UInt32)
  | pythonRuntime (timestampNs : UInt64) (processId : Int32) (isPythonRuntime : Bool)
  | moduleDeactivation (processId : Int32)
  | moduleDeactivationOne (moduleId : UInt32)
  deriving DecidableEq

def JitSymbol.nameBytes (symbol : JitSymbol) : List UInt8 := symbol.name.toUTF8.data.toList

def u8From (flag : Bool) : UInt8 := if flag then 1 else 0

variable (V : IntegerEncoding)

def bytesChunks (bytes : List UInt8) : List (List UInt8) :=
  [encodeVar V (UInt64.ofNat bytes.length), bytes]

def symbolChunks (symbol : JitSymbol) : List (List UInt8) :=
  [encodeVar V symbol.start, encodeVar V symbol.stop] ++
    bytesChunks V (JitSymbol.nameBytes symbol)

def symbolsChunks (symbols : List JitSymbol) : List (List UInt8) :=
  encodeVar V (UInt64.ofNat symbols.length) :: symbols.flatMap (symbolChunks V)

def moduleTag (module : ModuleRecord) : UInt8 :=
  if module.jitSymbols.isSome then REC_JIT_MODULE else REC_MODULE

def moduleChunks (module : ModuleRecord) : List (List UInt8) :=
  [[moduleTag module], encodeVar V module.id.toUInt64,
    encodeVar V module.wireProcessId.toInt64, encodeVar V module.start,
    encodeVar V module.stop, encodeVar V module.fileOffset, encodeVar V module.inode,
    encodeVar V module.deviceMajor.toUInt64, encodeVar V module.deviceMinor.toUInt64,
    encodeVar V module.inodeGeneration, [u8From module.isKernel]] ++
  bytesChunks V module.path.bytes ++ (module.jitSymbols.map (symbolsChunks V)).getD []

/-- A record of a tag and three varints is one piece. -/
def recordBytes {A B C : Type} [SpoolVarint A] [SpoolVarint B] [SpoolVarint C] (tag : UInt8)
    (first : A) (second : B) (third : C) : List UInt8 :=
  [tag] ++ encodeVar V first ++ encodeVar V second ++ encodeVar V third

def chunks : SpoolRecord → List (List UInt8)
  | .module module => moduleChunks V module
  | .frame id tag address => [recordBytes V REC_FRAME id.toUInt64 tag address]
  | .stack id parent frameId =>
      [recordBytes V REC_STACK id.toUInt64 parent.toUInt64 frameId.toUInt64]
  | .thread id processId threadId =>
      [recordBytes V REC_THREAD id.toUInt64 processId.toInt64 threadId]
  | .sample delta threadId stackId =>
      [recordBytes V REC_SAMPLE delta threadId.toUInt64 stackId.toUInt64]
  | .pythonRuntime timestampNs processId isPythonRuntime =>
      [[REC_PYTHON_RUNTIME], encodeVar V timestampNs, encodeVar V processId.toInt64,
        [u8From isPythonRuntime]]
  | .moduleDeactivation processId =>
      [[REC_MODULE_DEACTIVATE], encodeVar V processId.toInt64]
  | .moduleDeactivationOne moduleId =>
      [[REC_MODULE_DEACTIVATE_ONE], encodeVar V moduleId.toUInt64]

def encode (record : SpoolRecord) : List UInt8 := (chunks V record).flatten

def clockOriginChunks (origin : Option ClockOrigin) : List (List UInt8) :=
  match origin with
  | none => [encodeVar V (0 : UInt64)]
  | some origin =>
      let (sign, duration) := match origin.wallTime.durationSinceEpoch with
        | .ok duration => ((1 : Int64), duration)
        | .error duration => ((-1 : Int64), duration)
      [encodeVar V (1 : UInt64), encodeVar V origin.monotonicNs, encodeVar V sign,
        encodeVar V duration.secs, encodeVar V duration.subsecNanos]

def headerChunks (header : SpoolHeader) : List (List UInt8) :=
  [CURRENT_MAGIC, encodeVar V header.startTimestampUs, encodeVar V header.sampleIntervalNs] ++
    clockOriginChunks V header.clockOrigin

def encodeHeader (header : SpoolHeader) : List UInt8 := (headerChunks V header).flatten

section

variable {W : Type} [Write W]

def writeVarint {VI : Type} [SpoolVarint VI] (n : VI) : Call W Unit := writeAll (encodeVar V n)

def writeBytes (bytes : List UInt8) : Call W Unit := do
  writeVarint V (UInt64.ofNat bytes.length)
  writeAll bytes

def writeSymbol (symbol : JitSymbol) : Call W Unit := do
  writeVarint V symbol.start
  writeVarint V symbol.stop
  writeBytes V (JitSymbol.nameBytes symbol)

def writeSymbols (symbols : List JitSymbol) : Call W Unit := do
  writeVarint V (UInt64.ofNat symbols.length)
  symbols.forM (writeSymbol V)

def writeRecord {A B C : Type} [SpoolVarint A] [SpoolVarint B] [SpoolVarint C] (tag : UInt8)
    (fields : A × B × C) : Call W Unit :=
  writeAll (recordBytes V tag fields.1 fields.2.1 fields.2.2)

def writeClockOrigin (origin : Option ClockOrigin) : Call W Unit := do
  match origin with
  | none => writeVarint V (0 : UInt64)
  | some origin =>
      writeVarint V (1 : UInt64)
      writeVarint V origin.monotonicNs
      let (sign, duration) := match origin.wallTime.durationSinceEpoch with
        | .ok duration => ((1 : Int64), duration)
        | .error duration => ((-1 : Int64), duration)
      writeVarint V sign
      writeVarint V duration.secs
      writeVarint V duration.subsecNanos

def writeHeader (header : SpoolHeader) : Call W Unit := do
  writeAll CURRENT_MAGIC
  writeVarint V header.startTimestampUs
  writeVarint V header.sampleIntervalNs
  writeClockOrigin V header.clockOrigin

def writeModuleFields (module : ModuleRecord) : Call W Unit := do
  writeAll [if module.jitSymbols.isSome then REC_JIT_MODULE else REC_MODULE]
  writeVarint V module.id.toUInt64
  writeVarint V module.wireProcessId.toInt64
  writeVarint V module.start
  writeVarint V module.stop
  writeVarint V module.fileOffset
  writeVarint V module.inode
  writeVarint V module.deviceMajor.toUInt64
  writeVarint V module.deviceMinor.toUInt64
  writeVarint V module.inodeGeneration
  writeAll [u8From module.isKernel]
  writeBytes V module.path.bytes
  if let some symbols := module.jitSymbols then writeSymbols V symbols

def writeChunks (pieces : List (List UInt8)) : Call W Unit := pieces.forM writeAll

omit V in
theorem writeChunks_nil : (writeChunks [] : Call W Unit) = pure () := rfl

omit V in
theorem writeChunks_cons (piece : List UInt8) (pieces : List (List UInt8)) :
    (writeChunks (piece :: pieces) : Call W Unit) =
      writeAll piece >>= fun _ => writeChunks pieces := rfl

omit V in
theorem writeChunks_single (piece : List UInt8) :
    (writeChunks [piece] : Call W Unit) = writeAll piece := by
  rw [writeChunks_cons, writeChunks_nil]
  exact bind_pure (writeAll piece)

omit V in
theorem writeChunks_append (pieces more : List (List UInt8)) :
    (writeChunks (pieces ++ more) : Call W Unit) =
      writeChunks pieces >>= fun _ => writeChunks more := by
  induction pieces with
  | nil =>
    rw [List.nil_append, writeChunks_nil, pure_bind]
  | cons piece pieces ih =>
    rw [List.cons_append, writeChunks_cons, writeChunks_cons, bind_assoc, ih]

theorem writeBytes_eq (bytes : List UInt8) :
    (writeBytes V bytes : Call W Unit) = writeChunks (bytesChunks V bytes) := by
  unfold bytesChunks
  rw [writeChunks_cons, writeChunks_single]
  rfl

theorem writeSymbol_eq (symbol : JitSymbol) :
    (writeSymbol V symbol : Call W Unit) = writeChunks (symbolChunks V symbol) := by
  unfold symbolChunks
  rw [writeChunks_append, ← writeBytes_eq, writeChunks_cons, writeChunks_single, bind_assoc]
  rfl

theorem writeSymbols_eq (symbols : List JitSymbol) :
    (writeSymbols V symbols : Call W Unit) = writeChunks (symbolsChunks V symbols) := by
  have hall : (symbols.forM (writeSymbol V) : Call W Unit) =
      writeChunks (symbols.flatMap (symbolChunks V)) := by
    induction symbols with
    | nil => rfl
    | cons symbol symbols ih =>
      show (writeSymbol V symbol >>= fun _ => symbols.forM (writeSymbol V)) = _
      rw [ih, writeSymbol_eq, List.flatMap_cons, writeChunks_append]
  unfold symbolsChunks
  rw [writeChunks_cons, ← hall]
  rfl

theorem writeClockOrigin_eq (origin : Option ClockOrigin) :
    (writeClockOrigin V origin : Call W Unit) = writeChunks (clockOriginChunks V origin) := by
  unfold writeClockOrigin clockOriginChunks
  rcases origin with _ | origin
  · exact (writeChunks_single _).symm
  · simp only [writeChunks_cons, writeChunks_nil, writeVarint, bind_pure_unit]

theorem writeHeader_eq (header : SpoolHeader) :
    (writeHeader V header : Call W Unit) = writeChunks (headerChunks V header) := by
  unfold writeHeader headerChunks
  rw [writeChunks_append, ← writeClockOrigin_eq]
  simp only [writeChunks_cons, writeChunks_nil, writeVarint, bind_assoc, pure_bind]

theorem writeModuleFields_eq (module : ModuleRecord) :
    (writeModuleFields V module : Call W Unit) = writeChunks (chunks V (.module module)) := by
  show _ = writeChunks (moduleChunks V module)
  unfold writeModuleFields moduleChunks moduleTag
  rw [writeChunks_append, writeChunks_append, ← writeBytes_eq]
  have hjit : (writeChunks ((module.jitSymbols.map (symbolsChunks V)).getD []) : Call W Unit) =
      match module.jitSymbols with
      | some symbols => writeSymbols V symbols
      | none => pure () := by
    rcases module.jitSymbols with _ | symbols
    · rfl
    · exact (writeSymbols_eq V symbols).symm
  rw [hjit]
  simp only [writeChunks_cons, writeChunks_nil, writeVarint, bind_assoc, pure_bind]
  rcases module.jitSymbols with _ | symbols <;> rfl

end

end StackPulse.Encode
