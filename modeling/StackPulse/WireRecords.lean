import StackPulse.WireFields
import StackPulse.OpenSpool
import StackPulse.Sessions

/-!
Reading back what the writer encodes, record by record. A reader state and a
record on the wire determine what the reader does with the record; it reads the
encoding of the record to its end, whatever follows it in the file.
-/
namespace StackPulse.WireRecords

open Bytes.ByteReader Varint Model SpoolCursor SpoolVarint Decode DecodeFacts Encode Records
  WireFields

variable (V : IntegerEncoding)

theorem ofSinceEpoch_sinceEpoch (t : SystemTime) : SystemTime.ofSinceEpoch t.sinceEpoch = some t :=
  dif_pos ⟨t.lower, t.upper⟩

theorem wallTimeFrom_add {t : SystemTime} (h : 0 ≤ t.sinceEpoch) :
    wallTimeFrom 1 t.distance = .ok t := by
  have hadd : SystemTime.epochCheckedAdd t.distance = some t := by
    unfold SystemTime.epochCheckedAdd
    rw [SystemTime.asNanos_distance, Int.natAbs_of_nonneg h, ofSinceEpoch_sinceEpoch]
  unfold wallTimeFrom
  rw [if_pos rfl, hadd]

theorem wallTimeFrom_sub {t : SystemTime} (h : ¬ 0 ≤ t.sinceEpoch) :
    wallTimeFrom (-1) t.distance = .ok t := by
  have hsub : SystemTime.epochCheckedSub t.distance = some t := by
    have hneg : -(t.sinceEpoch.natAbs : ℤ) = t.sinceEpoch := by omega
    unfold SystemTime.epochCheckedSub
    rw [SystemTime.asNanos_distance, hneg, ofSinceEpoch_sinceEpoch]
  unfold wallTimeFrom
  rw [if_neg (by decide), if_pos rfl, hsub]

/-- The fields of a clock origin behind its presence tag. -/
theorem readOrigin_parses (origin : ClockOrigin) (sign : Int64) (duration : Duration)
    (h : wallTimeFrom sign duration = .ok origin.wallTime) :
    (do
      let monotonicNs ← readVarint V UInt64
      let sign ← readVarint V Int64
      let seconds ← readVarint V UInt64
      let nanos ← readVarint V UInt32
      if h : nanos.toNat < 1000000000 then do
        let wallTime ← ofExcept (wallTimeFrom sign ⟨seconds, nanos, h⟩)
        return some { monotonicNs := monotonicNs, wallTime := wallTime }
      else fail (invalidData "invalid origin nanoseconds") :
        Reader (Option ClockOrigin)).Parses
      (encodeVar V origin.monotonicNs ++ (encodeVar V sign ++ (encodeVar V duration.secs ++
        (encodeVar V duration.subsecNanos ++ [])))) (.ok (some origin)) := by
  refine (readVarint_parses V origin.monotonicNs).bind ((readVarint_parses V sign).bind
    ((readVarint_parses V duration.secs).bind ((readVarint_parses V duration.subsecNanos).bind ?_)))
  rw [dif_pos duration.subsec_lt]
  have hcheck : wallTimeFrom sign ⟨duration.secs, duration.subsecNanos, duration.subsec_lt⟩ =
      .ok origin.wallTime := h
  rw [hcheck]
  exact Parses.pure (some origin)

theorem readClockOrigin_parses (origin : Option ClockOrigin) :
    (readClockOrigin V).Parses (clockOriginChunks V origin).flatten (.ok origin) := by
  rcases origin with _ | origin
  · exact (readVarint_parses V (0 : UInt64)).bind (Parses.pure none)
  unfold clockOriginChunks SystemTime.durationSinceEpoch
  by_cases hsign : 0 ≤ origin.wallTime.sinceEpoch
  · simp only [hsign, if_true, List.flatten_cons, List.flatten_nil]
    exact (readVarint_parses V (1 : UInt64)).bind
      (readOrigin_parses V origin 1 _ (wallTimeFrom_add hsign))
  · simp only [hsign, if_false, List.flatten_cons, List.flatten_nil]
    exact (readVarint_parses V (1 : UInt64)).bind
      (readOrigin_parses V origin (-1) _ (wallTimeFrom_sub hsign))

theorem readHeader_parses (header : SpoolHeader) :
    (readHeader V).Parses (encodeHeader V header) (.ok header) := by
  have hmagic : checkMagic.Parses CURRENT_MAGIC (.ok ()) := by
    refine (readBytesRange_parses CURRENT_MAGIC).bind_nil ?_
    rw [if_pos rfl]
    exact Parses.pure ()
  have hflat : encodeHeader V header = CURRENT_MAGIC ++ (encodeVar V header.startTimestampUs ++
      (encodeVar V header.sampleIntervalNs ++
        ((clockOriginChunks V header.clockOrigin).flatten ++ []))) := by
    simp [encodeHeader, headerChunks]
  rw [hflat]
  exact hmagic.bind ((readVarint_parses V header.startTimestampUs).bind
    ((readVarint_parses V header.sampleIntervalNs).bind
      ((readClockOrigin_parses V header.clockOrigin).bind (Parses.pure header))))

/-- What the reader makes of a module record. -/
def moduleFromWire (expectedId : ℕ) (module : ModuleRecord) : Except Stop ModuleRecord := do
  matchId module.id.toUInt64 expectedId "module"
  match module.jitSymbols with
  | none => return module
  | some symbols => do
      let symbols ← symbolsFromWire { module with jitSymbols := none } symbols
      return { module with jitSymbols := some symbols }

/-- The fields of a module record behind its tag. -/
def moduleBody (module : ModuleRecord) : List UInt8 :=
  encodeVar V module.id.toUInt64 ++ (encodeVar V module.wireProcessId.toInt64 ++
    (encodeVar V module.start ++ (encodeVar V module.stop ++ (encodeVar V module.fileOffset ++
    (encodeVar V module.inode ++ (encodeVar V module.deviceMajor.toUInt64 ++
    (encodeVar V module.deviceMinor.toUInt64 ++ (encodeVar V module.inodeGeneration ++
    ([u8From module.isKernel] ++
    ((encodeVar V (UInt64.ofNat module.path.bytes.length) ++ module.path.bytes) ++
      ((module.jitSymbols.map (symbolsChunks V)).getD []).flatten))))))))))

theorem encode_module (module : ModuleRecord) :
    encode V (.module module) = [moduleTag module] ++ moduleBody V module := by
  simp [encode, chunks, moduleChunks, moduleBody, bytesChunks]

theorem length_le_symbolsChunks (symbols : List JitSymbol) :
    symbols.length ≤ (symbolsChunks V symbols).flatten.length ∧
      ∀ symbol ∈ symbols, (JitSymbol.nameBytes symbol).length ≤
        (symbolsChunks V symbols).flatten.length := by
  have hvar : ∀ n : UInt64, 0 < (encodeVar V n).length := fun n =>
    (base128_length (encodeVar_eq V n)).1
  have hall : symbols.length ≤ (symbols.flatMap (symbolChunks V)).flatten.length ∧
      ∀ symbol ∈ symbols, (JitSymbol.nameBytes symbol).length ≤
        (symbols.flatMap (symbolChunks V)).flatten.length := by
    induction symbols with
    | nil => simp
    | cons symbol symbols ih =>
      have hone : (symbolChunks V symbol).flatten.length =
          (encodeVar V symbol.start).length + ((encodeVar V symbol.stop).length +
            ((encodeVar V (UInt64.ofNat (JitSymbol.nameBytes symbol).length)).length +
              (JitSymbol.nameBytes symbol).length)) := by
        simp [symbolChunks, bytesChunks]
      have hpos := hvar symbol.start
      rw [List.flatMap_cons, List.flatten_append, List.length_append, List.length_cons]
      refine ⟨by omega, fun s hs => ?_⟩
      rcases List.mem_cons.mp hs with rfl | hs
      · omega
      · have hle := ih.2 s hs
        omega
  unfold symbolsChunks
  rw [List.flatten_cons, List.length_append]
  refine ⟨by omega, fun symbol hsymbol => ?_⟩
  have hle := hall.2 symbol hsymbol
  omega

theorem moduleIdFrom_of_match {id : UInt32} {expectedId : ℕ}
    (h : matchId id.toUInt64 expectedId "module" = .ok ()) : moduleIdFrom expectedId = .ok id := by
  have hid := matchId_ok.mp h
  rw [UInt32.toNat_toUInt64] at hid
  exact moduleIdFrom_ok.mpr hid

theorem readModuleRecord_parses (expectedId : ℕ) (module : ModuleRecord) :
    (readModuleRecord V expectedId (moduleTag module)).Parses (moduleBody V module)
      (moduleFromWire expectedId module) := by
  apply Parses.of_length_lt
  intro hlen
  have hbounds : module.path.bytes.length < 2 ^ 63 ∧
      ((module.jitSymbols.map (symbolsChunks V)).getD []).flatten.length < 2 ^ 63 := by
    simp only [moduleBody, List.length_append] at hlen
    omega
  unfold moduleFromWire moduleBody
  refine Parses.bind_except (checkId_parses V module.id.toUInt64 expectedId "module") ?_
  intro _ hmatch
  rw [moduleIdFrom_of_match hmatch]
  refine Parses.check_bind (r := .ok module.id) (g := fun _ => _) fun id hid => ?_
  cases hid
  refine (readProcessId_parses V module.wireProcessId).bind ?_
  refine (readVarint_parses V module.start).bind ((readVarint_parses V module.stop).bind ?_)
  refine (readVarint_parses V module.fileOffset).bind ((readVarint_parses V module.inode).bind ?_)
  refine (readU32_parses V module.deviceMajor _).bind ((readU32_parses V module.deviceMinor _).bind
    ((readVarint_parses V module.inodeGeneration).bind ((readFlag_parses module.isKernel).bind ?_)))
  have howner : ModuleOwner.fromWire module.wireProcessId module.isKernel = .ok module.owner :=
    module.owner.fromWire_wireProcessId
  rw [howner]
  refine Parses.check_bind (r := .ok module.owner) (g := fun _ => _) fun owner howner => ?_
  cases howner
  refine (readPath_parses V module.path hbounds.1).bind ?_
  rcases hjit : module.jitSymbols with _ | symbols
  · have htag : moduleTag module = REC_MODULE := by
      unfold moduleTag
      rw [hjit]
      rfl
    rw [htag, if_neg (by decide)]
    rcases module
    cases hjit
    exact Parses.pure _
  · have htag : moduleTag module = REC_JIT_MODULE := by
      unfold moduleTag
      rw [hjit]
      rfl
    rw [hjit] at hbounds
    have hle := length_le_symbolsChunks V symbols
    have hread := readSymbols_parses V { module with jitSymbols := none } symbols
      (lt_of_le_of_lt hle.1 hbounds.2) fun symbol hsymbol =>
        lt_of_le_of_lt (hle.2 symbol hsymbol) hbounds.2
    rw [htag, if_pos rfl]
    exact hread.bind_except_nil fun found _ => Parses.pure _

def frameDecoded (s : ReaderState) (id : UInt32) (tag address : UInt64) :
    Except Stop FrameRecord := do
  matchId id.toUInt64 s.frames.length "frame"
  frameFromWire s.modules tag address

def stackDecoded (s : ReaderState) (id parent frameId : UInt32) : Except Stop StackNodeRecord := do
  matchId id.toUInt64 s.stackNodes.length "stack"
  let parent ← stackPrefix parent.toUInt64 s.stackNodes.length
  let frameId ← boundedId frameId.toUInt64 s.frames.length "stack frame"
  stackNodeFrom s.stackNodes parent frameId

def threadDecoded (s : ReaderState) (id : UInt32) (processId : Int32) (threadId : UInt64) :
    Except Stop ThreadRecord := do
  matchId id.toUInt64 s.threads.length "thread"
  let processId ← pidTryFrom processId
  let threadId ← tidTryFrom threadId
  return { processId := processId, threadId := threadId }

def sampleDecoded (s : ReaderState) (delta : Int64) (threadId stackId : UInt32) :
    Except Stop SampleRecord := do
  let timestampNs ← sampleTimestamp s.lastTimestampNs delta
  let threadRef ← boundedIndex threadId.toUInt64 s.threads.length "sample thread"
  let thread ← threadAt s.threads threadRef
  let stackId ← boundedId stackId.toUInt64 s.stackNodes.length "sample stack"
  return { timestampNs := timestampNs, processId := thread.processId,
           threadId := thread.threadId, stackId := stackId }

def pythonRuntimeDecoded (timestampNs : UInt64) (processId : Int32) (isPythonRuntime : Bool) :
    Except Stop PythonRuntimeRecord := do
  let processId ← pidTryFrom processId
  return { timestampNs := timestampNs, processId := processId,
           isPythonRuntime := isPythonRuntime }

/-- What a reader in this state makes of a record. -/
def decoded (s : ReaderState) : SpoolRecord → Except Stop DecodedSpoolRecord
  | .module module => .module <$> moduleFromWire s.modules.length module
  | .frame id tag address => .frame <$> frameDecoded s id tag address
  | .stack id parent frameId => .stack <$> stackDecoded s id parent frameId
  | .thread id processId threadId => .thread <$> threadDecoded s id processId threadId
  | .sample delta threadId stackId => .sample <$> sampleDecoded s delta threadId stackId
  | .pythonRuntime timestampNs processId isPythonRuntime =>
      .pythonRuntime <$> pythonRuntimeDecoded timestampNs processId isPythonRuntime
  | .moduleDeactivation processId => .deactivateProcess <$> pidTryFrom processId
  | .moduleDeactivationOne moduleId =>
      .deactivateModule <$>
        boundedIndex moduleId.toUInt64 s.modules.length "module deactivation"

def tagOf : SpoolRecord → UInt8
  | .module module => moduleTag module
  | .frame _ _ _ => REC_FRAME
  | .stack _ _ _ => REC_STACK
  | .thread _ _ _ => REC_THREAD
  | .sample _ _ _ => REC_SAMPLE
  | .pythonRuntime _ _ _ => REC_PYTHON_RUNTIME
  | .moduleDeactivation _ => REC_MODULE_DEACTIVATE
  | .moduleDeactivationOne _ => REC_MODULE_DEACTIVATE_ONE

/-- The fields of a record behind its tag. -/
def body : SpoolRecord → List UInt8
  | .module module => moduleBody V module
  | .frame id tag address => encodeVar V id.toUInt64 ++ (encodeVar V tag ++ encodeVar V address)
  | .stack id parent frameId =>
      encodeVar V id.toUInt64 ++ (encodeVar V parent.toUInt64 ++ encodeVar V frameId.toUInt64)
  | .thread id processId threadId =>
      encodeVar V id.toUInt64 ++ (encodeVar V processId.toInt64 ++ encodeVar V threadId)
  | .sample delta threadId stackId =>
      encodeVar V delta ++ (encodeVar V threadId.toUInt64 ++ encodeVar V stackId.toUInt64)
  | .pythonRuntime timestampNs processId isPythonRuntime =>
      encodeVar V timestampNs ++ (encodeVar V processId.toInt64 ++ [u8From isPythonRuntime])
  | .moduleDeactivation processId => encodeVar V processId.toInt64
  | .moduleDeactivationOne moduleId => encodeVar V moduleId.toUInt64

theorem encode_eq (record : SpoolRecord) : encode V record = [tagOf record] ++ body V record := by
  cases record with
  | module module => exact encode_module V module
  | _ => simp [encode, chunks, recordBytes, tagOf, body]

theorem readFrame_parses (s : ReaderState) (id : UInt32) (tag address : UInt64) :
    (readFrame V s.modules s.frames.length).Parses (body V (.frame id tag address))
      (frameDecoded s id tag address) := by
  refine Parses.bind_except (checkId_parses V id.toUInt64 _ _) fun _ _ => ?_
  exact (readVarint_parses V tag).bind
    ((readVarint_parses V address).bind_nil (Parses.ofExcept _))

theorem readStackNode_parses (s : ReaderState) (id parent frameId : UInt32) :
    (readStackNode V s.stackNodes s.frames.length).Parses (body V (.stack id parent frameId))
      (stackDecoded s id parent frameId) := by
  refine Parses.bind_except (checkId_parses V id.toUInt64 _ _) fun _ _ => ?_
  refine (readVarint_parses V parent.toUInt64).bind (Parses.check_bind fun parent _ => ?_)
  exact (readIdWithin_parses V frameId.toUInt64 s.frames.length _).bind_except_nil
    fun frameId _ => Parses.ofExcept _

theorem readThread_parses (s : ReaderState) (id : UInt32) (processId : Int32)
    (threadId : UInt64) :
    (readThread V s.threads.length).Parses (body V (.thread id processId threadId))
      (threadDecoded s id processId threadId) := by
  refine Parses.bind_except (checkId_parses V id.toUInt64 _ _) fun _ _ => ?_
  refine Parses.bind_except (readPid_parses V processId) fun pid _ => ?_
  exact (readVarint_parses V threadId).bind_nil (Parses.check_bind fun tid _ => Parses.pure _)

theorem readSample_parses (s : ReaderState) (delta : Int64) (threadId stackId : UInt32) :
    (readSample V s.threads s.stackNodes.length s.lastTimestampNs).Parses
      (body V (.sample delta threadId stackId)) (sampleDecoded s delta threadId stackId) := by
  refine (readVarint_parses V delta).bind (Parses.check_bind fun timestampNs _ => ?_)
  refine Parses.bind_except (readIndexWithin_parses V threadId.toUInt64 s.threads.length _)
    fun threadRef _ => Parses.check_bind fun thread _ => ?_
  exact (readIdWithin_parses V stackId.toUInt64 s.stackNodes.length _).bind_except_nil
    fun stackId _ => Parses.pure _

theorem readPythonRuntime_parses (timestampNs : UInt64) (processId : Int32)
    (isPythonRuntime : Bool) :
    (readPythonRuntime V).Parses (body V (.pythonRuntime timestampNs processId isPythonRuntime))
      (pythonRuntimeDecoded timestampNs processId isPythonRuntime) := by
  refine (readVarint_parses V timestampNs).bind ?_
  refine Parses.bind_except (readPid_parses V processId) fun pid _ => ?_
  exact (readFlag_parses isPythonRuntime).bind_nil (Parses.pure _)

/-- The reader behind the tag of a record. -/
theorem decodeTagged_parses (s : ReaderState) (record : SpoolRecord) :
    (decodeTagged V s (tagOf record)).Parses (body V record) (decoded s record) := by
  cases record with
  | module module =>
    have htag : tagOf (.module module) = REC_MODULE ∨ tagOf (.module module) = REC_JIT_MODULE := by
      show moduleTag module = _ ∨ moduleTag module = _
      unfold moduleTag
      split
      · exact .inr rfl
      · exact .inl rfl
    unfold decodeTagged
    rw [if_pos htag]
    exact (readModuleRecord_parses V s.modules.length module).map _
  | frame id tag address => exact (readFrame_parses V s id tag address).map _
  | stack id parent frameId => exact (readStackNode_parses V s id parent frameId).map _
  | thread id processId threadId => exact (readThread_parses V s id processId threadId).map _
  | sample delta threadId stackId => exact (readSample_parses V s delta threadId stackId).map _
  | pythonRuntime timestampNs processId isPythonRuntime =>
    exact (readPythonRuntime_parses V timestampNs processId isPythonRuntime).map _
  | moduleDeactivation processId => exact (readPid_parses V processId).map _
  | moduleDeactivationOne moduleId => exact (readIndexWithin_parses V moduleId.toUInt64 _ _).map _

/-- Decode a record and commit it. -/
def step (s : ReaderState) (record : SpoolRecord) :
    Except Stop (DecodedSpoolRecord × ReaderState) := do
  let record ← decoded s record
  let after ← s.commit record
  return (record, after)

/-- On the encoding of a record the next record is that one. -/
theorem next_parses (s : ReaderState) (record : SpoolRecord) :
    ((spoolFormat V).next s).Parses (encode V record) (step s record) := by
  rw [encode_eq]
  have htag : recordTag.Parses [tagOf record] (.ok (tagOf record)) :=
    (readBytesRange_parses [tagOf record]).bind_nil (Parses.pure _)
  refine htag.bind ?_
  exact (decodeTagged_parses V s record).bind_except_nil fun record _ =>
    Parses.check_bind fun after _ => Parses.pure _

end StackPulse.WireRecords
