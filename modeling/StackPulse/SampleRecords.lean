import StackPulse.ByteReaders

/-!
Decoding of sample records. A record carries the fields that its sample type names, in the order of
the kernel's layout, and some of them carry their own lengths. Registers, stack and call chain are
borrowed from the bytes of the record.
-/
namespace StackPulse.SampleRecords

open ByteReaders

def PERF_RECORD_SAMPLE : UInt32 := 9

def PERF_SAMPLE_IP : UInt64 := 1
def PERF_SAMPLE_TID : UInt64 := 2
def PERF_SAMPLE_TIME : UInt64 := 4
def PERF_SAMPLE_CALLCHAIN : UInt64 := 32
def PERF_SAMPLE_REGS_USER : UInt64 := 4096
def PERF_SAMPLE_STACK_USER : UInt64 := 8192

def PERF_SAMPLE_REGS_ABI_NONE : UInt32 := 0
def PERF_SAMPLE_REGS_ABI_32 : UInt32 := 1
def PERF_SAMPLE_REGS_ABI_64 : UInt32 := 2

def PERF_RECORD_MISC_CPUMODE_MASK : UInt32 := 7
def PERF_RECORD_MISC_EXACT_IP : UInt32 := 16384

inductive Priv
  | user
  | kernel
  | hv
  | guestUser
  | guestKernel
  | unknown
  deriving DecidableEq, Repr

def privFromMisc (misc : UInt16) : Priv :=
  match misc.toUInt32 &&& PERF_RECORD_MISC_CPUMODE_MASK with
  | 2 => .user
  | 1 => .kernel
  | 3 => .hv
  | 5 => .guestUser
  | 4 => .guestKernel
  | _ => .unknown

/-- The layout of the records of one ring: the fields of a sample, and the number of registers. -/
structure Parser where
  sampleType : UInt64
  userRegs : ℕ
  deriving DecidableEq, Repr

structure PerfRecordHeader where
  recordType : UInt32
  misc : UInt16
  size : ℕ
  deriving DecidableEq, Repr

namespace PerfRecordHeader

def isSample (header : PerfRecordHeader) : Bool := header.recordType == PERF_RECORD_SAMPLE

def matchesLen (header : PerfRecordHeader) (bytes : Slice UInt8) : Bool :=
  header.size == bytes.elems.length

end PerfRecordHeader

structure TaskRef where
  pid : UInt32
  tid : UInt32
  deriving DecidableEq, Repr

structure CallChainRef where
  addresses : Slice UInt64
  deriving DecidableEq, Repr

structure SampleRecordRef where
  task : Option TaskRef
  time : Option UInt64
  codeAddr : Option (UInt64 × Bool)
  userRegs : Option (Slice UInt64)
  userStack : Option (Slice UInt8)
  callChain : Option CallChainRef
  deriving DecidableEq, Repr

def readRecordHeader : Reader PerfRecordHeader := do
  let recordType ← readU32
  let misc ← readU16
  let size ← readU16
  pure ⟨recordType, misc, size.toNat⟩

def readSampleHeader : Reader PerfRecordHeader := do
  let header ← readRecordHeader
  let cursor ← get
  if header.isSample ∧ header.matchesLen cursor.bytes then pure header else failure

def hasSample (sampleType flag : UInt64) : Bool := sampleType &&& flag != 0

def REQUIRED_SAMPLE_TYPE : UInt64 := PERF_SAMPLE_IP ||| PERF_SAMPLE_TID ||| PERF_SAMPLE_TIME

def SUPPORTED_SAMPLE_TYPE : UInt64 :=
  PERF_SAMPLE_IP ||| PERF_SAMPLE_TID ||| PERF_SAMPLE_TIME ||| PERF_SAMPLE_CALLCHAIN |||
    PERF_SAMPLE_REGS_USER ||| PERF_SAMPLE_STACK_USER

def sampleTypeSupported (sampleType : UInt64) : Bool :=
  sampleType &&& REQUIRED_SAMPLE_TYPE == REQUIRED_SAMPLE_TYPE &&
    sampleType &&& ~~~SUPPORTED_SAMPLE_TYPE == 0

def parseCommonSampleFields (sampleType : UInt64) (misc : UInt16) (sample : SampleRecordRef) :
    Reader SampleRecordRef := do
  let sample ←
    if hasSample sampleType PERF_SAMPLE_IP then do
      let ip ← readU64
      pure { sample with
        codeAddr := some (ip, misc.toUInt32 &&& PERF_RECORD_MISC_EXACT_IP != 0) }
    else pure sample
  let sample ←
    if hasSample sampleType PERF_SAMPLE_TID then do
      let pid ← readU32
      let tid ← readU32
      pure { sample with task := some ⟨pid, tid⟩ }
    else pure sample
  if hasSample sampleType PERF_SAMPLE_TIME then do
    let time ← readU64
    pure { sample with time := some time }
  else pure sample

def parseCallChainSample (sampleType : UInt64) (sample : SampleRecordRef) :
    Reader SampleRecordRef :=
  if hasSample sampleType PERF_SAMPLE_CALLCHAIN then do
    let len ← readU64
    let addresses ← readU64Slice len.toNat
    pure { sample with callChain := some ⟨addresses⟩ }
  else pure sample

def parseUserRegsSample (sampleType : UInt64) (parser : Parser) (sample : SampleRecordRef) :
    Reader SampleRecordRef :=
  if hasSample sampleType PERF_SAMPLE_REGS_USER then do
    let word ← readU64
    let abi := word.toUInt32
    if abi = PERF_SAMPLE_REGS_ABI_NONE then pure sample
    else if abi = PERF_SAMPLE_REGS_ABI_32 ∨ abi = PERF_SAMPLE_REGS_ABI_64 then do
      -- records of 32-bit processes are read to their end, but their registers are not used
      let regs ← readU64Slice parser.userRegs
      pure (if abi = PERF_SAMPLE_REGS_ABI_64 then { sample with userRegs := some regs } else sample)
    else failure
  else pure sample

/-- The kernel leaves the filled length out where it reserved no stack. -/
def readDynLen (len : ℕ) : Reader UInt64 := if len = 0 then pure 0 else readU64

def parseUserStackSample (sampleType : UInt64) (sample : SampleRecordRef) :
    Reader SampleRecordRef :=
  if hasSample sampleType PERF_SAMPLE_STACK_USER then do
    let len ← readU64
    let bytes ← readBytes len.toNat
    let dynLen ← readDynLen len.toNat
    if len.toNat < dynLen.toNat then failure
    else pure { sample with userStack := some ⟨bytes.addr, bytes.elems.take dynLen.toNat⟩ }
  else pure sample

def parseStackSampleFields (sampleType : UInt64) (parser : Parser) (sample : SampleRecordRef) :
    Reader SampleRecordRef := do
  let sample ← parseCallChainSample sampleType sample
  let sample ← parseUserRegsSample sampleType parser sample
  parseUserStackSample sampleType sample

def SampleRecordRef.empty : SampleRecordRef := ⟨none, none, none, none, none, none⟩

def readSampleRecord (parser : Parser) : Reader (Priv × SampleRecordRef) := do
  let header ← readSampleHeader
  if sampleTypeSupported parser.sampleType then do
    let sample ← parseCommonSampleFields parser.sampleType header.misc .empty
    let sample ← parseStackSampleFields parser.sampleType parser sample
    let finished ← isFinished
    if finished then pure (privFromMisc header.misc, sample) else failure
  else failure

def parseSampleRecord (bytes : Slice UInt8) (parser : Parser) : Option (Priv × SampleRecordRef) :=
  if isU64Aligned bytes then ((readSampleRecord parser).run (.new bytes)).map Prod.fst else none

end StackPulse.SampleRecords
