import StackPulse.SampleRecords
import Mathlib.Data.Nat.Bitwise

/-!
The format of sample records, stated on its own: the fields of a record, the bytes that they are
written as, and the conditions on them. `parseSampleRecord` accepts exactly the bytes of such
records, and the slices that it returns lie where the format puts them.
-/
namespace StackPulse.SampleFormat

open MemoryWords ByteReaders SampleRecords

variable {bytes : Slice UInt8} {bit : ℕ}

/-- The bits of the instruction pointer, the ids and the time are set, and no bit but those of the
six fields is. -/
structure Supported (sampleType : UInt64) : Prop where
  required : ∀ bit ∈ [0, 1, 2], sampleType.toNat.testBit bit = true
  known : ∀ bit, sampleType.toNat.testBit bit = true → bit ∈ [0, 1, 2, 5, 12, 13]

theorem testBit_lt {n : ℕ} (hn : n < 2 ^ 64) (h : n.testBit bit = true) : bit < 64 := by
  by_contra hbit
  have hpow : n < 2 ^ bit := lt_of_lt_of_le hn (Nat.pow_le_pow_right (by decide) (by omega))
  rw [Nat.testBit_lt_two_pow hpow] at h
  cases h

theorem required_testBit :
    REQUIRED_SAMPLE_TYPE.toNat.testBit bit = true ↔ bit ∈ [0, 1, 2] := by
  have hall : ∀ i < 64, REQUIRED_SAMPLE_TYPE.toNat.testBit i = true ↔ i ∈ [0, 1, 2] := by decide
  constructor
  · intro h
    exact (hall bit (testBit_lt (UInt64.toNat_lt _) h)).mp h
  · intro h
    have hbit : bit < 64 := by
      simp only [List.mem_cons, List.not_mem_nil, or_false] at h
      omega
    exact (hall bit hbit).mpr h

theorem unsupported_testBit (hbit : bit < 64) :
    (~~~SUPPORTED_SAMPLE_TYPE).toNat.testBit bit = true ↔ bit ∉ [0, 1, 2, 5, 12, 13] := by
  have hall : ∀ i < 64, (~~~SUPPORTED_SAMPLE_TYPE).toNat.testBit i = true ↔
      i ∉ [0, 1, 2, 5, 12, 13] := by decide
  exact hall bit hbit

theorem sampleTypeSupported_iff (sampleType : UInt64) :
    sampleTypeSupported sampleType = true ↔ Supported sampleType := by
  unfold sampleTypeSupported
  rw [Bool.and_eq_true, beq_iff_eq, beq_iff_eq]
  constructor
  · rintro ⟨hrequired, hknown⟩
    refine ⟨fun bit hbit => ?_, fun bit hset => ?_⟩
    · have hboth := congrArg (fun v : UInt64 => v.toNat.testBit bit) hrequired
      simp only [UInt64.toNat_and, Nat.testBit_and, required_testBit.mpr hbit,
        Bool.and_true] at hboth
      exact hboth
    · by_contra hbit
      have hlt := testBit_lt (UInt64.toNat_lt _) hset
      have hnone := congrArg (fun v : UInt64 => v.toNat.testBit bit) hknown
      simp only [UInt64.toNat_and, Nat.testBit_and, hset,
        (unsupported_testBit hlt).mpr hbit] at hnone
      simp at hnone
  · rintro ⟨hrequired, hknown⟩
    refine ⟨UInt64.toNat_inj.mp ?_, UInt64.toNat_inj.mp ?_⟩ <;> rw [UInt64.toNat_and] <;>
      apply Nat.eq_of_testBit_eq <;> intro bit <;> rw [Nat.testBit_and]
    · by_cases hbit : bit ∈ [0, 1, 2]
      · rw [hrequired bit hbit, required_testBit.mpr hbit]
        rfl
      · rw [Bool.eq_false_iff.mpr fun h => hbit (required_testBit.mp h), Bool.and_false]
    · cases hset : sampleType.toNat.testBit bit with
      | false => simp
      | true =>
        have hlt := testBit_lt (UInt64.toNat_lt _) hset
        rw [Bool.eq_false_iff.mpr fun h => (unsupported_testBit hlt).mp h (hknown bit hset)]
        simp

/-- The test of a flag is the test of its bit. -/
theorem hasSample_eq (sampleType flag : UInt64) (bit : ℕ) (hflag : flag.toNat = 2 ^ bit) :
    hasSample sampleType flag = sampleType.toNat.testBit bit := by
  unfold hasSample
  rw [Bool.eq_iff_iff, bne_iff_ne, ne_eq, ← UInt64.toNat_inj, UInt64.toNat_and, hflag,
    Nat.and_two_pow]
  cases sampleType.toNat.testBit bit <;> simp

/-- The register block: its ABI word, and the registers that follow. -/
structure Registers where
  abi : UInt64
  regs : List UInt64
  deriving DecidableEq, Repr

/-- The stack block: the bytes that were reserved, and how many of them were filled. -/
structure UserStack where
  bytes : List UInt8
  dynLen : UInt64
  deriving DecidableEq, Repr

structure SampleFields where
  misc : UInt16
  ip : UInt64
  pid : UInt32
  tid : UInt32
  time : UInt64
  callChain : Option (List UInt64)
  userRegs : Option Registers
  userStack : Option UserStack
  deriving DecidableEq, Repr

def chainBytes : Option (List UInt64) → List UInt8
  | none => []
  | some chain => u64.encode (.ofNat chain.length) ++ u64.encodeArray chain

def regsBytes : Option Registers → List UInt8
  | none => []
  | some block => u64.encode block.abi ++ u64.encodeArray block.regs

def stackBytes : Option UserStack → List UInt8
  | none => []
  | some block =>
      u64.encode (.ofNat block.bytes.length) ++ (block.bytes ++
        if block.bytes = [] then [] else u64.encode block.dynLen)

def commonBytes (ip : UInt64) (pid tid : UInt32) (time : UInt64) : List UInt8 :=
  u64.encode ip ++ (u32.encode pid ++ (u32.encode tid ++ u64.encode time))

namespace SampleFields

def payload (x : SampleFields) : List UInt8 :=
  commonBytes x.ip x.pid x.tid x.time ++
    (chainBytes x.callChain ++ (regsBytes x.userRegs ++ stackBytes x.userStack))

/-- The header with the length of the whole record, and the fields. -/
def record (x : SampleFields) : List UInt8 :=
  u32.encode PERF_RECORD_SAMPLE ++ (u16.encode x.misc ++
    (u16.encode (.ofNat (8 + x.payload.length)) ++ x.payload))

end SampleFields

/-- Registers follow an ABI word unless its low half is zero. -/
def Registers.Valid (count : ℕ) (block : Registers) : Prop :=
  (block.abi.toUInt32 = 0 ∧ block.regs = []) ∨
    ((block.abi.toUInt32 = 1 ∨ block.abi.toUInt32 = 2) ∧ block.regs.length = count)

/-- What the layout asks of the fields: those of the sample type are there, lengths agree. -/
structure Follows (parser : Parser) (x : SampleFields) : Prop where
  supported : Supported parser.sampleType
  callChain : x.callChain.isSome = parser.sampleType.toNat.testBit 5
  userRegs : x.userRegs.isSome = parser.sampleType.toNat.testBit 12
  userStack : x.userStack.isSome = parser.sampleType.toNat.testBit 13
  regs : ∀ block, x.userRegs = some block → block.Valid parser.userRegs
  dynLen : ∀ block, x.userStack = some block → block.dynLen.toNat ≤ block.bytes.length
  size : 8 + x.payload.length < 2 ^ 16

def regs64 (block : Registers) : Option (List UInt64) :=
  if block.abi.toUInt32 = 2 then some block.regs else none

def UserStack.filled (block : UserStack) : List UInt8 := block.bytes.take block.dynLen.toNat

/-- The values of a sample, apart from where they lie. -/
structure SampleValues where
  task : Option TaskRef
  time : Option UInt64
  codeAddr : Option (UInt64 × Bool)
  userRegs : Option (List UInt64)
  userStack : Option (List UInt8)
  callChain : Option (List UInt64)
  deriving DecidableEq, Repr

def valuesOf (sample : SampleRecordRef) : SampleValues where
  task := sample.task
  time := sample.time
  codeAddr := sample.codeAddr
  userRegs := sample.userRegs.map Slice.elems
  userStack := sample.userStack.map Slice.elems
  callChain := sample.callChain.map fun chain => chain.addresses.elems

/-- The kernel marks an instruction pointer that is exact. -/
def exactIp (misc : UInt16) : Bool := misc.toUInt32 &&& PERF_RECORD_MISC_EXACT_IP != 0

namespace SampleFields

def values (x : SampleFields) : SampleValues where
  task := some ⟨x.pid, x.tid⟩
  time := some x.time
  codeAddr := some (x.ip, exactIp x.misc)
  userRegs := x.userRegs.bind regs64
  userStack := x.userStack.map UserStack.filled
  callChain := x.callChain

end SampleFields

/-- The slices of the three blocks, for blocks that begin at an address. -/
def placeChain (addr : ℕ) (chain : Option (List UInt64)) : Option CallChainRef :=
  chain.map fun chain => ⟨⟨addr + 8, chain⟩⟩

def placeRegs (addr : ℕ) (block : Option Registers) : Option (Slice UInt64) :=
  (block.bind regs64).map fun regs => ⟨addr + 8, regs⟩

def placeStack (addr : ℕ) (block : Option UserStack) : Option (Slice UInt8) :=
  block.map fun block => ⟨addr + 8, block.filled⟩

section

variable {offset : ℕ} {sampleType : UInt64} {sample : SampleRecordRef}

theorem decodes_readRecordHeader : Decodes bytes offset readRecordHeader fun bs header =>
    ∃ size : UInt16, header.size = size.toNat ∧
      bs = u32.encode header.recordType ++ (u16.encode header.misc ++ u16.encode size) := by
  have hbody : Decodes bytes offset readRecordHeader _ :=
    (decodes_readWord u32).bind fun recordType _ _ =>
      (decodes_readWord u16).bind fun misc _ _ =>
        (decodes_readWord u16).bind fun size _ _ =>
          Decodes.pure (⟨recordType, misc, size.toNat⟩ : PerfRecordHeader)
  refine hbody.congr fun bs header _ => ?_
  constructor
  · rintro ⟨recordType, _, _, rfl, rfl, misc, _, _, rfl, rfl, size, _, _, rfl, rfl, rfl, rfl⟩
    exact ⟨size, rfl, by rw [List.append_nil]⟩
  · rintro ⟨size, hsize, rfl⟩
    refine ⟨header.recordType, _, _, rfl, rfl, header.misc, _, _, rfl, rfl, size, _, [],
      (List.append_nil _).symm, rfl, rfl, ?_⟩
    rw [← hsize]

theorem decodes_parseCommonSampleFields (misc : UInt16) (h : Supported sampleType) :
    Decodes bytes offset (parseCommonSampleFields sampleType misc sample) fun bs a =>
      ∃ ip pid tid time, bs = commonBytes ip pid tid time ∧
        a = { sample with task := some ⟨pid, tid⟩, time := some time,
                          codeAddr := some (ip, exactIp misc) } := by
  have hip : hasSample sampleType PERF_SAMPLE_IP = true :=
    (hasSample_eq _ _ 0 rfl).trans (h.required 0 (by decide))
  have htid : hasSample sampleType PERF_SAMPLE_TID = true :=
    (hasSample_eq _ _ 1 rfl).trans (h.required 1 (by decide))
  have htime : hasSample sampleType PERF_SAMPLE_TIME = true :=
    (hasSample_eq _ _ 2 rfl).trans (h.required 2 (by decide))
  unfold parseCommonSampleFields
  rw [if_pos hip]
  simp only [if_pos htid, if_pos htime, pure_bind]
  refine ((decodes_readWord u64).bind fun ip _ _ => (decodes_readWord u32).bind fun pid _ _ =>
    (decodes_readWord u32).bind fun tid _ _ => (decodes_readWord u64).bind fun time _ _ =>
      Decodes.pure _).congr fun bs a _ => ?_
  constructor
  · rintro ⟨ip, _, _, rfl, rfl, pid, _, _, rfl, rfl, tid, _, _, rfl, rfl, time, _, _, rfl, rfl,
      rfl, rfl⟩
    refine ⟨ip, pid, tid, time, ?_, rfl⟩
    rw [List.append_nil]
    rfl
  · rintro ⟨ip, pid, tid, time, rfl, rfl⟩
    exact ⟨ip, _, _, rfl, rfl, pid, _, _, rfl, rfl, tid, _, _, rfl, rfl, time, _, [],
      (List.append_nil _).symm, rfl, rfl, rfl⟩

/-- The addresses of a call chain, behind their count. -/
theorem decodes_callChain (sample : SampleRecordRef) (haligned : (bytes.addr + offset) % 8 = 0) :
    Decodes bytes offset
      (do
        let len ← readU64
        let addresses ← readU64Slice len.toNat
        pure { sample with callChain := some ⟨addresses⟩ }) fun bs a =>
        ∃ chain, bs = chainBytes (some chain) ∧
          a = { sample with callChain := placeChain (bytes.addr + offset) (some chain) } := by
  refine ((decodes_readWord u64).bind fun len _ _ => (decodes_readU64Slice len.toNat).bind
    fun addresses _ _ => Decodes.pure _).congr fun bs a hshort => ?_
  constructor
  · rintro ⟨len, _, _, rfl, rfl, addresses, _, _, rfl, ⟨-, haddr, hlen, rfl⟩, rfl, rfl⟩
    have haddr : addresses.addr = bytes.addr + (offset + 8) := haddr
    refine ⟨addresses.elems, ?_, ?_⟩
    · rw [chainBytes, List.append_nil, hlen, UInt64.ofNat_toNat]
    · rw [placeChain, Option.map_some, Nat.add_assoc, ← haddr]
  · rintro ⟨chain, rfl, rfl⟩
    have hlen : (UInt64.ofNat chain.length).toNat = chain.length := by
      rw [chainBytes, List.length_append, u64.length_encodeArray,
        show u64.width = 8 from rfl] at hshort
      exact UInt64.toNat_ofNat_of_lt (show _ < 2 ^ 64 by omega)
    have haligned : (bytes.addr + (offset + 8)) % 8 = 0 := by omega
    refine ⟨.ofNat chain.length, _, _, rfl, rfl, ⟨bytes.addr + (offset + 8), chain⟩,
      u64.encodeArray chain, [], (List.append_nil _).symm, ⟨haligned, rfl, hlen.symm, rfl⟩, rfl, ?_⟩
    rw [placeChain, Option.map_some, Nat.add_assoc]

theorem decodes_parseCallChainSample (haligned : (bytes.addr + offset) % 8 = 0)
    (hnone : sample.callChain = none) :
    Decodes bytes offset (parseCallChainSample sampleType sample) fun bs a =>
      ∃ chain : Option (List UInt64), chain.isSome = sampleType.toNat.testBit 5 ∧
        bs = chainBytes chain ∧
        a = { sample with callChain := placeChain (bytes.addr + offset) chain } := by
  unfold parseCallChainSample
  rw [hasSample_eq _ PERF_SAMPLE_CALLCHAIN 5 rfl]
  have hoptional : Decodes bytes offset _ fun bs a => ∃ chain : Option (List UInt64),
      chain.isSome = sampleType.toNat.testBit 5 ∧ (∀ addresses, chain = some addresses → True) ∧
        bs = chainBytes chain ∧
        a = { sample with callChain := placeChain (bytes.addr + offset) chain } :=
    Decodes.optional _ ((decodes_callChain sample haligned).congr fun bs a _ => by
      simp only [true_and]) rfl (by rw [placeChain, Option.map_none, ← hnone])
  exact hoptional.congr fun bs a _ => by simp only [implies_true, true_and]

/-- The registers behind an ABI word. -/
theorem decodes_registers (word : UInt64) (count : ℕ) (haligned : (bytes.addr + offset) % 8 = 0)
    (hnone : sample.userRegs = none) :
    Decodes bytes offset
      (if word.toUInt32 = PERF_SAMPLE_REGS_ABI_NONE then pure sample
      else if word.toUInt32 = PERF_SAMPLE_REGS_ABI_32 ∨ word.toUInt32 = PERF_SAMPLE_REGS_ABI_64 then
        do
          let regs ← readU64Slice count
          pure (if word.toUInt32 = PERF_SAMPLE_REGS_ABI_64 then
            { sample with userRegs := some regs }
            else sample)
      else failure) fun bs a =>
        ∃ regs, Registers.Valid count ⟨word, regs⟩ ∧ bs = u64.encodeArray regs ∧
          a = { sample with
            userRegs := (regs64 ⟨word, regs⟩).map fun regs => ⟨bytes.addr + offset, regs⟩ } := by
  have hsame : { sample with userRegs := none } = sample := by rw [← hnone]
  by_cases hzero : word.toUInt32 = PERF_SAMPLE_REGS_ABI_NONE
  · rw [if_pos hzero]
    have hregs : ∀ regs, regs64 ⟨word, regs⟩ = none := fun regs => by
      unfold regs64
      rw [hzero]
      rfl
    refine (Decodes.pure sample).congr fun bs a _ => ?_
    constructor
    · rintro ⟨rfl, rfl⟩
      exact ⟨[], .inl ⟨hzero, rfl⟩, rfl, by rw [hregs, Option.map_none, hsame]⟩
    · rintro ⟨regs, hvalid, rfl, rfl⟩
      rcases hvalid with ⟨-, hnil⟩ | ⟨habi, -⟩
      · have hnil : regs = [] := hnil
        rw [hregs, Option.map_none, hsame, hnil]
        exact ⟨rfl, rfl⟩
      · rw [hzero] at habi
        exact absurd habi (by decide)
  · have hkept : ∀ regs : Slice UInt64,
        (if word.toUInt32 = PERF_SAMPLE_REGS_ABI_64 then { sample with userRegs := some regs }
          else sample) = { sample with
            userRegs := (regs64 ⟨word, regs.elems⟩).map fun elems => ⟨regs.addr, elems⟩ } := by
      intro regs
      by_cases h64 : word.toUInt32 = PERF_SAMPLE_REGS_ABI_64
      · have hregs : regs64 ⟨word, regs.elems⟩ = some regs.elems := if_pos h64
        rw [if_pos h64, hregs, Option.map_some]
      · have hregs : regs64 ⟨word, regs.elems⟩ = none := if_neg h64
        rw [if_neg h64, hregs, Option.map_none, hsame]
    rw [if_neg hzero]
    refine (((decodes_readU64Slice count).bind fun regs _ _ => Decodes.pure _).guard _).congr
      fun bs a _ => ?_
    constructor
    · rintro ⟨habi, regs, _, _, rfl, ⟨-, haddr, hlen, rfl⟩, rfl, rfl⟩
      refine ⟨regs.elems, .inr ⟨habi, hlen⟩, List.append_nil _, ?_⟩
      rw [hkept, haddr]
    · rintro ⟨regs, hvalid, rfl, rfl⟩
      rcases hvalid with ⟨habi, -⟩ | ⟨habi, hlen⟩
      · exact absurd habi hzero
      · exact ⟨habi, ⟨bytes.addr + offset, regs⟩, _, [], (List.append_nil _).symm,
          ⟨haligned, rfl, hlen, rfl⟩, rfl, (hkept ⟨bytes.addr + offset, regs⟩).symm⟩

theorem decodes_parseUserRegsSample (parser : Parser) (haligned : (bytes.addr + offset) % 8 = 0)
    (hnone : sample.userRegs = none) :
    Decodes bytes offset (parseUserRegsSample sampleType parser sample) fun bs a =>
      ∃ block : Option Registers, block.isSome = sampleType.toNat.testBit 12 ∧
        (∀ regs, block = some regs → regs.Valid parser.userRegs) ∧ bs = regsBytes block ∧
        a = { sample with userRegs := placeRegs (bytes.addr + offset) block } := by
  unfold parseUserRegsSample
  rw [hasSample_eq _ PERF_SAMPLE_REGS_USER 12 rfl]
  refine Decodes.optional _ ?_ rfl (by rw [placeRegs, Option.bind_none, Option.map_none, ← hnone])
  have hbehind : ∀ {word : UInt64} {bs : List UInt8}, bs = u64.encode word →
      (bytes.addr + (offset + bs.length)) % 8 = 0 := by
    rintro word _ rfl
    rw [u64.length_encode, show u64.width = 8 from rfl]
    omega
  refine ((decodes_readWord u64).bind fun word bs hbs => decodes_registers word parser.userRegs
    (hbehind hbs) hnone).congr fun bs a _ => ?_
  constructor
  · rintro ⟨word, _, _, rfl, rfl, regs, hvalid, rfl, rfl⟩
    exact ⟨⟨word, regs⟩, hvalid, rfl, by rw [placeRegs, Option.bind_some, Nat.add_assoc]; rfl⟩
  · rintro ⟨⟨word, regs⟩, hvalid, rfl, rfl⟩
    exact ⟨word, _, _, rfl, rfl, regs, hvalid, rfl, by
      rw [placeRegs, Option.bind_some, Nat.add_assoc]; rfl⟩

theorem decodes_readDynLen (len : ℕ) : Decodes bytes offset (readDynLen len) fun bs dynLen =>
    (len = 0 → dynLen = 0) ∧ bs = if len = 0 then [] else u64.encode dynLen := by
  unfold readDynLen
  by_cases hzero : len = 0
  · simp only [hzero, true_implies]
    exact (Decodes.pure (0 : UInt64)).congr fun bs a _ => and_comm
  · simp only [hzero, false_implies, true_and]
    exact decodes_readWord u64

theorem decodes_parseUserStackSample (hnone : sample.userStack = none) :
    Decodes bytes offset (parseUserStackSample sampleType sample) fun bs a =>
      ∃ block : Option UserStack, block.isSome = sampleType.toNat.testBit 13 ∧
        (∀ reserved, block = some reserved → reserved.dynLen.toNat ≤ reserved.bytes.length) ∧
        bs = stackBytes block ∧
        a = { sample with userStack := placeStack (bytes.addr + offset) block } := by
  unfold parseUserStackSample
  rw [hasSample_eq _ PERF_SAMPLE_STACK_USER 13 rfl]
  refine Decodes.optional _ ?_ rfl (by rw [placeStack, Option.map_none, ← hnone])
  refine ((decodes_readWord u64).bind fun len _ _ => (decodes_readBytes len.toNat).bind
    fun part _ _ => (decodes_readDynLen len.toNat).bind fun dynLen _ _ =>
      (Decodes.pure _).reject (len.toNat < dynLen.toNat)).congr fun bs a hshort => ?_
  constructor
  · rintro ⟨len, _, _, rfl, rfl, part, reserved, _, rfl, ⟨hlen, rfl⟩, dynLen, _, _, rfl, ⟨-, rfl⟩,
      hle, rfl, rfl⟩
    refine ⟨⟨reserved, dynLen⟩, by rw [← hlen] at hle; exact Nat.not_lt.mp hle, ?_, ?_⟩
    · rw [stackBytes, List.append_nil, hlen, UInt64.ofNat_toNat, ← hlen]
      simp only [List.length_eq_zero_iff]
    · rw [placeStack, Option.map_some, Nat.add_assoc]
      rfl
  · rintro ⟨⟨reserved, dynLen⟩, hle, rfl, rfl⟩
    have hle : dynLen.toNat ≤ reserved.length := hle
    have hlen : (UInt64.ofNat reserved.length).toNat = reserved.length := by
      rw [stackBytes, List.length_append, List.length_append] at hshort
      have hshort : _ + (reserved.length + _) < 2 ^ 64 := hshort
      exact UInt64.toNat_ofNat_of_lt (show _ < 2 ^ 64 by omega)
    refine ⟨.ofNat reserved.length, _, _, rfl, rfl, ⟨bytes.addr + (offset + 8), reserved⟩, reserved,
      _, rfl, ⟨hlen.symm, rfl⟩, dynLen, _, [], (List.append_nil _).symm, ⟨fun hzero => ?_, ?_⟩, ?_,
      rfl, ?_⟩
    · rw [hlen] at hzero
      exact UInt64.toNat_inj.mp (Nat.le_zero.mp (hzero ▸ hle))
    · rw [hlen]
      simp only [List.length_eq_zero_iff]
    · rw [hlen]
      exact Nat.not_lt.mpr hle
    · rw [placeStack, Option.map_some, Nat.add_assoc]
      rfl

end

/-- The slices of a record that lies at an address. -/
def SampleFields.placed (addr : ℕ) (x : SampleFields) : SampleRecordRef where
  task := some ⟨x.pid, x.tid⟩
  time := some x.time
  codeAddr := some (x.ip, exactIp x.misc)
  userRegs := placeRegs (addr + 32 + (chainBytes x.callChain).length) x.userRegs
  userStack := placeStack
    (addr + 32 + (chainBytes x.callChain).length + (regsBytes x.userRegs).length) x.userStack
  callChain := placeChain (addr + 32) x.callChain

theorem valuesOf_placed (addr : ℕ) (x : SampleFields) : valuesOf (x.placed addr) = x.values := by
  unfold valuesOf SampleFields.placed SampleFields.values placeRegs placeStack placeChain
  congr 1
  · simp only [Option.map_map]
    exact Option.map_id'
  · simp only [Option.map_map]
    rfl
  · simp only [Option.map_map]
    exact Option.map_id'

theorem words_length_mod (word : UInt64) (words : List UInt64) :
    (u64.encode word ++ u64.encodeArray words).length % 8 = 0 := by
  rw [List.length_append, u64.length_encode, u64.length_encodeArray, show u64.width = 8 from rfl]
  omega

theorem chainBytes_length_mod (chain : Option (List UInt64)) :
    (chainBytes chain).length % 8 = 0 := by
  cases chain with
  | none => rfl
  | some chain => exact words_length_mod _ chain

theorem regsBytes_length_mod (block : Option Registers) : (regsBytes block).length % 8 = 0 := by
  cases block with
  | none => rfl
  | some block => exact words_length_mod block.abi block.regs

theorem decodes_parseStackSampleFields {offset : ℕ} (parser : Parser) (sample : SampleRecordRef)
    (haligned : (bytes.addr + offset) % 8 = 0) (hempty : sample.callChain = none ∧
      sample.userRegs = none ∧ sample.userStack = none) :
    Decodes bytes offset (parseStackSampleFields parser.sampleType parser sample) fun bs a =>
      ∃ (chain : Option (List UInt64)) (regs : Option Registers) (reserved : Option UserStack),
        chain.isSome = parser.sampleType.toNat.testBit 5 ∧
        regs.isSome = parser.sampleType.toNat.testBit 12 ∧
        reserved.isSome = parser.sampleType.toNat.testBit 13 ∧
        (∀ block, regs = some block → block.Valid parser.userRegs) ∧
        (∀ block, reserved = some block → block.dynLen.toNat ≤ block.bytes.length) ∧
        bs = chainBytes chain ++ (regsBytes regs ++ stackBytes reserved) ∧
        a = { sample with
          callChain := placeChain (bytes.addr + offset) chain
          userRegs := placeRegs (bytes.addr + offset + (chainBytes chain).length) regs
          userStack := placeStack (bytes.addr + offset + (chainBytes chain).length +
            (regsBytes regs).length) reserved } := by
  obtain ⟨hchain, hregs, hstack⟩ := hempty
  refine ((decodes_parseCallChainSample haligned hchain).bind fun a₁ bs₁ h₁ =>
    (decodes_parseUserRegsSample parser (by
      obtain ⟨chain, -, rfl, -⟩ := h₁
      have := chainBytes_length_mod chain
      omega) (by
      obtain ⟨chain, -, -, rfl⟩ := h₁
      exact hregs)).bind fun a₂ bs₂ h₂ => decodes_parseUserStackSample (by
        obtain ⟨chain, -, -, rfl⟩ := h₁
        obtain ⟨regs, -, -, -, rfl⟩ := h₂
        exact hstack)).congr fun bs a _ => ?_
  constructor
  · rintro ⟨_, _, _, rfl, ⟨chain, hchain, rfl, rfl⟩, _, _, _, rfl, ⟨regs, hsome, hvalid, rfl, rfl⟩,
      reserved, hreserved, hle, rfl, rfl⟩
    refine ⟨chain, regs, reserved, hchain, hsome, hreserved, hvalid, hle, rfl, ?_⟩
    simp only [Nat.add_assoc]
  · rintro ⟨chain, regs, reserved, hchain, hsome, hreserved, hvalid, hle, rfl, rfl⟩
    refine ⟨_, _, _, rfl, ⟨chain, hchain, rfl, rfl⟩, _, _, _, rfl, ⟨regs, hsome, hvalid, rfl, rfl⟩,
      reserved, hreserved, hle, rfl, ?_⟩
    simp only [Nat.add_assoc]

theorem decodes_readSampleHeader {offset : ℕ} :
    Decodes bytes offset readSampleHeader fun bs header =>
      header.recordType = PERF_RECORD_SAMPLE ∧ header.size = bytes.elems.length ∧
        bytes.elems.length < 2 ^ 16 ∧ bs = u32.encode PERF_RECORD_SAMPLE ++
          (u16.encode header.misc ++ u16.encode (.ofNat bytes.elems.length)) := by
  refine (decodes_readRecordHeader.bind fun header _ _ => Decodes.get.bind fun cursor _ _ =>
    (Decodes.pure header).guard _).congr fun bs header _ => ?_
  constructor
  · rintro ⟨_, _, _, rfl, ⟨size, hsize, rfl⟩, _, _, _, rfl, ⟨rfl, rfl⟩, ⟨hsample, hlen⟩, rfl, rfl⟩
    have hsample : header.recordType = PERF_RECORD_SAMPLE := beq_iff_eq.mp hsample
    have hlen : header.size = bytes.elems.length := beq_iff_eq.mp hlen
    have hlt : size.toNat < 2 ^ 16 := size.toNat_lt
    refine ⟨hsample, hlen, by omega, ?_⟩
    rw [hsample, ← hlen, hsize, UInt16.ofNat_toNat]
    simp only [List.append_nil]
  · rintro ⟨hsample, hlen, hlt, rfl⟩
    refine ⟨header, _, [], (List.append_nil _).symm, ⟨.ofNat bytes.elems.length, ?_, ?_⟩, _, [], [],
      rfl, ⟨rfl, rfl⟩, ⟨beq_iff_eq.mpr hsample, beq_iff_eq.mpr hlen⟩, rfl, rfl⟩
    · rw [hlen]
      exact (UInt16.toNat_ofNat_of_lt hlt).symm
    · rw [hsample]

theorem decodes_isFinished {offset : ℕ} : Decodes bytes offset isFinished fun bs finished =>
      bs = [] ∧ finished = (offset == bytes.elems.length) := by
  intro _ _ a c
  constructor
  · intro h
    cases h
    exact ⟨[], List.nil_prefix, ⟨rfl, rfl⟩, rfl⟩
  · rintro ⟨bs, -, ⟨rfl, rfl⟩, rfl⟩
    rfl

theorem commonBytes_length (ip : UInt64) (pid tid : UInt32) (time : UInt64) :
    (commonBytes ip pid tid time).length = 24 := by
  simp only [commonBytes, List.length_append, Word.length_encode]
  rfl

theorem headerBytes_length (misc size : UInt16) :
    (u32.encode PERF_RECORD_SAMPLE ++ (u16.encode misc ++ u16.encode size)).length = 8 := by
  simp only [List.length_append, Word.length_encode]
  rfl

theorem record_eq (x : SampleFields) : x.record = (u32.encode PERF_RECORD_SAMPLE ++
    (u16.encode x.misc ++ u16.encode (.ofNat (8 + x.payload.length)))) ++ x.payload := by
  simp only [SampleFields.record, List.append_assoc]

theorem record_length (x : SampleFields) : x.record.length = 8 + x.payload.length := by
  rw [record_eq, List.length_append, headerBytes_length]

/-- A record is read to its end, and its slices lie where the format puts them. -/
theorem decodes_readSampleRecord (parser : Parser) (haligned : bytes.addr % 8 = 0) :
    Decodes bytes 0 (readSampleRecord parser) fun bs a => ∃ x, Follows parser x ∧ bs = x.record ∧
      bytes.elems.length = bs.length ∧ a = (privFromMisc x.misc, x.placed bytes.addr) := by
  have hsupported := sampleTypeSupported_iff parser.sampleType
  unfold readSampleRecord
  by_cases hsup : Supported parser.sampleType
  · simp only [if_pos (hsupported.mpr hsup)]
    refine (decodes_readSampleHeader.bind fun header bs₁ h₁ =>
      (decodes_parseCommonSampleFields header.misc hsup).bind fun s₁ bs₂ h₂ =>
        (decodes_parseStackSampleFields parser s₁ (by
          obtain ⟨-, -, -, rfl⟩ := h₁
          obtain ⟨ip, pid, tid, time, rfl, -⟩ := h₂
          rw [headerBytes_length, commonBytes_length]
          omega) (by
          obtain ⟨ip, pid, tid, time, -, rfl⟩ := h₂
          exact ⟨rfl, rfl, rfl⟩)).bind fun s₂ bs₃ h₃ =>
            decodes_isFinished.bind fun finished bs₄ h₄ =>
            (Decodes.pure _).guard (finished = true)).congr fun bs a _ => ?_
    constructor
    · rintro ⟨header, _, _, rfl, ⟨-, -, hlt, rfl⟩, _, _, _, rfl, ⟨ip, pid, tid, time, rfl, rfl⟩,
        _, _, _, rfl, ⟨chain, regs, reserved, hchain, hregs, hreserved, hvalid, hle, rfl, rfl⟩,
        _, _, _, rfl, ⟨rfl, rfl⟩, hfinished, rfl, rfl⟩
      let x : SampleFields := ⟨header.misc, ip, pid, tid, time, chain, regs, reserved⟩
      have hpayload : x.payload = commonBytes ip pid tid time ++
        (chainBytes chain ++ (regsBytes regs ++ stackBytes reserved)) := rfl
      have hsize : 8 + x.payload.length = bytes.elems.length := by
        have hlen := beq_iff_eq.mp hfinished
        rw [headerBytes_length, commonBytes_length] at hlen
        rw [hpayload, List.length_append, commonBytes_length]
        omega
      have hrecord : x.record = u32.encode PERF_RECORD_SAMPLE ++
          (u16.encode header.misc ++ u16.encode (.ofNat bytes.elems.length)) ++ x.payload := by
        rw [record_eq, hsize]
      refine ⟨x, ⟨hsup, hchain, hregs, hreserved, hvalid, hle, hsize ▸ hlt⟩, ?_, ?_, ?_⟩
      · rw [hrecord, hpayload, List.append_nil, List.append_nil]
      · rw [← hsize, List.append_nil, List.append_nil, ← hpayload, List.length_append,
          headerBytes_length]
      · simp only [headerBytes_length, commonBytes_length]
        rfl
    · rintro ⟨x, hx, rfl, hlen, rfl⟩
      rw [record_length] at hlen
      have hlt : bytes.elems.length < 2 ^ 16 := hlen ▸ hx.size
      refine ⟨⟨PERF_RECORD_SAMPLE, x.misc, bytes.elems.length⟩, _, _, ?_, ⟨rfl, rfl, hlt, rfl⟩, _,
        _, _, rfl, ⟨x.ip, x.pid, x.tid, x.time, rfl, rfl⟩, _, _, [], (List.append_nil _).symm,
        ⟨x.callChain, x.userRegs, x.userStack, hx.callChain, hx.userRegs, hx.userStack, hx.regs,
          hx.dynLen, rfl, rfl⟩, true, [], [], rfl, ⟨rfl, ?_⟩, rfl, rfl, ?_⟩
      · rw [record_eq, hlen]
        rfl
      · refine (beq_iff_eq.mpr ?_).symm
        have hpayload : x.payload.length = _ := List.length_append
        rw [commonBytes_length] at hpayload
        rw [headerBytes_length, commonBytes_length, hlen, hpayload]
        omega
      · simp only [headerBytes_length, commonBytes_length]
        rfl
  · simp only [if_neg fun h => hsup (hsupported.mp h)]
    refine (decodes_readSampleHeader.bind fun header _ _ => Decodes.fail).congr fun bs a _ => ?_
    constructor
    · rintro ⟨_, _, _, _, _, h⟩
      exact h.elim
    · rintro ⟨x, hx, -⟩
      exact absurd hx.supported hsup

/-- A record longer than a header can say is refused with its header. -/
theorem readSampleHeader_short {header : PerfRecordHeader} {c : ByteCursor}
    (h : readSampleHeader ⟨bytes, 0⟩ = some (header, c)) : bytes.elems.length < 2 ^ 16 := by
  obtain ⟨⟨read, c₁⟩, hread, h⟩ := Option.bind_eq_some_iff.mp h
  obtain ⟨⟨recordType, c₂⟩, htype, hread⟩ := Option.bind_eq_some_iff.mp hread
  obtain ⟨⟨misc, c₃⟩, hmisc, hread⟩ := Option.bind_eq_some_iff.mp hread
  obtain ⟨⟨size, c₄⟩, hsize, hread⟩ := Option.bind_eq_some_iff.mp hread
  cases hread
  have hbytes : c₁.bytes = bytes :=
    (readWord_bytes hsize).trans ((readWord_bytes hmisc).trans (readWord_bytes htype))
  have hcheck : (if (PerfRecordHeader.mk recordType misc size.toNat).isSample ∧
      (PerfRecordHeader.mk recordType misc size.toNat).matchesLen c₁.bytes then
        some (PerfRecordHeader.mk recordType misc size.toNat, c₁) else none) =
          some (header, c) := by
    rw [← h]
    show _ = (if _ then pure _ else failure : Reader PerfRecordHeader) c₁
    split <;> rfl
  split at hcheck
  · rename_i hmatches
    have hlen : size.toNat = c₁.bytes.elems.length := beq_iff_eq.mp hmatches.2
    rw [hbytes] at hlen
    have hlt : size.toNat < 2 ^ 16 := size.toNat_lt
    omega
  · cases hcheck

/-- The bytes that are accepted are the records of the format. -/
theorem parseSampleRecord_eq_some_iff (parser : Parser) (haligned : isU64Aligned bytes = true)
    (privilege : Priv) (sample : SampleRecordRef) :
    parseSampleRecord bytes parser = some (privilege, sample) ↔
      ∃ x, Follows parser x ∧ bytes.elems = x.record ∧ privilege = privFromMisc x.misc ∧
        sample = x.placed bytes.addr := by
  have hdecodes := decodes_readSampleRecord parser (beq_iff_eq.mp haligned)
  unfold parseSampleRecord
  rw [if_pos haligned, Option.map_eq_some_iff]
  by_cases hlen : bytes.elems.length < 2 ^ 64
  · constructor
    · rintro ⟨⟨_, c⟩, hread, rfl⟩
      obtain ⟨_, ⟨rest, hrest⟩, ⟨x, hx, rfl, hall, hresult⟩, -⟩ :=
        (hdecodes (Nat.zero_le _) hlen _ c).mp hread
      rw [List.drop_zero] at hrest
      have hnil : rest = [] := by
        rw [← hrest, List.length_append] at hall
        exact List.eq_nil_of_length_eq_zero (by omega)
      rw [hnil, List.append_nil] at hrest
      exact ⟨x, hx, hrest.symm, (Prod.mk.inj hresult).1, (Prod.mk.inj hresult).2⟩
    · rintro ⟨x, hx, hbytes, rfl, rfl⟩
      refine ⟨_, (hdecodes (Nat.zero_le _) hlen _ _).mpr ⟨x.record, ?_, ⟨x, hx, rfl, ?_, rfl⟩, rfl⟩,
        rfl⟩
      · rw [List.drop_zero, hbytes]
      · rw [hbytes]
  · constructor
    · rintro ⟨⟨_, c⟩, hread, -⟩
      obtain ⟨⟨header, d⟩, hheader, -⟩ := Option.bind_eq_some_iff.mp hread
      have hshort := readSampleHeader_short hheader
      omega
    · rintro ⟨x, hx, hbytes, -⟩
      have hsize := hx.size
      rw [hbytes, record_length] at hlen
      omega

end StackPulse.SampleFormat
