import StackPulse.RingConsumption
import StackPulse.SampleFormat
import Mathlib.Data.List.ReduceOption

/-!
Samples that stay in the ring until they are needed. A sample keeps its record and the byte ranges
of its registers, stack and call chain. Detaching copies the record up to the last of these ranges,
so that the ring space can be given back; a record that wrapped around the ring is a copy already
and is moved.
-/
namespace StackPulse.RingSamples

open PerfRing MemoryWords ByteReaders SampleRecords SampleFormat RingConsumption

/-- The optional value of a fallible function. -/
def optionally {α β : Type} (f : α → Option β) : Option α → Option (Option β)
  | none => some none
  | some a => (f a).map some

def checkedSub (a b : ℕ) : Option ℕ := if a < b then none else some (a - b)

/-- The byte range of a slice within the bytes that it was borrowed from. -/
def sliceByteRange {α : Type} (size : ℕ) (bytes : Slice UInt8) (slice : Slice α) :
    Option (ℕ × ℕ) := do
  let start ← checkedSub slice.addr bytes.addr
  let stop ← checkedAdd start (size * slice.elems.length)
  let _ ← bytes.get start stop
  pure (start, stop)

def u64Slice (bytes : Slice UInt8) : Option (List UInt64) :=
  if isU64Aligned bytes = false ∨ bytes.elems.length % 8 ≠ 0 then none
  else some (u64.decodeArray (bytes.elems.length / 8) bytes.elems)

/-- What a holder of a sample gets to see. -/
structure RingSampleRef where
  userRegs : Option (List UInt64)
  userStack : Option (List UInt8)
  callChain : Option (List UInt64)
  deriving DecidableEq, Repr

structure SampleRecordLayout where
  userRegs : Option (ℕ × ℕ)
  userStack : Option (ℕ × ℕ)
  callChain : Option (ℕ × ℕ)
  deriving DecidableEq, Repr

namespace SampleRecordLayout

def fromSample (bytes : Slice UInt8) (sample : SampleRecordRef) : Option SampleRecordLayout := do
  let userRegs ← optionally (sliceByteRange 8 bytes) sample.userRegs
  let userStack ← optionally (sliceByteRange 1 bytes) sample.userStack
  let callChain ← optionally (fun chain => sliceByteRange 8 bytes chain.addresses) sample.callChain
  pure ⟨userRegs, userStack, callChain⟩

/-- The last byte that the layout reads. -/
def stop (layout : SampleRecordLayout) : ℕ :=
  (([layout.userRegs, layout.userStack, layout.callChain].reduceOption).map Prod.snd).max?.getD 0

def sample (layout : SampleRecordLayout) (bytes : Slice UInt8) : Option RingSampleRef := do
  let words := fun (range : ℕ × ℕ) => (bytes.get range.1 range.2).bind u64Slice
  let userRegs ← optionally words layout.userRegs
  let userStack ← optionally (fun range => (bytes.get range.1 range.2).map Slice.elems)
    layout.userStack
  let callChain ← optionally words layout.callChain
  pure ⟨userRegs, userStack, callChain⟩

end SampleRecordLayout

/-- Where bytes lie: the data of the ring, and the copy of a record that wrapped. Copies are
allocated as words. -/
structure Placement where
  data : ℕ
  copy : ℕ
  aligned : copy % 8 = 0

def recordBytes (place : Placement) (m : RingMapping) : RingRecord → Slice UInt8
  | .mapped start stop offset len =>
      ⟨place.data + offset, (RingRecord.mapped start stop offset len).asBytes m⟩
  | .owned bytes => ⟨place.copy, bytes⟩

inductive RingSampleStorage
  | ring (record : RingRecord)
  | detached (bytes : Slice UInt8)
  deriving DecidableEq, Repr

structure RingSample where
  storage : RingSampleStorage
  layout : SampleRecordLayout
  deriving DecidableEq, Repr

namespace RingSample

def bytes (place : Placement) (m : RingMapping) (sample : RingSample) : Slice UInt8 :=
  match sample.storage with
  | .ring record => recordBytes place m record
  | .detached bytes => bytes

def withSample (place : Placement) (m : RingMapping) (sample : RingSample) : Option RingSampleRef :=
  sample.layout.sample (sample.bytes place m)

/-- A copy of a view is a new allocation, at `addr`. A copy keeps its place. -/
def detach (place : Placement) (m : RingMapping) (addr : ℕ) (sample : RingSample) : RingSample :=
  match sample.storage with
  | .ring record =>
      let bytes := (record.detachBytes m sample.layout.stop).1
      match record with
      | .mapped _ _ _ _ => { sample with storage := .detached ⟨addr, bytes⟩ }
      | .owned _ => { sample with storage := .detached ⟨place.copy, bytes⟩ }
  | .detached _ => sample

end RingSample

structure SampleMetadata where
  task : Option TaskRef
  time : Option UInt64
  codeAddr : Option (UInt64 × Bool)
  deriving DecidableEq, Repr

/-- The branch of the drain for aligned samples. -/
def nextSample (place : Placement) (m : RingMapping) (record : RingRecord) (parser : Parser) :
    Option (Priv × SampleMetadata × RingSample) := do
  let bytes := recordBytes place m record
  let (privilege, sample) ← parseSampleRecord bytes parser
  let layout ← SampleRecordLayout.fromSample bytes sample
  pure (privilege, ⟨sample.task, sample.time, sample.codeAddr⟩, ⟨.ring record, layout⟩)

/-- The range holds the block. -/
def Located (elems : List UInt8) (range : ℕ × ℕ) (block : List UInt8) : Prop :=
  ∃ before after, elems = before ++ (block ++ after) ∧
    range = (before.length, before.length + block.length)

section

variable {elems block : List UInt8} {range : ℕ × ℕ}

section

variable (h : Located elems range block)

include h

theorem Located.get (addr : ℕ) :
    Slice.get ⟨addr, elems⟩ range.1 range.2 = some ⟨addr + range.1, block⟩ := by
  obtain ⟨before, after, rfl, rfl⟩ := h
  unfold Slice.get
  rw [if_pos]
  · rw [List.drop_left, Nat.add_sub_cancel_left, List.take_left]
  · refine ⟨Nat.le_add_right _ _, ?_⟩
    simp only [List.length_append]
    omega

/-- A block stays where it is when bytes behind it are cut off. -/
theorem Located.take {n : ℕ} (hn : range.2 ≤ n) : Located (elems.take n) range block := by
  obtain ⟨before, after, rfl, rfl⟩ := h
  have hn : before.length + block.length ≤ n := hn
  refine ⟨before, after.take (n - (before.length + block.length)), ?_, rfl⟩
  rw [List.take_append, List.take_of_length_le (by omega), List.take_append,
    List.take_of_length_le (by omega), Nat.sub_sub]

theorem Located.sliceByteRange {α : Type} {addr size : ℕ} {slice : Slice α}
    (hlen : elems.length < 2 ^ 64) (haddr : slice.addr = addr + range.1)
    (hsize : size * slice.elems.length = block.length) :
    sliceByteRange size ⟨addr, elems⟩ slice = some range := by
  have hget := h.get addr
  obtain ⟨before, after, rfl, rfl⟩ := h
  have hshort : before.length + block.length < 2 ^ 64 := by
    simp only [List.length_append] at hlen
    omega
  have hsub : checkedSub slice.addr addr = some before.length := by
    unfold checkedSub
    rw [haddr, if_neg (by omega), Nat.add_sub_cancel_left]
  have hadd : checkedAdd before.length (size * slice.elems.length) =
      some (before.length + block.length) := by
    unfold checkedAdd
    rw [hsize, if_pos hshort]
  unfold RingSamples.sliceByteRange
  simp only [hsub, hadd, hget, Option.bind_eq_bind, Option.bind_some]
  rfl

end

/-- The words of an aligned block are read back. -/
theorem u64Slice_encodeArray {addr : ℕ} (haddr : addr % 8 = 0) (words : List UInt64) :
    u64Slice ⟨addr, u64.encodeArray words⟩ = some words := by
  have hlen : (u64.encodeArray words).length = 8 * words.length := u64.length_encodeArray words
  have haligned : isU64Aligned ⟨addr, u64.encodeArray words⟩ = true := beq_iff_eq.mpr haddr
  unfold u64Slice
  rw [if_neg]
  · show some (u64.decodeArray ((u64.encodeArray words).length / 8) _) = _
    rw [hlen, Nat.mul_div_cancel_left _ (by decide), u64.decodeArray_encodeArray]
  · rintro (hfalse | hmod)
    · rw [haligned] at hfalse
      cases hfalse
    · have hmod : (u64.encodeArray words).length % 8 ≠ 0 := hmod
      omega

end

/-- The range holds the words, at a place where they may be borrowed. -/
def LocatedWords (elems : List UInt8) (range : ℕ × ℕ) (words : List UInt64) : Prop :=
  range.1 % 8 = 0 ∧ Located elems range (u64.encodeArray words)

/-- The ranges of a layout hold the contents of the sample. -/
structure Shows (layout : SampleRecordLayout) (elems : List UInt8) (seen : RingSampleRef) :
    Prop where
  userRegs : Option.Rel (LocatedWords elems) layout.userRegs seen.userRegs
  userStack : Option.Rel (Located elems) layout.userStack seen.userStack
  callChain : Option.Rel (LocatedWords elems) layout.callChain seen.callChain

theorem optionally_of_rel {α β : Type} {R : α → β → Prop} {f : α → Option β} {a : Option α}
    {b : Option β} (hrel : Option.Rel R a b) (h : ∀ a b, R a b → f a = some b) :
    optionally f a = some b := by
  cases hrel with
  | none => rfl
  | some hab => simp only [optionally, h _ _ hab, Option.map_some]

theorem rel_imp {α β : Type} {R S : α → β → Prop} {a : Option α} {b : Option β}
    (hrel : Option.Rel R a b) (h : ∀ x ∈ a, ∀ y, R x y → S x y) : Option.Rel S a b := by
  cases hrel with
  | none => exact .none
  | some hab => exact .some (h _ rfl _ hab)

namespace Shows

variable {layout : SampleRecordLayout} {elems : List UInt8} {seen : RingSampleRef}

/-- What a layout shows is what it returns, wherever the bytes lie. -/
theorem sample (h : Shows layout elems seen) {addr : ℕ} (haddr : addr % 8 = 0) :
    layout.sample ⟨addr, elems⟩ = some seen := by
  have hwords : ∀ range words, LocatedWords elems range words →
      (Slice.get ⟨addr, elems⟩ range.1 range.2).bind u64Slice = some words := by
    rintro range words ⟨hstart, hlocated⟩
    rw [hlocated.get addr, Option.bind_some, u64Slice_encodeArray (by omega)]
  have hbytes : ∀ range block, Located elems range block →
      (Slice.get ⟨addr, elems⟩ range.1 range.2).map Slice.elems = some block := by
    intro range block hlocated
    rw [hlocated.get addr, Option.map_some]
  unfold SampleRecordLayout.sample
  simp only [optionally_of_rel h.userRegs hwords, optionally_of_rel h.userStack hbytes,
    optionally_of_rel h.callChain hwords, Option.bind_eq_bind, Option.bind_some]
  rfl

theorem stop_le {range : ℕ × ℕ}
    (h : range ∈ [layout.userRegs, layout.userStack, layout.callChain].reduceOption) :
    range.2 ≤ layout.stop := by
  have hmem : range.2 ∈
      ([layout.userRegs, layout.userStack, layout.callChain].reduceOption).map Prod.snd :=
    List.mem_map_of_mem h
  unfold SampleRecordLayout.stop
  rcases hmax : (([layout.userRegs, layout.userStack, layout.callChain].reduceOption).map
    Prod.snd).max? with _ | top
  · rw [List.max?_eq_none_iff.mp hmax] at hmem
    cases hmem
  · exact (List.max?_eq_some_iff.mp hmax).2 _ hmem

/-- The bytes up to the last range are enough. -/
theorem take (h : Shows layout elems seen) : Shows layout (elems.take layout.stop) seen := by
  have hmem : ∀ {field : Option (ℕ × ℕ)} {range : ℕ × ℕ},
      field ∈ [layout.userRegs, layout.userStack, layout.callChain] → range ∈ field →
        range.2 ≤ layout.stop := by
    intro field range hfield hrange
    refine stop_le (List.reduceOption_mem_iff.mpr ?_)
    rwa [← Option.mem_def.mp hrange]
  refine ⟨rel_imp h.userRegs fun range hrange words hwords => ?_,
    rel_imp h.userStack fun range hrange block hblock => ?_,
    rel_imp h.callChain fun range hrange words hwords => ?_⟩
  · exact ⟨hwords.1, hwords.2.take (hmem (by simp) hrange)⟩
  · exact hblock.take (hmem (by simp) hrange)
  · exact ⟨hwords.1, hwords.2.take (hmem (by simp) hrange)⟩

end Shows

/-- What a holder of the sample is to see of the fields. -/
def seenOf (x : SampleFields) : RingSampleRef where
  userRegs := x.userRegs.bind regs64
  userStack := x.userStack.map UserStack.filled
  callChain := x.callChain

theorem record_blocks (x : SampleFields) : ∃ head : List UInt8, head.length = 32 ∧
    x.record = head ++ (chainBytes x.callChain ++ (regsBytes x.userRegs ++
      stackBytes x.userStack)) := by
  refine ⟨u32.encode PERF_RECORD_SAMPLE ++ (u16.encode x.misc ++
    u16.encode (.ofNat (8 + x.payload.length))) ++ commonBytes x.ip x.pid x.tid x.time, ?_, ?_⟩
  · rw [List.length_append, headerBytes_length, commonBytes_length]
  · rw [record_eq]
    simp only [SampleFields.payload, List.append_assoc]

/-- The words behind a leading word. -/
theorem located_behind {head block after : List UInt8} (word : UInt64) :
    Located (head ++ ((u64.encode word ++ block) ++ after))
      (head.length + 8, head.length + 8 + block.length) block := by
  refine ⟨head ++ u64.encode word, after, ?_, ?_⟩
  · simp only [List.append_assoc]
  · rw [List.length_append, u64.length_encode]
    rfl

/-- A slice that is there or not has its range. -/
theorem optional_range {α : Type} {elems : List UInt8} (addr size k : ℕ) (field : Option (List α))
    (blockOf : List α → List UInt8) (hlen : elems.length < 2 ^ 64)
    (hblock : ∀ values, size * values.length = (blockOf values).length)
    (h : ∀ values ∈ field, Located elems (k, k + (blockOf values).length) (blockOf values)) :
    ∃ range, optionally (sliceByteRange size ⟨addr, elems⟩)
        (field.map fun values => ⟨addr + k, values⟩) = some range ∧
      Option.Rel (fun r values => r.1 = k ∧ Located elems r (blockOf values)) range field := by
  cases field with
  | none => exact ⟨none, rfl, .none⟩
  | some values =>
    have hlocated := h values rfl
    refine ⟨some (k, k + (blockOf values).length), ?_, .some ⟨rfl, hlocated⟩⟩
    show (sliceByteRange size ⟨addr, elems⟩ ⟨addr + k, values⟩).map some = _
    rw [hlocated.sliceByteRange hlen rfl (hblock values), Option.map_some]

/-- The words of a decoded sample can be found again. -/
theorem optional_words {elems : List UInt8} (addr k : ℕ) (field : Option (List UInt64))
    (hlen : elems.length < 2 ^ 64) (hk : k % 8 = 0) (h : ∀ words ∈ field,
      Located elems (k, k + (u64.encodeArray words).length) (u64.encodeArray words)) :
    ∃ range, optionally (sliceByteRange 8 ⟨addr, elems⟩)
        (field.map fun words => ⟨addr + k, words⟩) = some range ∧
      Option.Rel (LocatedWords elems) range field := by
  obtain ⟨range, hrange, hrel⟩ := optional_range addr 8 k field u64.encodeArray hlen
    (fun words => (u64.length_encodeArray words).symm) h
  refine ⟨range, hrange, rel_imp hrel fun r _ words hwords => ⟨?_, hwords.2⟩⟩
  rw [hwords.1]
  exact hk

theorem mem_bind_regs64 {block : Option Registers} {regs : List UInt64}
    (h : regs ∈ block.bind regs64) : ∃ abi, block = some ⟨abi, regs⟩ := by
  obtain ⟨⟨abi, regs'⟩, hblock, hregs⟩ := Option.bind_eq_some_iff.mp h
  unfold regs64 at hregs
  split at hregs
  · cases hregs
    exact ⟨abi, hblock⟩
  · cases hregs

theorem located_filled {head : List UInt8} (block : UserStack) :
    Located (head ++ stackBytes (some block))
      (head.length + 8, head.length + 8 + block.filled.length)
      block.filled := by
  have hsplit : block.bytes = block.filled ++ block.bytes.drop block.dynLen.toNat :=
    (List.take_append_drop _ _).symm
  refine ⟨head ++ u64.encode (.ofNat block.bytes.length), block.bytes.drop block.dynLen.toNat ++
    (if block.bytes = [] then [] else u64.encode block.dynLen), ?_, ?_⟩
  · rw [stackBytes, List.append_assoc, ← List.append_assoc block.filled, ← hsplit]
  · rw [List.length_append, u64.length_encode]
    rfl

/-- Every slice of a record has its range, and the ranges hold the fields. -/
theorem fromSample_placed {parser : Parser} {x : SampleFields} (h : Follows parser x) (addr : ℕ) :
    ∃ layout, SampleRecordLayout.fromSample ⟨addr, x.record⟩ (x.placed addr) = some layout ∧
      Shows layout x.record (seenOf x) := by
  have hlen : x.record.length < 2 ^ 64 := by
    have hsize := h.size
    rw [record_length]
    omega
  obtain ⟨head, hhead, hrecord⟩ := record_blocks x
  have hchainMod := chainBytes_length_mod x.callChain
  have hregsMod := regsBytes_length_mod x.userRegs
  have hafterChain : (head ++ chainBytes x.callChain).length + 8 =
      40 + (chainBytes x.callChain).length := by
    rw [List.length_append]
    omega
  have hafterRegs : (head ++ chainBytes x.callChain ++ regsBytes x.userRegs).length + 8 =
      40 + (chainBytes x.callChain).length + (regsBytes x.userRegs).length := by
    rw [List.length_append, List.length_append]
    omega
  obtain ⟨chain, hchain, hchainRel⟩ := optional_words addr (head.length + 8) x.callChain hlen
    (by omega) (fun words hwords => by
      rw [hrecord, Option.mem_def.mp hwords]
      exact located_behind _)
  obtain ⟨regs, hregs, hregsRel⟩ := optional_words addr
    ((head ++ chainBytes x.callChain).length + 8) (x.userRegs.bind regs64) hlen (by omega)
    (fun words hwords => by
      obtain ⟨abi, hblock⟩ := mem_bind_regs64 hwords
      rw [hrecord, ← List.append_assoc, hblock]
      exact located_behind _)
  obtain ⟨reserved, hreserved, hreservedRel⟩ := optional_range addr 1
    ((head ++ chainBytes x.callChain ++ regsBytes x.userRegs).length + 8)
    (x.userStack.map UserStack.filled) id hlen (fun values => Nat.one_mul _)
    (fun values hvalues => by
      obtain ⟨block, hblock, rfl⟩ := Option.map_eq_some_iff.mp hvalues
      rw [hrecord, ← List.append_assoc, ← List.append_assoc, hblock]
      exact located_filled block)
  refine ⟨⟨regs, reserved, chain⟩, ?_, hregsRel, rel_imp hreservedRel fun _ _ _ hr => hr.2,
    hchainRel⟩
  have hchain' : optionally (fun chain : CallChainRef =>
      sliceByteRange 8 ⟨addr, x.record⟩ chain.addresses) (x.placed addr).callChain =
        some chain := by
    rw [← hchain]
    show optionally _ (placeChain (addr + 32) x.callChain) = _
    rw [show addr + (head.length + 8) = addr + 32 + 8 by omega]
    cases x.callChain with
    | none => rfl
    | some words => rfl
  have hregs' : optionally (sliceByteRange 8 ⟨addr, x.record⟩) (x.placed addr).userRegs =
      some regs := by
    rw [← hregs, hafterChain, show addr + (40 + (chainBytes x.callChain).length) =
      addr + 32 + (chainBytes x.callChain).length + 8 by omega]
    rfl
  have hreserved' : optionally (sliceByteRange 1 ⟨addr, x.record⟩) (x.placed addr).userStack =
      some reserved := by
    rw [← hreserved, hafterRegs, show addr + (40 + (chainBytes x.callChain).length +
      (regsBytes x.userRegs).length) = addr + 32 + (chainBytes x.callChain).length +
        (regsBytes x.userRegs).length + 8 by omega, Option.map_map]
    rfl
  unfold SampleRecordLayout.fromSample
  simp only [hchain', hregs', hreserved', Option.bind_eq_bind, Option.bind_some]
  rfl

theorem recordBytes_elems (place : Placement) (m : RingMapping) (record : RingRecord) :
    (recordBytes place m record).elems = record.asBytes m := by
  cases record <;> rfl

/-- A decoded sample shows its fields before and after it is detached. -/
theorem withSample_detach {place : Placement} {m : RingMapping} {record : RingRecord}
    {layout : SampleRecordLayout} {seen : RingSampleRef}
    (haligned : isU64Aligned (recordBytes place m record) = true)
    (h : Shows layout (record.asBytes m) seen) :
    RingSample.withSample place m ⟨.ring record, layout⟩ = some seen ∧
      ∀ addr later, addr % 8 = 0 →
        RingSample.withSample place later (RingSample.detach place m addr ⟨.ring record, layout⟩) =
          some seen := by
  have haddr : (recordBytes place m record).addr % 8 = 0 := beq_iff_eq.mp haligned
  refine ⟨?_, fun addr later hnew => ?_⟩
  · rw [← recordBytes_elems place] at h
    exact h.sample haddr
  · cases record with
    | mapped start stop offset len => exact h.take.sample hnew
    | owned bytes => exact h.sample place.aligned

theorem nextSample_eq_some {place : Placement} {m : RingMapping} {record : RingRecord}
    {parser : Parser} {privilege : Priv} {metadata : SampleMetadata} {sample : RingSample}
    (h : nextSample place m record parser = some (privilege, metadata, sample)) :
    ∃ x, Follows parser x ∧ record.asBytes m = x.record ∧ privilege = privFromMisc x.misc ∧
      metadata = ⟨x.values.task, x.values.time, x.values.codeAddr⟩ ∧
      isU64Aligned (recordBytes place m record) = true ∧
      ∃ layout, sample = ⟨.ring record, layout⟩ ∧ Shows layout x.record (seenOf x) := by
  obtain ⟨⟨privilege', ref⟩, hparse, h⟩ := Option.bind_eq_some_iff.mp h
  obtain ⟨layout, hlayout, h⟩ := Option.bind_eq_some_iff.mp h
  cases h
  have haligned : isU64Aligned (recordBytes place m record) = true := by
    by_contra hnot
    unfold parseSampleRecord at hparse
    rw [if_neg hnot] at hparse
    cases hparse
  obtain ⟨x, hx, hbytes, rfl, rfl⟩ := (parseSampleRecord_eq_some_iff parser haligned _ _).mp hparse
  obtain ⟨layout', hlayout', hshows⟩ := fromSample_placed hx (recordBytes place m record).addr
  rw [← hbytes] at hlayout'
  cases hlayout.symm.trans hlayout'
  exact ⟨x, hx, (recordBytes_elems place m record).symm.trans hbytes, rfl, rfl, haligned, layout,
    rfl, hshows⟩

/-- The layout step succeeds on every record that is parsed. -/
theorem nextSample_of_record {place : Placement} {m : RingMapping} {record : RingRecord}
    {parser : Parser} {x : SampleFields}
    (haligned : isU64Aligned (recordBytes place m record) = true) (hx : Follows parser x)
    (hbytes : record.asBytes m = x.record) :
    ∃ sample, nextSample place m record parser = some (privFromMisc x.misc,
      ⟨x.values.task, x.values.time, x.values.codeAddr⟩, sample) := by
  have helems := (recordBytes_elems place m record).trans hbytes
  have hparse := (parseSampleRecord_eq_some_iff parser haligned _ _).mpr
    ⟨x, hx, helems, rfl, rfl⟩
  obtain ⟨layout, hlayout, -⟩ := fromSample_placed hx (recordBytes place m record).addr
  rw [← helems] at hlayout
  exact ⟨⟨.ring record, layout⟩, Option.bind_eq_some_iff.mpr
    ⟨_, hparse, Option.bind_eq_some_iff.mpr ⟨layout, hlayout, rfl⟩⟩⟩

/-- A held record shows the same bytes as long as it is held. -/
theorem held_asBytes {stream : ℕ → UInt8} {w w' : World} (h : Sound stream w) (h' : Sound stream w')
    {held : Held} (hheld : held ∈ w.held) (hheld' : held ∈ w'.held) :
    held.record.asBytes w'.ring.mapping = held.record.asBytes w.ring.mapping := by
  rw [h.bytes hheld, h'.bytes hheld', asBytes_length w'.ring.mapping w.ring.mapping]

theorem run_append_of_run {stream : ℕ → UInt8} {w w' : World} {first events : List Event}
    {start : World} (h : run stream start first = some w) (h' : run stream w events = some w') :
    run stream start (first ++ events) = some w' := by
  unfold run at h h' ⊢
  rw [List.foldlM_append, h]
  exact h'

/-- The bytes that are accepted are those of a sample record with the fields of the layout, and the
result has their values. Every such record of the ring gives a sample, which shows these values at
any later time at which its record is held, and after it was detached then whatever the ring
does. -/
theorem sample_records_decoded :
    (∀ (bytes : Slice UInt8) (parser : Parser), isU64Aligned bytes = true → ∀ privilege values,
      (parseSampleRecord bytes parser).map (fun r => (r.1, valuesOf r.2)) =
          some (privilege, values) ↔
        ∃ x, Follows parser x ∧ bytes.elems = x.record ∧ privilege = privFromMisc x.misc ∧
          values = x.values) ∧
    ∀ (stream : ℕ → UInt8) (dataSize : ℕ) (data : ℕ → UInt8) (dataTail : ℕ)
      (isPowerOfTwo : ∃ k, dataSize = 2 ^ k) (fits : dataSize < 2 ^ 63), dataTail < 2 ^ 64 →
      ∀ (first : List Event) (w : World),
        run stream (.start (.new dataSize data dataTail isPowerOfTwo fits)) first = some w →
      ∀ held ∈ w.held, ∀ (place : Placement) (parser : Parser),
        (isU64Aligned (recordBytes place w.ring.mapping held.record) = true → ∀ x,
          Follows parser x → held.record.asBytes w.ring.mapping = x.record →
          ∃ sample, nextSample place w.ring.mapping held.record parser =
            some (privFromMisc x.misc, ⟨x.values.task, x.values.time, x.values.codeAddr⟩,
              sample)) ∧
        ∀ privilege metadata sample,
          nextSample place w.ring.mapping held.record parser =
            some (privilege, metadata, sample) →
          ∃ x, Follows parser x ∧ held.record.asBytes w.ring.mapping = x.record ∧
            ∀ (events : List Event) (w' : World), run stream w events = some w' → held ∈ w'.held →
              sample.withSample place w'.ring.mapping = some (seenOf x) ∧
              ∀ addr later, addr % 8 = 0 →
                (sample.detach place w'.ring.mapping addr).withSample place later =
                  some (seenOf x) := by
  constructor
  · intro bytes parser haligned privilege values
    rw [Option.map_eq_some_iff]
    constructor
    · rintro ⟨⟨privilege', sample⟩, hparse, heq⟩
      obtain ⟨x, hx, hbytes, hprivilege, rfl⟩ :=
        (parseSampleRecord_eq_some_iff parser haligned _ _).mp hparse
      obtain ⟨rfl, rfl⟩ := Prod.mk.inj heq
      exact ⟨x, hx, hbytes, hprivilege, valuesOf_placed _ x⟩
    · rintro ⟨x, hx, hbytes, rfl, rfl⟩
      refine ⟨(privFromMisc x.misc, x.placed bytes.addr), ?_, ?_⟩
      · exact (parseSampleRecord_eq_some_iff parser haligned _ _).mpr ⟨x, hx, hbytes, rfl, rfl⟩
      · rw [valuesOf_placed]
  · intro stream dataSize data dataTail isPowerOfTwo fits hpos first w hrun held hheld place parser
    refine ⟨fun haligned x hx hbytes => nextSample_of_record haligned hx hbytes,
      fun privilege metadata sample hsample => ?_⟩
    have hsound : Sound stream w := (sound_start hpos).run hrun
    obtain ⟨x, hx, hbytes, -, -, haligned, layout, rfl, hshows⟩ := nextSample_eq_some hsample
    refine ⟨x, hx, hbytes, fun events w' hevents hheld' => ?_⟩
    have hsound' : Sound stream w' := (sound_start hpos).run (run_append_of_run hrun hevents)
    have hsame := held_asBytes hsound hsound' hheld hheld'
    have haligned' : isU64Aligned (recordBytes place w'.ring.mapping held.record) = true := by
      rw [← haligned]
      cases held.record <;> rfl
    rw [← hbytes, ← hsame] at hshows
    exact withSample_detach haligned' hshows

/-- A sample of a user stack with eight bytes reserved, of which three are filled. -/
def stackSample : SampleFields where
  misc := 2
  ip := 5000
  pid := 1
  tid := 1
  time := 9
  callChain := none
  userRegs := none
  userStack := some ⟨[1, 2, 3, 0, 0, 0, 0, 0], 3⟩

def stackLayout : Parser := ⟨8199, 0⟩

def mappedPlace : Placement := ⟨4096, 8192, rfl⟩

/-- The sample is read as a view, and keeps its stack when the rest of its record is left behind. -/
theorem sample_records_decoded_mapped : ∃ w held sample x,
    run (fun p => stackSample.record.getD p 0)
      (.start (.new 64 (fun _ => 0) 0 ⟨6, rfl⟩ (by decide)))
      (List.replicate 56 .write ++ [.next 56]) = some w ∧ held ∈ w.held ∧
    nextSample mappedPlace w.ring.mapping held.record stackLayout =
      some (.user, ⟨some ⟨1, 1⟩, some 9, some (5000, false)⟩, sample) ∧
    held.record.asBytes w.ring.mapping = x.record ∧
    sample.withSample mappedPlace w.ring.mapping = some (seenOf x) ∧
    ∀ later, (sample.detach mappedPlace w.ring.mapping 16384).withSample mappedPlace later =
      some (seenOf x) := by
  have hruns : (run (fun p => stackSample.record.getD p 0)
      (.start (.new 64 (fun _ => 0) 0 ⟨6, rfl⟩ (by decide)))
      (List.replicate 56 .write ++ [.next 56])).map
      (fun w => (w.held, nextSample mappedPlace w.ring.mapping (.mapped 0 56 0 56) stackLayout)) =
      some ([⟨0, .mapped 0 56 0 56⟩],
        some (.user, ⟨some ⟨1, 1⟩, some 9, some (5000, false)⟩,
          ⟨.ring (.mapped 0 56 0 56), ⟨none, some (40, 43), none⟩⟩)) := by decide +kernel
  obtain ⟨w, hrun, heq⟩ := Option.map_eq_some_iff.mp hruns
  obtain ⟨hheld, hnext⟩ := Prod.mk.inj heq
  have hmem : (⟨0, .mapped 0 56 0 56⟩ : Held) ∈ w.held := by
    rw [hheld]
    exact List.mem_singleton.mpr rfl
  obtain ⟨x, -, hbytes, hlater⟩ := (sample_records_decoded.2 _ 64 (fun _ => 0) 0 ⟨6, rfl⟩
    (by decide) (by decide) _ w hrun _ hmem mappedPlace stackLayout).2 _ _ _ hnext
  obtain ⟨hseen, hdetached⟩ := hlater [] w rfl hmem
  exact ⟨w, _, _, x, hrun, hmem, hnext, hbytes, hseen, fun later => hdetached 16384 later rfl⟩

end StackPulse.RingSamples
