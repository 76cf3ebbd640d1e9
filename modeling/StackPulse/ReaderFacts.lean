import StackPulse.DecodeFacts
import StackPulse.UnreadBytes

/-!
Stability and panic freedom of the record readers, by the structure of each
reader. The postconditions say what an accepted record may refer to.
-/
namespace StackPulse.ReaderFacts

open Attempts Bytes Bytes.ByteReader Varint Model SpoolCursor UnreadBytes Decode DecodeFacts

/-- Errors that are neither panics nor loops cut off. -/
def Orderly (e : Stop) : Prop := e.isIo = true

/-- What the record readers have in common: their values satisfy `Q`, they are stable while the
file grows, they look at unread bytes only, and they never panic. -/
structure Reads {α : Type} (m : Reader α) (Q : α → Prop) : Prop where
  values : ∀ c a d, m c = (.ok a, d) → Q a
  stable : m.Stable Stop.isEof
  ahead : Ahead m
  orderly : m.Triple (fun _ => True) Orderly

namespace Reads

variable {α β : Type} {m n : Reader α} {f : α → Reader β} {Q : α → Prop} {R : β → Prop}

theorem triple (h : Reads m Q) : m.Triple Q Orderly := fun c hc =>
  ⟨fun a d ha => ⟨h.values c a d ha, ((h.orderly c hc).1 a d ha).2⟩, (h.orderly c hc).2⟩

theorem pure {a : α} (h : Q a) : Reads (Pure.pure a) Q where
  values c b d hb := by
    cases hb
    exact h
  stable := Stable.pure a
  ahead := Ahead.pure a
  orderly := Triple.pure trivial

theorem fail {e : Stop} (h : Rejection e) : Reads (ByteReader.fail e) Q where
  values c b d hb := by cases hb
  stable := Stable.fail e h.isEof
  ahead := Ahead.fail e
  orderly := Triple.fail h.isIo

theorem invalid (message : String) : Reads (ByteReader.fail (invalidData message)) Q :=
  fail ⟨message, rfl⟩

theorem check {r : Except Stop α} (hok : ∀ a, r = .ok a → Q a)
    (herr : FailsWith Rejection r) : Reads (ofExcept r) Q := by
  cases r with
  | ok a => exact pure (hok a rfl)
  | error e => exact fail (herr e rfl)

/-- A check whose value is not looked at. -/
theorem test {r : Except Stop α} (herr : FailsWith Rejection r) :
    Reads (ofExcept r) (fun _ => True) :=
  check (fun _ _ => trivial) herr

theorem bind (hm : Reads m Q) (hf : ∀ a, Q a → Reads (f a) R) : Reads (m >>= f) R where
  values c b d hb := by
    obtain ⟨a, c', ha, hb⟩ := bind_eq_ok hb
    exact (hf a (hm.values c a c' ha)).values c' b d hb
  stable := hm.stable.bind_of hm.values fun a ha => (hf a ha).stable
  ahead := hm.ahead.bind hm.values fun a ha => (hf a ha).ahead
  orderly := hm.triple.bind fun a ha => (hf a ha).orderly

theorem map (f : α → β) (hm : Reads m Q) (h : ∀ a, Q a → R (f a)) : Reads (f <$> m) R :=
  hm.bind fun a ha => pure (h a ha)

theorem ite {p : Prop} [Decidable p] (hm : p → Reads m Q) (hn : ¬ p → Reads n Q) :
    Reads (if p then m else n) Q := by
  split
  · exact hm ‹_›
  · exact hn ‹_›

end Reads

variable (V : IntegerEncoding)

theorem readVarint_reads (VI : Type) [SpoolVarint VI] : Reads (readVarint V VI) (fun _ => True) :=
  ⟨fun _ _ _ _ => trivial, readVarint_stable V VI, readVarint_ahead V VI, readVarint_triple V VI⟩

theorem readBytesRange_reads (len : ℕ) : Reads (readBytesRange len) (fun _ => True) :=
  ⟨fun _ _ _ _ => trivial, readBytesRange_stable len, readBytesRange_ahead len,
    readBytesRange_triple len⟩

theorem checkId_reads (expected : ℕ) (kind : String) :
    Reads (checkId V expected kind) (fun _ => True) :=
  (readVarint_reads V UInt64).bind fun _ _ => .test matchId_error

theorem readIdWithin_reads (limit : ℕ) (kind : String) :
    Reads (readIdWithin V limit kind) (fun id => id.toNat < limit) :=
  (readVarint_reads V UInt64).bind fun _ _ =>
    .check (fun _ h => (boundedId_ok.mp h).2) boundedId_error

theorem readIndexWithin_reads (limit : ℕ) (kind : String) :
    Reads (readIndexWithin V limit kind) (fun index => index < limit) :=
  (readVarint_reads V UInt64).bind fun _ _ =>
    .check (fun _ h => (boundedIndex_ok.mp h).2) boundedIndex_error

theorem readProcessId_reads : Reads (readProcessId V) (fun _ => True) :=
  (readVarint_reads V Int64).bind fun _ _ => .test i32TryFrom_error

theorem readPid_reads : Reads (readPid V) (fun _ => True) :=
  (readProcessId_reads V).bind fun _ _ => .test pidTryFrom_error

theorem readU32_reads (message : String) : Reads (readU32 V message) (fun _ => True) :=
  (readVarint_reads V UInt64).bind fun _ _ => .test u32TryFrom_error

theorem readFlag_reads : Reads readFlag (fun _ => True) :=
  (readBytesRange_reads 1).bind fun _ _ => .pure trivial

theorem readPath_reads : Reads (readPath V) (fun _ => True) :=
  (readVarint_reads V UInt64).bind fun len _ =>
    (readBytesRange_reads len.toNat).bind fun _ _ => .pure trivial

theorem readSymbol_reads (module : ModuleRecord) (symbols : List JitSymbol) :
    Reads (readSymbol V module symbols) (fun _ => True) := by
  apply (readVarint_reads V UInt64).bind
  intro start _
  apply (readVarint_reads V UInt64).bind
  intro stop _
  apply Reads.ite
  · intro _
    exact .invalid _
  · intro _
    apply (readVarint_reads V UInt64).bind
    intro len _
    apply Reads.ite
    · intro _
      exact .invalid _
    · intro _
      apply (readBytesRange_reads len.toNat).bind
      intro bytes _
      split
      · exact .invalid _
      · apply Reads.ite
        · intro _
          exact .invalid _
        · intro _
          exact .pure trivial

theorem readSymbolsLoop_reads (module : ModuleRecord) (count : ℕ) (symbols : List JitSymbol) :
    Reads (readSymbolsLoop V module count symbols) (fun _ => True) := by
  induction count generalizing symbols with
  | zero => exact .pure trivial
  | succ count ih => exact (readSymbol_reads V module symbols).bind fun symbol _ => ih _

theorem readSymbols_reads (module : ModuleRecord) :
    Reads (readSymbols V module) (fun _ => True) := by
  apply (readVarint_reads V UInt64).bind
  intro count _
  apply Reads.ite
  · intro _
    exact .invalid _
  · intro _
    exact readSymbolsLoop_reads V module count.toNat []

theorem readModuleRecord_reads (expectedId : ℕ) (tag : UInt8) :
    Reads (readModuleRecord V expectedId tag) (fun module => module.id.toNat = expectedId) := by
  refine (checkId_reads V expectedId "module").bind fun _ _ => ?_
  refine (Reads.check (Q := fun id : UInt32 => id.toNat = expectedId)
    (fun _ h => moduleIdFrom_ok.mp h) moduleIdFrom_error).bind fun id hid => ?_
  refine (readProcessId_reads V).bind fun processId _ => ?_
  refine (readVarint_reads V UInt64).bind fun start _ => ?_
  refine (readVarint_reads V UInt64).bind fun stop _ => ?_
  refine (readVarint_reads V UInt64).bind fun fileOffset _ => ?_
  refine (readVarint_reads V UInt64).bind fun inode _ => ?_
  refine (readU32_reads V _).bind fun deviceMajor _ => ?_
  refine (readU32_reads V _).bind fun deviceMinor _ => ?_
  refine (readVarint_reads V UInt64).bind fun inodeGeneration _ => ?_
  refine readFlag_reads.bind fun flag _ => ?_
  refine (Reads.test fromWire_error).bind fun owner _ => ?_
  refine (readPath_reads V).bind fun path _ => ?_
  apply Reads.ite
  · intro _
    exact (readSymbols_reads V _).bind fun _ _ => .pure hid
  · intro _
    exact .pure hid

theorem readPythonRuntime_reads : Reads (readPythonRuntime V) (fun _ => True) :=
  (readVarint_reads V UInt64).bind fun _ _ => (readPid_reads V).bind fun _ _ =>
    readFlag_reads.bind fun _ _ => .pure trivial

theorem readFrame_reads (modules : List ModuleRecord) (expectedId : ℕ) :
    Reads (readFrame V modules expectedId) (PinnedIn modules) :=
  (checkId_reads V expectedId "frame").bind fun _ _ =>
    (readVarint_reads V UInt64).bind fun _ _ => (readVarint_reads V UInt64).bind fun _ _ =>
      .check (fun _ => frameFromWire_ok) frameFromWire_error

/-- What a node may refer to when it joins a list of nodes and frames. -/
structure NodeOver (stackNodes : List StackNodeRecord) (frameCount : ℕ)
    (node : StackNodeRecord) : Prop where
  frame_lt : node.frameId.toNat < frameCount
  chain : (node.parent = none ∧ node.depth = 1) ∨
    ∃ id hne before, node.parent = some ⟨id + 1, hne⟩ ∧ id ≠ NONE_U32 ∧
      stackNodes[id.toNat]? = some before ∧ node.depth = saturatingSucc before.depth

/-- An accepted parent always yields a node, so the last step of reading a node cannot fail. -/
theorem stackNodeFrom_of_parent {stackNodes : List StackNodeRecord} {raw : UInt64} {frameCount : ℕ}
    {parent : Option UInt32} {frameId : UInt32} (hframe : frameId.toNat < frameCount)
    (hparent : stackPrefix raw stackNodes.length = .ok parent) :
    ∃ node, stackNodeFrom stackNodes parent frameId = .ok node ∧
      NodeOver stackNodes frameCount node := by
  have hids : ∀ id, parent = some id → id.toNat < stackNodes.length ∧ id ≠ NONE_U32 := by
    intro id hid
    rcases stackPrefix_ok hparent with ⟨hnone, _⟩ | ⟨id', hsome, _, hlt, hne⟩
    · rw [hnone] at hid
      cases hid
    · rw [hsome] at hid
      cases hid
      exact ⟨hlt, hne⟩
  obtain ⟨node, hnode, hid, hchain⟩ := stackNodeFrom_eq stackNodes parent frameId hids
  refine ⟨node, hnode, by rw [hid]; exact hframe, ?_⟩
  rcases hchain with ⟨_, hroot, hdepth⟩ | ⟨id, hne, before, hsome, hpar, hget, hdepth⟩
  · exact .inl ⟨hroot, hdepth⟩
  · exact .inr ⟨id, hne, before, hpar, (hids id hsome).2, hget, hdepth⟩

theorem readStackNode_reads (stackNodes : List StackNodeRecord) (frameCount : ℕ) :
    Reads (readStackNode V stackNodes frameCount) (NodeOver stackNodes frameCount) := by
  refine (checkId_reads V stackNodes.length "stack").bind fun _ _ => ?_
  refine (readVarint_reads V UInt64).bind fun rawPrefix _ => ?_
  refine (Reads.check (fun _ => id) stackPrefix_error).bind fun parent hparent => ?_
  refine (readIdWithin_reads V frameCount "stack frame").bind fun frameId hframe => ?_
  obtain ⟨node, hnode, hover⟩ := stackNodeFrom_of_parent hframe hparent
  rw [hnode]
  exact .pure hover

theorem readThread_reads (expectedId : ℕ) : Reads (readThread V expectedId) (fun _ => True) :=
  (checkId_reads V expectedId "thread").bind fun _ _ => (readPid_reads V).bind fun _ _ =>
    (readVarint_reads V UInt64).bind fun _ _ =>
      (Reads.test tidTryFrom_error).bind fun _ _ => .pure trivial

/-- What a sample refers to. -/
structure SampleOver (threads : List ThreadRecord) (stackCount : ℕ) (sample : SampleRecord) :
    Prop where
  thread : ⟨sample.processId, sample.threadId⟩ ∈ threads
  stack_lt : sample.stackId.toNat < stackCount

theorem readSample_reads (threads : List ThreadRecord) (stackCount : ℕ) (lastTimestampNs : UInt64) :
    Reads (readSample V threads stackCount lastTimestampNs) (SampleOver threads stackCount) := by
  refine (readVarint_reads V Int64).bind fun delta _ => ?_
  refine (Reads.test sampleTimestamp_error).bind fun timestampNs _ => ?_
  refine (readIndexWithin_reads V threads.length "sample thread").bind fun threadRef href => ?_
  have hget := List.getElem?_eq_getElem href
  have hat : threadAt threads threadRef = .ok threads[threadRef] := threadAt_ok.mpr hget
  rw [hat]
  refine (Reads.pure (Q := fun thread => thread ∈ threads)
    (List.getElem_mem href)).bind fun thread hthread => ?_
  exact (readIdWithin_reads V stackCount "sample stack").bind fun stackId hstack =>
    .pure ⟨hthread, hstack⟩

theorem magicError_rejects (magic : List UInt8) : Rejection (magicError magic) := by
  unfold magicError
  split
  · split <;> exact ⟨_, rfl⟩
  · exact ⟨_, rfl⟩

theorem readClockOrigin_reads : Reads (readClockOrigin V) (fun _ => True) := by
  refine (readVarint_reads V UInt64).bind fun present _ => ?_
  apply Reads.ite
  · intro _
    exact .pure trivial
  · intro _
    apply Reads.ite
    · intro _
      exact .invalid _
    · intro _
      refine (readVarint_reads V UInt64).bind fun monotonicNs _ => ?_
      refine (readVarint_reads V Int64).bind fun sign _ => ?_
      refine (readVarint_reads V UInt64).bind fun seconds _ => ?_
      refine (readVarint_reads V UInt32).bind fun nanos _ => ?_
      split
      · exact (Reads.test wallTimeFrom_error).bind fun _ _ => .pure trivial
      · exact .invalid _

theorem readHeader_reads : Reads (readHeader V) (fun _ => True) := by
  have hmagic : Reads checkMagic (fun _ => True) := by
    refine (readBytesRange_reads 8).bind fun magic _ => ?_
    apply Reads.ite
    · intro _
      exact .pure trivial
    · intro _
      exact .fail (magicError_rejects magic)
  refine hmagic.bind fun _ _ => ?_
  refine (readVarint_reads V UInt64).bind fun start _ => ?_
  refine (readVarint_reads V UInt64).bind fun interval _ => ?_
  exact (readClockOrigin_reads V).bind fun _ _ => .pure trivial

theorem readTag_cases (c : Cursor) (hc : c.Valid) :
    (c.position = c.mmap.len ∧ readTag c = (.ok none, c)) ∨
      ∃ tag, c.rest = tag :: (c.advance 1).rest ∧ (c.advance 1).Valid ∧
        readTag c = (.ok (some tag), c.advance 1) := by
  unfold readTag
  by_cases h : c.position = c.mmap.len
  · exact .inl ⟨h, if_pos h⟩
  · have hlt : c.position < c.mmap.bytes.length := by
      unfold Cursor.Valid Mmap.len at *
      omega
    refine .inr ⟨c.mmap.bytes[c.position], ?_, hlt, ?_⟩
    · rw [Cursor.rest_advance]
      unfold Cursor.rest
      rw [List.drop_drop]
      exact List.drop_eq_getElem_cons hlt
    · rw [if_neg h, List.getElem?_eq_getElem hlt]

end StackPulse.ReaderFacts
