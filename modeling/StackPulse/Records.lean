import StackPulse.ReaderFacts
import StackPulse.Scanning

/-!
One record of a spool: its tag selects a reader, and the decoded record is then
committed to the definitions read so far. Decoding and committing together are
the record format of the spool; the eager reader and the incremental reader both
follow it.
-/
namespace StackPulse.Records

open Attempts Bytes Bytes.ByteReader Varint Model SpoolCursor UnreadBytes FrameContexts Decode
  ReaderFacts Scanning

variable {ctx : SpoolFrameModuleContexts} {at' : ℕ} {c d : Cursor} {tag : UInt8}

inductive DecodedSpoolRecord
  | module (module : ModuleRecord)
  | frame (frame : FrameRecord)
  | stack (node : StackNodeRecord)
  | thread (thread : ThreadRecord)
  | sample (sample : SampleRecord)
  | pythonRuntime (record : PythonRuntimeRecord)
  | deactivateProcess (processId : Pid)
  | deactivateModule (moduleId : ℕ)
  deriving DecidableEq

namespace DecodedSpoolRecord

def sample? : DecodedSpoolRecord → Option SampleRecord
  | .sample record => some record
  | _ => none

/-- The process that a record names without defining a module or a thread of it. -/
def process? : DecodedSpoolRecord → Option Pid
  | .pythonRuntime record => some record.processId
  | .deactivateProcess processId => some processId
  | _ => none

end DecodedSpoolRecord

/-- Definitions read so far and the baseline of the timestamp deltas. -/
structure ReaderState where
  modules : List ModuleRecord
  frames : List FrameRecord
  frameContexts : SpoolFrameModuleContexts
  stackNodes : List StackNodeRecord
  threads : List ThreadRecord
  lastTimestampNs : UInt64

namespace ReaderState

def initial : ReaderState where
  modules := []
  frames := []
  frameContexts := .empty
  stackNodes := []
  threads := []
  lastTimestampNs := 0

def pushModule (s : ReaderState) (module : ModuleRecord) : ReaderState :=
  { s with
    frameContexts := s.frameContexts.pushModule s.modules.length module.owner
    modules := s.modules ++ [module] }

def pushFrame (s : ReaderState) (frame : FrameRecord) : ReaderState :=
  { s with
    frames := s.frames ++ [frame]
    frameContexts := s.frameContexts.pushFrame s.modules.length }

def pushStack (s : ReaderState) (node : StackNodeRecord) : ReaderState :=
  { s with stackNodes := s.stackNodes ++ [node] }

def pushThread (s : ReaderState) (thread : ThreadRecord) : ReaderState :=
  { s with threads := s.threads ++ [thread] }

def deactivateProcess (s : ReaderState) (processId : Pid) :
    Except Stop (List ℕ × ReaderState) := do
  let (deactivated, contexts) ←
    s.frameContexts.deactivateOwner (.process processId) s.frames.length
  return (deactivated, { s with frameContexts := contexts })

def deactivateModule (s : ReaderState) (moduleId : ℕ) : Except Stop ReaderState := do
  let (_, contexts) ← s.frameContexts.deactivateModule moduleId s.frames.length
  return { s with frameContexts := contexts }

/-- The state after a decoded record. -/
def commit (s : ReaderState) : DecodedSpoolRecord → Except Stop ReaderState
  | .module module => .ok (s.pushModule module)
  | .frame frame => .ok (s.pushFrame frame)
  | .stack node => .ok (s.pushStack node)
  | .thread thread => .ok (s.pushThread thread)
  | .sample sample => .ok { s with lastTimestampNs := sample.timestampNs }
  | .pythonRuntime _ => .ok s
  | .deactivateProcess processId => (·.2) <$> s.deactivateProcess processId
  | .deactivateModule moduleId => s.deactivateModule moduleId

end ReaderState

variable (V : IntegerEncoding) {s : ReaderState}

/-- The record behind a tag. -/
def decodeTagged (s : ReaderState) (tag : UInt8) : Reader DecodedSpoolRecord :=
  if tag = REC_MODULE ∨ tag = REC_JIT_MODULE then
    .module <$> readModuleRecord V s.modules.length tag
  else if tag = REC_FRAME then .frame <$> readFrame V s.modules s.frames.length
  else if tag = REC_STACK then .stack <$> readStackNode V s.stackNodes s.frames.length
  else if tag = REC_THREAD then .thread <$> readThread V s.threads.length
  else if tag = REC_SAMPLE then
    .sample <$> readSample V s.threads s.stackNodes.length s.lastTimestampNs
  else if tag = REC_PYTHON_RUNTIME then .pythonRuntime <$> readPythonRuntime V
  else if tag = REC_MODULE_DEACTIVATE then .deactivateProcess <$> readPid V
  else if tag = REC_MODULE_DEACTIVATE_ONE then
    .deactivateModule <$> readIndexWithin V s.modules.length "module deactivation"
  else fail (invalidData s!"unknown spool record tag {tag}")

def decodeSpoolRecord (s : ReaderState) : Reader (Option DecodedSpoolRecord) := do
  match ← readTag with
  | none => return none
  | some tag => return some (← decodeTagged V s tag)

/-- A tag where the file has one. -/
def recordTag : Reader UInt8 := do
  let bytes ← readBytesRange 1
  return bytes.headD 0

/-- Decode the record behind a tag and commit it. -/
def commitTagged (s : ReaderState) (tag : UInt8) :
    Reader (DecodedSpoolRecord × ReaderState) := do
  let record ← decodeTagged V s tag
  let after ← ofExcept (s.commit record)
  return (record, after)

def recordTags : List UInt8 :=
  [REC_MODULE, REC_FRAME, REC_STACK, REC_THREAD, REC_SAMPLE, REC_PYTHON_RUNTIME,
    REC_MODULE_DEACTIVATE, REC_MODULE_DEACTIVATE_ONE, REC_JIT_MODULE]

/-- What a tag can select. -/
theorem decodeTagged_cases (s : ReaderState) (P : UInt8 → Reader DecodedSpoolRecord → Prop)
    (hmodule : ∀ tag, tag = REC_MODULE ∨ tag = REC_JIT_MODULE →
      P tag (.module <$> readModuleRecord V s.modules.length tag))
    (hframe : P REC_FRAME (.frame <$> readFrame V s.modules s.frames.length))
    (hstack : P REC_STACK (.stack <$> readStackNode V s.stackNodes s.frames.length))
    (hthread : P REC_THREAD (.thread <$> readThread V s.threads.length))
    (hsample : P REC_SAMPLE
      (.sample <$> readSample V s.threads s.stackNodes.length s.lastTimestampNs))
    (hpython : P REC_PYTHON_RUNTIME (.pythonRuntime <$> readPythonRuntime V))
    (hprocess : P REC_MODULE_DEACTIVATE (.deactivateProcess <$> readPid V))
    (hone : P REC_MODULE_DEACTIVATE_ONE
      (.deactivateModule <$> readIndexWithin V s.modules.length "module deactivation"))
    (hother : ∀ tag, tag ∉ recordTags →
      P tag (fail (invalidData s!"unknown spool record tag {tag}")))
    (tag : UInt8) : P tag (decodeTagged V s tag) := by
  unfold decodeTagged
  by_cases h1 : tag = REC_MODULE ∨ tag = REC_JIT_MODULE
  · rw [if_pos h1]
    exact hmodule tag h1
  rw [if_neg h1]
  have step : ∀ {t : UInt8} {m m' : Reader DecodedSpoolRecord}, P t m → (tag ≠ t → P tag m') →
      P tag (if tag = t then m else m') := by
    intro t m m' hm hm'
    split
    · rename_i h
      rw [h]
      exact hm
    · exact hm' ‹_›
  refine step hframe fun h2 => step hstack fun h3 => step hthread fun h4 => step hsample fun h5 =>
    step hpython fun h6 => step hprocess fun h7 => step hone fun h8 => ?_
  apply hother
  simp only [recordTags, List.mem_cons, List.not_mem_nil, or_false, not_or] at h1 ⊢
  exact ⟨h1.1, h2, h3, h4, h5, h6, h7, h8, h1.2⟩

theorem decodeTagged_reads (s : ReaderState) (tag : UInt8) :
    Reads (decodeTagged V s tag) (fun _ => True) := by
  apply decodeTagged_cases V s fun _ m => Reads m fun _ => True
  · intro tag _
    exact (readModuleRecord_reads V _ tag).map _ fun _ _ => trivial
  · exact (readFrame_reads V _ _).map _ fun _ _ => trivial
  · exact (readStackNode_reads V _ _).map _ fun _ _ => trivial
  · exact (readThread_reads V _).map _ fun _ _ => trivial
  · exact (readSample_reads V _ _ _).map _ fun _ _ => trivial
  · exact (readPythonRuntime_reads V).map _ fun _ _ => trivial
  · exact (readPid_reads V).map _ fun _ _ => trivial
  · exact (readIndexWithin_reads V _ _).map _ fun _ _ => trivial
  · intro tag _
    exact .invalid _

theorem decodeSpoolRecord_ahead (s : ReaderState) : Ahead (decodeSpoolRecord V s) := by
  refine readTag_ahead.bind (Q := fun _ => True) (fun _ _ _ _ => trivial) fun tag _ => ?_
  cases tag with
  | none => exact Ahead.pure none
  | some tag => exact ((decodeTagged_reads V s tag).map (R := fun _ => True) some fun _ => id).ahead

/-- Committing a record fails only where the source would panic. -/
theorem deactivateModule_error {moduleId : ℕ} {e : Stop}
    (h : ctx.deactivateModule moduleId at' = .error e) :
    ctx.moduleDeactivatedAt.get moduleId = none ∧ e = .panic "every module has a context" := by
  unfold SpoolFrameModuleContexts.deactivateModule at h
  split at h
  · cases h
    exact ⟨‹_›, rfl⟩
  · cases h
  · cases h

theorem deactivateAll_error {moduleIds : List ℕ} :
    FailsWith (·.isEof = false) (SpoolFrameModuleContexts.deactivateAll at' moduleIds ctx) := by
  induction moduleIds generalizing ctx with
  | nil => exact .ok _
  | cons moduleId moduleIds ih =>
    unfold SpoolFrameModuleContexts.deactivateAll
    refine .bind (fun e he => ?_) fun _ _ => ih.bind fun _ _ => .ok _
    rw [(deactivateModule_error he).2]
    rfl

theorem deactivateOwner_error {owner : ModuleOwner} :
    FailsWith (·.isEof = false) (ctx.deactivateOwner owner at') := by
  unfold SpoolFrameModuleContexts.deactivateOwner
  split
  · exact .ok _
  · exact deactivateAll_error

theorem commit_error {record : DecodedSpoolRecord} :
    FailsWith (·.isEof = false) (s.commit record) := by
  cases record with
  | deactivateProcess processId =>
    exact .map _ (.bind deactivateOwner_error fun _ _ => .ok _)
  | deactivateModule moduleId =>
    refine .bind (fun e he => ?_) fun _ _ => .ok _
    rw [(deactivateModule_error he).2]
    rfl
  | _ => exact .ok _

theorem commitTagged_stable (s : ReaderState) (tag : UInt8) :
    (commitTagged V s tag).Stable Stop.isEof :=
  (decodeTagged_reads V s tag).stable.bind fun _ =>
    (Stable.ofExcept _ commit_error).bind fun _ => Stable.pure _

theorem recordTag_reads : Reads recordTag (fun _ => True) :=
  (readBytesRange_reads 1).bind fun _ _ => .pure trivial

/-- Where the file goes on, the tag is its next byte. -/
theorem recordTag_eq (h : readTag c = (.ok (some tag), d)) : recordTag c = (.ok tag, d) := by
  have hlt := c.mmap.length_lt
  unfold readTag at h
  split at h
  · cases h
  · split at h
    · rename_i b hget
      cases h
      have hpos := (List.getElem?_eq_some_iff.mp hget).1
      have htake : c.rest.take 1 = [tag] := by
        unfold Cursor.rest
        rw [List.drop_eq_getElem_cons hpos, (List.getElem?_eq_some_iff.mp hget).2]
        rfl
      have hread : readBytesRange 1 c = (.ok [tag], c.advance 1) := by
        unfold readBytesRange Mmap.len
        rw [if_neg (by omega), if_neg (by omega), htake]
        rfl
      exact bind_of_ok hread
    · cases h

theorem recordTag_progress (h : recordTag c = (.ok tag, d)) : d.position = c.position + 1 := by
  obtain ⟨bytes, c', hread, hrest⟩ := bind_eq_ok h
  cases hrest
  obtain ⟨_, heq⟩ | ⟨_, _, heq⟩ | ⟨_, _, heq⟩ := readBytesRange_cases 1 c
  · rw [heq] at hread
    cases hread
  · rw [heq] at hread
    cases hread
  · rw [heq] at hread
    cases hread
    rfl

/-- The record format of the spool. -/
def spoolFormat : Format Stop ReaderState DecodedSpoolRecord where
  eof := Stop.isEof
  next s := do
    let tag ← recordTag
    commitTagged V s tag
  stable s := recordTag_reads.stable.bind fun tag => commitTagged_stable V s tag
  progress s c x d hc h := by
    obtain ⟨tag, c', htag, hrest⟩ := bind_eq_ok h
    have hvalid := recordTag_reads.stable.within c hc
    rw [htag] at hvalid
    have hle := (commitTagged_stable V s tag).forward c' hvalid
    rw [hrest] at hle
    rw [recordTag_progress htag] at hle
    exact hle

/-- The next record, once its tag is known. -/
theorem next_of_readTag (h : readTag c = (.ok (some tag), d)) :
    (spoolFormat V).next s c = commitTagged V s tag d :=
  bind_of_ok (recordTag_eq h)

variable {V} in
/-- The parts of one record: its tag, its decoded value, the committed state. -/
theorem next_parts {t : ReaderState} {record : DecodedSpoolRecord} (hc : c.Valid)
    (h : (spoolFormat V).next s c = (.ok (record, t), d)) :
    ∃ tag, readTag c = (.ok (some tag), c.advance 1) ∧
      decodeTagged V s tag (c.advance 1) = (.ok record, d) ∧ s.commit record = .ok t := by
  rcases readTag_cases c hc with ⟨hend, _⟩ | ⟨tag, _, _, htag⟩
  · have hhalts : Halts (spoolFormat V) s c .complete := hend
    exact absurd h (hhalts.next_ne hc)
  · rw [next_of_readTag V htag] at h
    obtain ⟨record', c', hdecode, hrest⟩ := bind_eq_ok h
    obtain ⟨after, c'', hcommit, hpure⟩ := bind_eq_ok hrest
    cases hpure
    refine ⟨tag, htag, ?_, congrArg Prod.fst hcommit⟩
    have hcursor : c' = d := congrArg Prod.snd hcommit
    rw [← hcursor]
    exact hdecode

end StackPulse.Records
