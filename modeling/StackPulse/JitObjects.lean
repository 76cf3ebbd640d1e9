import StackPulse.JitProtocol
import StackPulse.StableSort
import StackPulse.FrameContexts

/-!
Registered images: their executable ranges, symbols and live unwind sections. The
parser of the images, the digests and the index over unwind entries come from libraries
and can be any functions. An unwind section is copied only within the budget that is
left.
-/
namespace StackPulse.JitObjects

open Attempts JitProtocol StableSort

def MAX_JIT_TOTAL_CFI_SIZE : ℕ := 256 * 1024 * 1024
def MAX_JIT_SYMBOLS : ℕ := 1000000

/-- A half-open range of addresses. -/
structure Range where
  start : ℕ
  stop : ℕ
  deriving DecidableEq

def Range.size (range : Range) : ℕ := range.stop - range.start

def Range.contains (range : Range) (address : ℕ) : Bool :=
  decide (range.start ≤ address) && decide (address < range.stop)

structure SectionHeader where
  name : Option String
  addr : ℕ
  size : ℕ
  executable : Bool

structure ElfSymbol where
  isFunction : Bool
  shndx : ℕ
  value : ℕ
  size : ℕ
  name : Option String

structure Elf where
  is64 : Bool
  littleEndian : Bool
  relocatable : Bool
  sectionHeaders : List SectionHeader
  syms : List ElfSymbol

/-- An address range of a given size, if it does not wrap. -/
def checkedRange (start size : ℕ) : Option Range :=
  if start + size < 2 ^ 64 then some ⟨start, start + size⟩ else none

def findSectionRange (name : String) (elf : Elf) : Option Range := do
  let header ← elf.sectionHeaders.find? fun header => header.name == some name
  checkedRange header.addr header.size

/-- The executable sections, in the order of their addresses. -/
def executableSectionRanges (elf : Elf) : List Range :=
  sortByKey Range.start <|
    (elf.sectionHeaders.filter fun header =>
        decide (header.addr ≠ 0) && decide (header.size ≠ 0) && header.executable).filterMap
      fun header => checkedRange header.addr header.size

/-- Whether a range reaches into the next one. -/
def overlapping : List Range → Bool
  | range :: next :: ranges => decide (next.start < range.stop) || overlapping (next :: ranges)
  | _ => false

structure Symbol where
  range : Range
  name : Option String
  deriving DecidableEq

/-- A function symbol before its end is known. -/
structure SymbolStart where
  start : ℕ
  size : ℕ
  sectionEnd : ℕ
  name : String

def symbolStart (elf : Elf) (codeRanges : List Range) (symbol : ElfSymbol) :
    Option SymbolStart := do
  let header ← elf.sectionHeaders[symbol.shndx]?
  let start ←
    if elf.relocatable then
      if header.addr + symbol.value < 2 ^ 64 then some (header.addr + symbol.value) else none
    else some symbol.value
  let range ← codeRanges.find? fun range => range.contains start
  let name ← symbol.name
  return ⟨start, symbol.size, range.stop, name⟩

/-- Names are bounded one by one and together. -/
def namesWithin : ℕ → List SymbolStart → Bool
  | _, [] => true
  | budget, symbol :: symbols =>
      if 1024 * 1024 < symbol.name.utf8ByteSize ∨ budget < symbol.name.utf8ByteSize then false
      else namesWithin (budget - symbol.name.utf8ByteSize) symbols

/-- A symbol without a size goes on to the next one, within its section. -/
def symbolEnd (symbols : List SymbolStart) (symbol : SymbolStart) : Option ℕ :=
  if symbol.size = 0 then
    let next := FrameContexts.partitionPoint (fun next => decide (next.start ≤ symbol.start))
      symbols
    some ((symbols[next]?).elim symbol.sectionEnd fun next => min next.start symbol.sectionEnd)
  else if symbol.start + symbol.size < 2 ^ 64 then
    some (min (symbol.start + symbol.size) symbol.sectionEnd)
  else none

def jitSymbols (elf : Elf) (codeRanges : List Range) : Except Fault (List Symbol) :=
  let starts := (elf.syms.filter fun symbol =>
    symbol.isFunction && decide (symbol.shndx ≠ 0)).filterMap (symbolStart elf codeRanges)
  if MAX_JIT_SYMBOLS < starts.length then
    .error (jitError "GDB JIT symbols" "symbol table exceeds bounds")
  else if namesWithin MAX_JIT_READ_SIZE starts = false then
    .error (jitError "GDB JIT symbols" "symbol names exceed bounds")
  else
    let sorted := sortByKey SymbolStart.start starts
    .ok (sorted.filterMap fun symbol => do
      let stop ← symbolEnd sorted symbol
      if symbol.start < stop then some ⟨⟨symbol.start, stop⟩, some symbol.name⟩ else none)

inductive CfiState where
  | absent
  | unreadable (range : Range)
  | budgetLimited (range : Range)
  | loaded (range : Range) (fingerprint : UInt64)
  deriving DecidableEq

namespace CfiState

def markBudgetLimited : CfiState → CfiState
  | .unreadable range => .budgetLimited range
  | cfi => cfi

def budgetLimit : CfiState → Option String
  | .budgetLimited range =>
      if MAX_JIT_READ_SIZE < range.size then some "64 MiB per unwind section"
      else some "256 MiB of live unwind data"
  | _ => none

def range? : CfiState → Option Range
  | .absent => none
  | .unreadable range => some range
  | .budgetLimited range => some range
  | .loaded range _ => some range

/-- The bytes of copied unwind data. -/
def loadedSize : CfiState → ℕ
  | .loaded range _ => range.size
  | _ => 0

end CfiState

structure JitUnwind where
  cfi : CfiState
  text : Option Range
  got : Option Range
  deriving DecidableEq

/-- The sections of a module handed to the unwinder. -/
structure ModuleSections where
  baseSvma : ℕ
  textSvma : Range
  gotSvma : Option Range
  ehFrameSvma : Option Range
  ehFrame : Option (List UInt8)
  ehFrameHdr : Option (List UInt8)
  deriving DecidableEq

structure Module where
  name : String
  range : Range
  base : ℕ
  sections : ModuleSections
  deriving DecidableEq

structure JitObject where
  codeRanges : List Range
  pendingModules : List Module
  symbols : Option (List Symbol)
  imageFingerprint : UInt64
  unwind : JitUnwind
  deriving DecidableEq

structure UnwindUpdate where
  unwind : JitUnwind
  modules : List Module

inductive ObjectChange where
  | unchanged
  | image
  | unwind (update : UnwindUpdate)

/-- The process with its clock, the libraries that look at its images, and the order in
which hash tables give their entries. -/
structure World extends Memory where
  clock : ℕ → ℕ
  iteration : ℕ → ∀ {α : Type}, List α → List α
  iteration_perm : ∀ time {α : Type} (l : List α), (iteration time l).Perm l
  parse : List UInt8 → Except String Elf
  fingerprint : List UInt8 → UInt64
  absoluteCfiHeader : List UInt8 → ℕ → ℕ → Option Range → Option (List UInt8)

variable (world : World)

/-- One module for each code range, sharing the unwind data. -/
def JitUnwind.buildModules (unwind : JitUnwind) (path : String) (codeRanges : List Range)
    (bytes : Option (List UInt8)) : List Module :=
  match codeRanges with
  | [] => []
  | first :: _ =>
      let text := unwind.text.getD first
      let ehFrame := unwind.cfi.range?
      let header := do
        let bytes ← bytes
        let range ← ehFrame
        world.absoluteCfiHeader bytes range.start text.start unwind.got
      codeRanges.map fun range =>
        { name := path
          range := range
          base := range.start
          sections :=
            { baseSvma := range.start
              textSvma := text
              gotSvma := unwind.got
              ehFrameSvma := ehFrame
              ehFrame := if header.isSome then bytes else none
              ehFrameHdr := header } }

/-- Take from what is left of the budget. -/
def debit (remaining size : ℕ) : Access ℕ :=
  if size ≤ remaining then return remaining - size else throw .underflow

/-- An image that can be registered, with its code ranges and symbols. -/
structure Image where
  data : List UInt8
  elf : Elf
  codeRanges : List Range
  symbols : List Symbol

def inspectImage (data : List UInt8) : Except Fault Image := do
  let elf ← (world.parse data).mapError fun message => Fault.read (.other message)
  if elf.is64 = false ∨ elf.littleEndian = false then
    .error (jitError "GDB JIT ELF" "unsupported architecture")
  else
    let codeRanges := executableSectionRanges elf
    if overlapping codeRanges = true then
      .error (jitError "GDB JIT ELF" "overlapping executable sections")
    else
      let symbols ← jitSymbols elf codeRanges
      .ok ⟨data, elf, codeRanges, symbols ++ codeRanges.map fun range => ⟨range, none⟩⟩

def readImage (id : JitObjectId) : Access Image :=
  if id.symfileSize = 0 then throw (jitError "GDB JIT symfile" "invalid size 0")
  else do
    let data ← readMemory world.toMemory id.symfileAddr id.symfileSize
    ExceptT.mk (pure (inspectImage world data))

/-- Copy an unwind section if the budget allows it; a failed read is no error. -/
def copyCfi (range : Option Range) (remaining : ℕ) : Access (Option (List UInt8) × ℕ) :=
  match range with
  | none => return (none, remaining)
  | some range =>
      if min remaining MAX_JIT_READ_SIZE < range.size then return (none, remaining)
      else
        handle (readMemory world.toMemory range.start range.size)
          (fun bytes => do
            let remaining ← debit remaining range.size
            return (some bytes, remaining))
          fun _ => return (none, remaining)

def cfiState (range : Option Range) (bytes : Option (List UInt8)) (remaining : ℕ) : CfiState :=
  match range, bytes with
  | none, _ => .absent
  | some range, none =>
      if min remaining MAX_JIT_READ_SIZE < range.size then .budgetLimited range
      else .unreadable range
  | some range, some bytes => .loaded range (world.fingerprint bytes)

/-- A section that is there and has an address. -/
def placed (range : Option Range) : Option Range :=
  range.filter fun range => decide (range.start ≠ 0) && decide (range.start < range.stop)

namespace JitObject

/-- The object of an image, with what could be copied of its unwind section. -/
def assemble (id : JitObjectId) (image : Image) (range : Option Range)
    (bytes : Option (List UInt8)) (remaining : ℕ) : JitObject :=
  let unwind : JitUnwind :=
    { cfi := cfiState world range bytes remaining
      text := placed (findSectionRange ".text" image.elf)
      got := (findSectionRange ".got" image.elf).filter fun range =>
        decide (range.start < range.stop) }
  { codeRanges := image.codeRanges
    pendingModules := unwind.buildModules world id.path image.codeRanges bytes
    symbols := some image.symbols
    imageFingerprint := world.fingerprint image.data
    unwind := unwind }

/-- A new object, and what it leaves of the budget. -/
def load (id : JitObjectId) (remaining : ℕ) : Access (JitObject × ℕ) := do
  let image ← readImage world id
  let range := placed (findSectionRange ".eh_frame" image.elf)
  let copied ← copyCfi world range remaining
  return (assemble world id image range copied.1 copied.2, copied.2)

/-- Unwind data that is not the old is to replace it. -/
def compareCfi (object : JitObject) (id : JitObjectId) (range : Range)
    (oldFingerprint : Option UInt64) (remaining : ℕ) (bytes : List UInt8) :
    Access (ObjectChange × ℕ) :=
  if oldFingerprint = some (world.fingerprint bytes) then return (.unchanged, remaining)
  else do
    let unwind : JitUnwind := { object.unwind with cfi := .loaded range (world.fingerprint bytes) }
    let modules := unwind.buildModules world id.path object.codeRanges (some bytes)
    let remaining ← debit remaining range.size
    return (.unwind ⟨unwind, modules⟩, remaining)

/-- Read the unwind section of an object again. -/
def inspectCfi (object : JitObject) (id : JitObjectId) (range : Range)
    (oldFingerprint : Option UInt64) (remaining : ℕ) : Access (ObjectChange × ℕ) :=
  if MAX_JIT_READ_SIZE < range.size then throw (.limit "64 MiB per unwind section")
  else if remaining < range.size then throw (.limit "256 MiB of live unwind data")
  else do
    let bytes ← readMemory world.toMemory range.start range.size
    compareCfi world object id range oldFingerprint remaining bytes

/-- What has changed of an object, and what is left of the budget. -/
def inspect (object : JitObject) (id : JitObjectId) (remaining : ℕ) :
    Access (ObjectChange × ℕ) := do
  let data ← readMemory world.toMemory id.symfileAddr id.symfileSize
  if world.fingerprint data ≠ object.imageFingerprint then return (.image, remaining)
  else
    match object.unwind.cfi with
    | .absent => return (.unchanged, remaining)
    | .unreadable range => inspectCfi world object id range none remaining
    | .budgetLimited range => inspectCfi world object id range none remaining
    | .loaded range fingerprint => inspectCfi world object id range (some fingerprint) remaining

/-- Changed unwind data leaves the symbols and the layout. -/
def applyUnwind (object : JitObject) (update : UnwindUpdate) : JitObject :=
  { object with unwind := update.unwind, pendingModules := update.modules }

def markBudgetLimited (object : JitObject) : JitObject :=
  { object with unwind := { object.unwind with cfi := object.unwind.cfi.markBudgetLimited } }

end JitObject

def loadedCfiSize (object : JitObject) : ℕ := object.unwind.cfi.loadedSize

end StackPulse.JitObjects
