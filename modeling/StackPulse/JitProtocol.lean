import StackPulse.Attempts
import StackPulse.OrderedMap
import Mathlib.Data.Prod.Lex
import Mathlib.Order.Nat

/-!
Registration snapshots of the GDB JIT interface, read from the memory of a running
process. The process goes on while it is read: a read is numbered, and two reads of the
same address need not agree. Addresses are 64 bits wide.
-/
namespace StackPulse.JitProtocol

open OrderedMap Attempts

def MAX_JIT_ENTRIES : ℕ := 4096
def MAX_JIT_TOTAL_SIZE : ℕ := 256 * 1024 * 1024
def MAX_JIT_READ_SIZE : ℕ := 64 * 1024 * 1024

inductive IoError where
  | permissionDenied
  | other (message : String)
  deriving DecidableEq

/-- How reading ends early. A subtraction below zero is no error of the source: it would
stop the program. -/
inductive Fault where
  | read (error : IoError)
  | limit (text : String)
  | underflow
  deriving DecidableEq

def jitError (operation detail : String) : Fault := .read (.other (operation ++ ": " ++ detail))

/-- Lower-case hexadecimal digits. -/
def hex (n : ℕ) : String := String.ofList (Nat.toDigits 16 n)

/-- The memory of the process, as each read finds it. -/
structure Memory where
  read : (time address size : ℕ) → Except IoError (List UInt8)
  length_read : ∀ {time address size bytes}, read time address size = .ok bytes →
    bytes.length = size

/-- Reading takes the number of the next read along. -/
abbrev Access (α : Type) := Attempt ℕ Fault α

variable (memory : Memory)

def Memory.access (address size : ℕ) : Access (List UInt8) := fun time =>
  match memory.read time address size with
  | .ok bytes => (.ok bytes, time + 1)
  | .error e => (.error (.read e), time + 1)

def readArray (size address : ℕ) : Access (List UInt8) :=
  if 2 ^ 64 ≤ address + size then throw (.read (.other "JIT address range overflow"))
  else memory.access address size

def readMemory (address size : ℕ) : Access (List UInt8) :=
  if MAX_JIT_READ_SIZE < size then
    throw (jitError "GDB JIT memory read"
      ("size " ++ toString size ++ " exceeds " ++ toString MAX_JIT_READ_SIZE))
  else if 2 ^ 64 ≤ address + size then throw (.read (.other "JIT address range overflow"))
  else memory.access address size

/-- The number that some bytes stand for, the lowest first. -/
def littleEndian (bytes : List UInt8) : ℕ := bytes.foldr (fun b n => b.toNat + 256 * n) 0

/-- A field of `width` bytes. -/
def field (bytes : List UInt8) (width index : ℕ) : ℕ :=
  littleEndian ((bytes.drop (width * index)).take width)

structure JitDescriptor where
  version : ℕ
  actionFlag : ℕ
  relevantEntry : ℕ
  firstEntry : ℕ
  deriving DecidableEq

structure JitCodeEntry where
  nextEntry : ℕ
  prevEntry : ℕ
  symfileAddr : ℕ
  symfileSize : ℕ
  deriving DecidableEq

structure JitSnapshot where
  descriptors : List (ℕ × JitDescriptor)
  entries : BTreeMap ℕ JitCodeEntry
  deriving DecidableEq

structure FileIdentity where
  inode : ℕ
  device : ℕ
  deriving DecidableEq

structure JitDescriptorLocation where
  address : ℕ
  owner : String
  ownerFileOffset : Option ℕ
  ownerIdentity : Option FileIdentity
  deriving DecidableEq

/-- A registration at one list node: the node can be used again for another image. -/
structure JitObjectId where
  entryAddr : ℕ
  symfileAddr : ℕ
  symfileSize : ℕ
  deriving DecidableEq

namespace JitObjectId

def new (entryAddr : ℕ) (entry : JitCodeEntry) : JitObjectId :=
  ⟨entryAddr, entry.symfileAddr, entry.symfileSize⟩

def path (id : JitObjectId) : String :=
  "[jit-0x" ++ hex id.entryAddr ++ "-0x" ++ hex id.symfileAddr ++ "-0x" ++ hex id.symfileSize ++ "]"

def key (id : JitObjectId) : ℕ ×ₗ ℕ ×ₗ ℕ :=
  toLex (id.entryAddr, toLex (id.symfileAddr, id.symfileSize))

theorem key_injective : Function.Injective key := by
  rintro ⟨a, b, c⟩ ⟨a', b', c'⟩ h
  have hpair := congrArg ofLex h
  have ha : a = a' := congrArg Prod.fst hpair
  have hrest : (b, c) = (b', c') := congrArg (fun p => ofLex p.2) hpair
  cases hrest
  rw [ha]

/-- The order in which registrations are admitted. -/
instance : LinearOrder JitObjectId := LinearOrder.lift' key key_injective

end JitObjectId

def readDescriptor (location : JitDescriptorLocation) : Access (ℕ × JitDescriptor) := do
  let bytes ← readArray memory 24 location.address
  let descriptor : JitDescriptor :=
    { version := field bytes 4 0
      actionFlag := field bytes 4 1
      relevantEntry := field bytes 8 1
      firstEntry := field bytes 8 2 }
  if descriptor.version ≠ 1 then
    throw (jitError "GDB JIT descriptor" ("unsupported version " ++ toString descriptor.version))
  else return (location.address, descriptor)

def readDescriptors : List JitDescriptorLocation → Access (List (ℕ × JitDescriptor))
  | [] => return []
  | location :: locations => do
      let descriptor ← readDescriptor memory location
      let descriptors ← readDescriptors locations
      return descriptor :: descriptors

/-- What is wrong with a list node. -/
def entryFault (address previous : ℕ) (entry : JitCodeEntry) : Option Fault :=
  if MAX_JIT_READ_SIZE < entry.symfileSize then some (.limit "64 MiB per object")
  else if entry.symfileSize = 0 then some (jitError "GDB JIT symfile" "invalid size 0")
  else if entry.prevEntry ≠ previous then
    some (jitError "GDB JIT traversal" ("entry 0x" ++ hex address ++ " points back to 0x" ++
      hex entry.prevEntry ++ ", expected 0x" ++ hex previous))
  else none

/-- Follow the list from a node. The bound on the entries ends the loop before the fuel
does. -/
def readEntriesLoop : ℕ → BTreeMap ℕ JitCodeEntry → ℕ → ℕ → Access (BTreeMap ℕ JitCodeEntry)
  | 0, _, _, _ => throw (.limit "4096 registrations")
  | fuel + 1, entries, address, previous =>
      if address = 0 then return entries
      else if entries.len = MAX_JIT_ENTRIES then throw (.limit "4096 registrations")
      else if (entries.get address).isSome then
        throw (jitError "GDB JIT traversal" ("cycle at 0x" ++ hex address))
      else do
        let bytes ← readArray memory 32 address
        let entry : JitCodeEntry :=
          { nextEntry := field bytes 8 0
            prevEntry := field bytes 8 1
            symfileAddr := field bytes 8 2
            symfileSize := field bytes 8 3 }
        match entryFault address previous entry with
        | some fault => throw fault
        | none => readEntriesLoop fuel (entries.insert address entry) entry.nextEntry address

def readEntries (firstEntry : ℕ) : Access (BTreeMap ℕ JitCodeEntry) :=
  readEntriesLoop memory (MAX_JIT_ENTRIES + 2) .empty firstEntry 0

/-- Put the entries of one list to those of the others. -/
def mergeEntries : List (ℕ × JitCodeEntry) → BTreeMap ℕ JitCodeEntry → ℕ →
    Except Fault (BTreeMap ℕ JitCodeEntry × ℕ)
  | [], entries, totalSize => .ok (entries, totalSize)
  | (address, entry) :: more, entries, totalSize =>
      match entries.get address with
      | some previous =>
          if previous ≠ entry then
            .error (jitError "GDB JIT registry" "inconsistent shared registration")
          else mergeEntries more entries totalSize
      | none =>
          let entries := entries.insert address entry
          let totalSize := totalSize + entry.symfileSize
          if 2 ^ 64 ≤ totalSize then .error (.read (.other "JIT registry size overflow"))
          else if MAX_JIT_ENTRIES < entries.len then .error (.limit "4096 registrations")
          else if MAX_JIT_TOTAL_SIZE < totalSize then
            .error (.limit "256 MiB of registered objects")
          else mergeEntries more entries totalSize

def readSnapshotLoop : List (ℕ × JitDescriptor) → BTreeMap ℕ JitCodeEntry → ℕ →
    Access (BTreeMap ℕ JitCodeEntry)
  | [], entries, _ => return entries
  | (_, descriptor) :: descriptors, entries, totalSize => do
      let listed ← readEntries memory descriptor.firstEntry
      let merged ← ExceptT.mk (pure (mergeEntries listed.entries entries totalSize))
      readSnapshotLoop descriptors merged.1 merged.2

def readSnapshot (descriptors : List (ℕ × JitDescriptor)) : Access JitSnapshot := do
  let entries ← readSnapshotLoop memory descriptors .empty 0
  return ⟨descriptors, entries⟩

/-- Both parts of a snapshot. -/
def readRegistry (locations : List JitDescriptorLocation) : Access JitSnapshot := do
  let descriptors ← readDescriptors memory locations
  readSnapshot memory descriptors

end StackPulse.JitProtocol
