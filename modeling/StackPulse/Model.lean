import Mathlib.Data.List.AList
import Mathlib.Data.UInt

/-!
The data of a spool: identities, modules, frames, samples and the clock origin,
together with the errors its readers and writers report. Machine integers keep
the width they have in the program, so a record cannot hold a value its wire
encoding cannot carry.
-/
namespace StackPulse.Model

inductive ErrorKind
  | unexpectedEof
  | invalidData
  | invalidInput
  | writeZero
  | interrupted
  | other (code : ℕ)
  deriving DecidableEq, Repr

/-- An I/O error. `outputFailure` is the error built from a remembered failure;
it shows the kind and the text of that failure. -/
inductive IoError
  | new (kind : ErrorKind) (message : String)
  | outputFailure (failure : IoError)
  deriving DecidableEq, Repr

namespace IoError

def kind : IoError → ErrorKind
  | new kind _ => kind
  | outputFailure failure => failure.kind

def message : IoError → String
  | new _ message => message
  | outputFailure failure => failure.message

end IoError

/-- Why a call did not return a value: an I/O error, a panic (a failed `expect`,
index or unchecked addition), or a retry loop that is still running. -/
inductive Stop
  | io (error : IoError)
  | panic (site : String)
  | pending
  deriving DecidableEq, Repr

def invalidData (message : String) : Stop := .io (.new .invalidData message)

def invalidInput (message : String) : Stop := .io (.new .invalidInput message)

def unexpectedEof (message : String) : Stop := .io (.new .unexpectedEof message)

namespace Stop

/-- The error kind that marks an input cut short. -/
def isEof : Stop → Bool
  | io error => error.kind == .unexpectedEof
  | _ => false

/-- An error of the program's own error type. -/
def isIo : Stop → Bool
  | io _ => true
  | _ => false

section

variable (m : String)

include m

@[simp] theorem isEof_invalidData : (invalidData m).isEof = false := rfl
@[simp] theorem isEof_invalidInput : (invalidInput m).isEof = false := rfl
@[simp] theorem isEof_unexpectedEof : (unexpectedEof m).isEof = true := rfl
@[simp] theorem isEof_panic : (panic m).isEof = false := rfl
@[simp] theorem isIo_invalidData : (invalidData m).isIo = true := rfl
@[simp] theorem isIo_unexpectedEof : (unexpectedEof m).isIo = true := rfl

end

end Stop

/-- Hash maps as finite maps; nothing depends on their iteration order. -/
abbrev FxHashMap (K V : Type) := AList fun _ : K => V

section

variable {K V : Type} [DecidableEq K]

theorem lookup_insert_eq (m : FxHashMap K V) (k k' : K) (v : V) :
    (m.insert k v).lookup k' = if k' = k then some v else m.lookup k' := by
  by_cases h : k' = k
  · subst h
    rw [if_pos rfl, AList.lookup_insert]
  · rw [if_neg h, AList.lookup_insert_ne h]

theorem lookup_erase_eq (m : FxHashMap K V) (k k' : K) :
    (m.erase k).lookup k' = if k' = k then none else m.lookup k' := by
  by_cases h : k' = k
  · subst h
    rw [if_pos rfl, AList.lookup_erase]
  · rw [if_neg h, AList.lookup_erase_ne h]

theorem lookup_insert_cases {m : FxHashMap K V} {k k' : K} {v v' : V}
    (h : (m.insert k' v').lookup k = some v) : (k = k' ∧ v = v') ∨ m.lookup k = some v := by
  rw [lookup_insert_eq] at h
  split at h
  · exact .inl ⟨‹_›, (Option.some.inj h).symm⟩
  · exact .inr h

end

/-- A positive Linux process identifier. -/
structure Pid where
  get : Int32
  pos : 0 < get
  deriving DecidableEq

theorem Pid.one_pos : (0 : Int32) < 1 := by decide

def Pid.new (raw : Int32) : Option Pid := if h : 0 < raw then some ⟨raw, h⟩ else none

/-- A positive Linux thread identifier. -/
structure Tid where
  get : Int32
  pos : 0 < get
  deriving DecidableEq

def Tid.new (raw : Int32) : Option Tid := if h : 0 < raw then some ⟨raw, h⟩ else none

def invalidPid (raw : Int32) : String := s!"invalid process id {raw}"

def Pid.tryFrom (raw : Int32) : Except String Pid :=
  match Pid.new raw with
  | some pid => .ok pid
  | none => .error (invalidPid raw)

def invalidTid (raw : UInt64) : String :=
  s!"invalid thread id {min raw.toNat (2 ^ 63 - 1)}"

def Tid.tryFrom (raw : UInt64) : Except String Tid :=
  match if raw.toNat < 2 ^ 31 then Tid.new (Int32.ofNat raw.toNat) else none with
  | some tid => .ok tid
  | none => .error (invalidTid raw)

theorem Pid.get_inj {p q : Pid} (h : p.get = q.get) : p = q := by
  cases p
  cases q
  simpa using h

theorem Pid.new_get (p : Pid) : Pid.new p.get = some p := dif_pos p.pos

theorem Pid.new_eq_some {raw : Int32} {p : Pid} : Pid.new raw = some p ↔ p.get = raw := by
  constructor
  · intro h
    unfold Pid.new at h
    split at h
    · cases h
      rfl
    · cases h
  · rintro rfl
    exact p.new_get

def MAX_JIT_SYMBOLS : ℕ := 1000000

def MAX_JIT_SYMBOL_NAME : ℕ := 1024 * 1024

/-- Native operating-system bytes of a path. -/
structure ModulePath where
  bytes : List UInt8
  deriving DecidableEq

/-- What path comparison looks at: the root, a leading current directory, and
the names, without empty and current-directory names. -/
structure PathComponents where
  root : Bool
  curDir : Bool
  names : List (List UInt8)
  deriving DecidableEq

def ModulePath.components (path : ModulePath) : PathComponents :=
  let pieces := path.bytes.splitOn 47
  let root := path.bytes.head? == some 47
  { root := root
    curDir := !root && pieces.head? == some [46]
    names := pieces.filter fun name => !name.isEmpty && name != [46] }

inductive ModuleOwner
  | process (pid : Pid)
  | kernel
  deriving DecidableEq

namespace ModuleOwner

def fromWire (processId : Int32) (isKernel : Bool) : Except Stop ModuleOwner :=
  if isKernel then .ok .kernel
  else match Pid.tryFrom processId with
    | .ok pid => .ok (.process pid)
    | .error error => .error (invalidData error)

def pid : ModuleOwner → Option Pid
  | process pid => some pid
  | kernel => none

def wireProcessId : ModuleOwner → Int32
  | process pid => pid.get
  | kernel => -1

def isKernel : ModuleOwner → Bool
  | process _ => false
  | kernel => true

theorem fromWire_wireProcessId (owner : ModuleOwner) :
    fromWire owner.wireProcessId owner.isKernel = .ok owner := by
  cases owner with
  | kernel => rfl
  | process pid => simp [fromWire, wireProcessId, isKernel, Pid.tryFrom, Pid.new_get]

end ModuleOwner

structure JitSymbol where
  start : UInt64
  stop : UInt64
  name : String
  deriving DecidableEq

/-- One executable mapping or registered JIT code section. The source field
`end` is `stop` here. -/
structure ModuleRecord where
  id : UInt32
  owner : ModuleOwner
  start : UInt64
  stop : UInt64
  fileOffset : UInt64
  inode : UInt64
  deviceMajor : UInt32
  deviceMinor : UInt32
  inodeGeneration : UInt64
  path : ModulePath
  jitSymbols : Option (List JitSymbol)
  deriving DecidableEq

namespace ModuleRecord

def pid (m : ModuleRecord) : Option Pid := m.owner.pid

def isKernel (m : ModuleRecord) : Bool := m.owner.isKernel

def wireProcessId (m : ModuleRecord) : Int32 := m.owner.wireProcessId

end ModuleRecord

inductive FrameMode
  | user
  | kernel
  | truncatedStackMarker
  deriving DecidableEq, Repr

structure FrameRecord where
  moduleId : Option UInt32
  fileRelativeIp : UInt64
  absIp : UInt64
  mode : FrameMode
  deriving DecidableEq

namespace FrameRecord

/-- Sentinel frame written when unwinding stopped before the stack root. -/
def truncatedStackMarker : FrameRecord where
  moduleId := none
  fileRelativeIp := 0
  absIp := 0
  mode := .truncatedStackMarker

def isTruncatedStackMarker (frame : FrameRecord) : Bool := frame == truncatedStackMarker

end FrameRecord

structure SampleRecord where
  timestampNs : UInt64
  processId : Pid
  threadId : Tid
  stackId : UInt32
  deriving DecidableEq

structure ThreadRecord where
  processId : Pid
  threadId : Tid
  deriving DecidableEq

structure PythonRuntimeRecord where
  timestampNs : UInt64
  processId : Pid
  isPythonRuntime : Bool
  deriving DecidableEq

/-- A span of time: whole seconds and less than a second of nanoseconds. -/
structure Duration where
  secs : UInt64
  subsecNanos : UInt32
  subsec_lt : subsecNanos.toNat < 1000000000
  deriving DecidableEq

def Duration.asNanos (d : Duration) : ℕ := d.secs.toNat * 1000000000 + d.subsecNanos.toNat

/-- Wall time as nanoseconds since the epoch, with signed 64-bit seconds. -/
structure SystemTime where
  sinceEpoch : ℤ
  lower : -2 ^ 63 * 1000000000 ≤ sinceEpoch
  upper : sinceEpoch < 2 ^ 63 * 1000000000
  deriving DecidableEq

namespace SystemTime

def ofSinceEpoch (n : ℤ) : Option SystemTime :=
  if h : -2 ^ 63 * 1000000000 ≤ n ∧ n < 2 ^ 63 * 1000000000 then some ⟨n, h.1, h.2⟩ else none

/-- `UNIX_EPOCH.checked_add`. -/
def epochCheckedAdd (d : Duration) : Option SystemTime := ofSinceEpoch d.asNanos

/-- `UNIX_EPOCH.checked_sub`. -/
def epochCheckedSub (d : Duration) : Option SystemTime := ofSinceEpoch (-d.asNanos)

/-- The distance to the epoch in either direction. -/
def distance (t : SystemTime) : Duration where
  secs := UInt64.ofNat (t.sinceEpoch.natAbs / 1000000000)
  subsecNanos := UInt32.ofNat (t.sinceEpoch.natAbs % 1000000000)
  subsec_lt := by
    rw [UInt32.toNat_ofNat']
    omega

/-- `duration_since(UNIX_EPOCH)`: the error carries the distance the other way. -/
def durationSinceEpoch (t : SystemTime) : Except Duration Duration :=
  if 0 ≤ t.sinceEpoch then .ok t.distance else .error t.distance

theorem asNanos_distance (t : SystemTime) : t.distance.asNanos = t.sinceEpoch.natAbs := by
  have hlower := t.lower
  have hupper := t.upper
  simp only [Duration.asNanos, distance, UInt64.toNat_ofNat', UInt32.toNat_ofNat']
  omega

end SystemTime

structure ClockOrigin where
  monotonicNs : UInt64
  wallTime : SystemTime
  deriving DecidableEq

end StackPulse.Model
