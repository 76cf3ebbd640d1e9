import StackPulse.Model
import StackPulse.OrderedMap

/-!
The reader of a perf ring. Records are handed out as views of the mapping, or as
copies when they wrap around its end, and may be given back in any order. The
commit state turns these completions into the tail that the kernel may write up
to. Positions are those of the logical stream, with the checks that keep them in
`u64`. A world joins the reader with the kernel and with the holders of records.
-/
namespace StackPulse.PerfRing

open Model OrderedMap

def checkedAdd (a b : ℕ) : Option ℕ := if a + b < 2 ^ 64 then some (a + b) else none

/-- The position up to which everything is completed, and the runs of completed
records after it, by their start. -/
structure CommitState where
  committed : ℕ
  pending : BTreeMap ℕ ℕ
  deriving DecidableEq

namespace CommitState

def new (committed : ℕ) : CommitState := ⟨committed, .empty⟩

/-- The loop that takes up the pending runs which begin where the committed
position has arrived. Each round removes an entry, so as many rounds as there
are entries finish it. -/
def takePending : ℕ → CommitState → CommitState
  | 0, c => c
  | rounds + 1, c =>
      match c.pending.get c.committed with
      | some stop => takePending rounds ⟨stop, c.pending.remove c.committed⟩
      | none => c

/-- The start of an interval once it is joined to the run that ends there. -/
def joinPrevious (pending : BTreeMap ℕ ℕ) (start : ℕ) : ℕ :=
  match pending.lastWith (· ≤ start) with
  | some (previousStart, previousEnd) =>
      if previousEnd = start then previousStart else start
  | none => start

/-- The end of an interval once it is joined to the run that begins there, which
is taken out of the map. -/
def joinNext (pending : BTreeMap ℕ ℕ) (start stop : ℕ) : BTreeMap ℕ ℕ × ℕ :=
  match pending.firstWith (start < ·) with
  | some (nextStart, nextEnd) =>
      if stop = nextStart then (pending.remove nextStart, nextEnd) else (pending, stop)
  | none => (pending, stop)

/-- Marks a record as completed, and returns the new tail if it moves. -/
def complete (c : CommitState) (start stop : ℕ) : Option ℕ × CommitState :=
  if start = c.committed then
    let c := takePending c.pending.len { c with committed := stop }
    (some c.committed, c)
  else
    let first := joinPrevious c.pending start
    let (pending, last) := joinNext c.pending first stop
    (none, { c with pending := pending.insert first last })

end CommitState

/-- The mapped ring: its cells, the tail in its metadata page, and the commit
state. Its size was checked when it was mapped. -/
structure RingMapping where
  dataSize : ℕ
  data : ℕ → UInt8
  dataTail : ℕ
  commits : CommitState
  isPowerOfTwo : ∃ k, dataSize = 2 ^ k
  fits : dataSize < 2 ^ 63

namespace RingMapping

def complete (m : RingMapping) (start stop : ℕ) : RingMapping :=
  match m.commits.complete start stop with
  | (some committed, commits) => { m with dataTail := committed, commits := commits }
  | (none, commits) => { m with commits := commits }

/-- The cell of a stream position. -/
def offsetOf (m : RingMapping) (position : ℕ) : ℕ := position &&& (m.dataSize - 1)

def byteAt (m : RingMapping) (position : ℕ) : UInt8 := m.data (m.offsetOf position)

def slice (m : RingMapping) (offset len : ℕ) : List UInt8 :=
  (List.range len).map fun i => m.data (offset + i)

end RingMapping

/-- A record that was read: a view of the mapping, or its own copy. -/
inductive RingRecord
  | mapped (start stop offset len : ℕ)
  | owned (bytes : List UInt8)
  deriving DecidableEq, Repr

namespace RingRecord

def asBytes (m : RingMapping) : RingRecord → List UInt8
  | mapped _ _ offset len => m.slice offset len
  | owned bytes => bytes

/-- Copies at most the first bytes of a view. A copy is handed over as it is. -/
def detachBytes (m : RingMapping) (len : ℕ) : RingRecord → List UInt8 × RingRecord
  | mapped start stop offset size =>
      ((m.slice offset size).take len, mapped start stop offset size)
  | owned bytes => (bytes, owned [])

def drop (m : RingMapping) : RingRecord → RingMapping
  | mapped start stop _ _ => m.complete start stop
  | owned _ => m

end RingRecord

structure RingBuffer where
  mapping : RingMapping
  readPos : ℕ

namespace RingBuffer

/-- A reader begins at the tail that it finds in the metadata page. -/
def new (dataSize : ℕ) (data : ℕ → UInt8) (dataTail : ℕ) (isPowerOfTwo : ∃ k, dataSize = 2 ^ k)
    (fits : dataSize < 2 ^ 63) : RingBuffer :=
  ⟨⟨dataSize, data, dataTail, .new dataTail, isPowerOfTwo, fits⟩, dataTail⟩

/-- The length field of the record header at the read position. -/
def recordLen (ring : RingBuffer) (sizePosition : ℕ) : ℕ :=
  (ring.mapping.byteAt sizePosition).toNat + 256 * (ring.mapping.byteAt (sizePosition + 1)).toNat

/-- A record whose extent was checked: a view, or a copy that is completed at once
when the record wraps around the end of the ring. -/
def takeRecord (ring : RingBuffer) (stop recordLen : ℕ) : RingRecord × RingBuffer :=
  let start := ring.readPos
  let offset := ring.mapping.offsetOf start
  if offset + recordLen ≤ ring.mapping.dataSize then
    (.mapped start stop offset recordLen, { ring with readPos := stop })
  else
    let firstLen := ring.mapping.dataSize - offset
    let bytes := ring.mapping.slice offset firstLen ++ ring.mapping.slice 0 (recordLen - firstLen)
    (.owned bytes, { mapping := ring.mapping.complete start stop, readPos := stop })

def nextRecordTo (ring : RingBuffer) (head : ℕ) : Except Stop (Option RingRecord) × RingBuffer :=
  if head = ring.readPos then (.ok none, ring)
  else if head < ring.readPos then (.error (invalidData "perf ring head regressed"), ring)
  else
    let available := head - ring.readPos
    if ring.mapping.dataSize < available then
      (.error (invalidData "perf ring contains more data than its capacity"), ring)
    else if available < 8 then
      (.error (invalidData "perf ring ended with a partial record header"), ring)
    else
      match checkedAdd ring.readPos 6 with
      | none => (.error (invalidData "perf ring position overflow"), ring)
      | some sizePosition =>
          let recordLen := ring.recordLen sizePosition
          if ¬(8 ≤ recordLen ∧ recordLen ≤ ring.mapping.dataSize) then
            (.error (invalidData "perf ring record has an invalid length"), ring)
          else if available < recordLen then
            (.error (invalidData "perf ring head exposed a partial record"), ring)
          else
            match checkedAdd ring.readPos recordLen with
            | none => (.error (invalidData "perf ring position overflow"), ring)
            | some stop =>
                let (record, ring) := ring.takeRecord stop recordLen
                (.ok (some record), ring)

end RingBuffer

/-- A record that was returned and not yet dropped, with the stream position it
was read at. -/
structure Held where
  start : ℕ
  record : RingRecord
  deriving DecidableEq, Repr

/-- The ring at work: how far the kernel has written the stream, the records still
held, and the extents of all records returned so far. -/
structure World where
  ring : RingBuffer
  written : ℕ
  held : List Held
  returned : List (ℕ × ℕ)

def World.start (ring : RingBuffer) : World := ⟨ring, ring.readPos, [], []⟩

inductive Event
  | write
  | next (head : ℕ)
  | drop (index : ℕ)
  | detach (index len : ℕ)
  deriving DecidableEq, Repr

/-- The kernel stores the next byte of the stream, as long as it stays clear of
the tail. -/
def write (stream : ℕ → UInt8) (w : World) : Option World :=
  let m := w.ring.mapping
  if w.written < m.dataTail + m.dataSize then
    let data := Function.update m.data (w.written % m.dataSize) (stream w.written)
    some { w with ring := { w.ring with mapping := { m with data := data } },
                  written := w.written + 1 }
  else none

/-- A call with a head that the kernel has published. The metadata page shows it
as a `u64`. -/
def next (w : World) (head : ℕ) : Option World :=
  if w.written < head then none
  else
    match w.ring.nextRecordTo (head % 2 ^ 64) with
    | (.ok (some record), ring) =>
        some { w with
          ring := ring
          held := ⟨w.ring.readPos, record⟩ :: w.held
          returned := w.returned ++ [(w.ring.readPos, ring.readPos)] }
    | (_, ring) => some { w with ring := ring }

/-- The end of a held record, after `use` has had it. -/
def release (w : World) (index : ℕ) (use : RingRecord → RingRecord) : Option World :=
  match w.held[index]? with
  | none => none
  | some held =>
      some { w with
        ring := { w.ring with mapping := (use held.record).drop w.ring.mapping }
        held := w.held.eraseIdx index }

/-- A detached record is replaced by its copy, so the record itself is dropped. -/
def step (stream : ℕ → UInt8) (w : World) : Event → Option World
  | .write => write stream w
  | .next head => next w head
  | .drop index => release w index id
  | .detach index len =>
      release w index fun record => (record.detachBytes w.ring.mapping len).2

def run (stream : ℕ → UInt8) (w : World) (events : List Event) : Option World :=
  events.foldlM (step stream) w

end StackPulse.PerfRing
