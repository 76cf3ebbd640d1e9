import StackPulse.TailReader

/-!
The live spool: a recorder that appends records and publishes how far they may be
read, and a reader that follows the published end, gives consumed pages back to the
file system and ends with the recording. The two share the published end and status
under a lock; between the locked sections of a poll the recorder can do anything.

The bytes of the recording are fixed ahead, as the complete records `w` the recorder
is going to append.
-/
namespace StackPulse.LiveSpool

open Bytes Varint Model Decode Records Scanning OpenSpool TailReader

/-- The status of the recording, with its summary or its failure. -/
inductive End (S E : Type) where
  | unfinished
  | finished (summary : S)
  | aborted (error : Option E)
  deriving DecidableEq

structure Published (S E : Type) where
  stop : ℕ
  status : End S E
  deriving DecidableEq

variable {S E : Type}

namespace Published

def publish (p : Published S E) (stop : ℕ) : Published S E :=
  match p.status with
  | .unfinished => if p.stop ≠ stop then { p with stop := stop } else p
  | _ => p

def finish (p : Published S E) (stop : ℕ) (summary : S) : Published S E :=
  match p.status with
  | .unfinished => ⟨stop, .finished summary⟩
  | _ => p

def abort (p : Published S E) (error : Option E) : Published S E :=
  match p.status with
  | .unfinished => { p with status := .aborted error }
  | _ => p

end Published

/-- The first bytes of a mapping read as zero once their pages are given back. -/
def punch (m : Mmap) (n : ℕ) : Mmap where
  bytes := List.replicate (min n m.len) 0 ++ m.bytes.drop n
  length_lt := by
    have hlen := m.length_lt
    rw [List.length_append, List.length_replicate, List.length_drop]
    unfold Mmap.len
    omega

inductive Reclamation where
  | enabled
  | retained
  | unsupported
  deriving DecidableEq

/-- How the file system answers. -/
inductive Fallocate where
  | done
  | unsupported
  | failed
  deriving DecidableEq

inductive DiscardError where
  | unsupported
  | other
  deriving DecidableEq

/-- The discarder is the position up to which pages were given back; there is none
for a spool that is retained. -/
structure LiveReader where
  tail : Tail
  discarder : Option ℕ
  reclaimPrevious : Bool
  reclamation : Reclamation

def reclaimedBytes (reader : LiveReader) : ℕ := reader.discarder.getD 0

def withMmap (tail : Tail) (mmap : Mmap) : Tail := { tail with mmap := mmap }

def discardEnd (pageSize : ℕ) (tail : Tail) : ℕ := tail.position - tail.position % pageSize

def discardConsumed (pageSize : ℕ) (answer : Fallocate) (reader : LiveReader) :
    Except DiscardError LiveReader :=
  match reader.discarder with
  | none => .error .other
  | some position =>
    let stop := discardEnd pageSize reader.tail
    if stop ≤ position then .ok reader
    else if 2 ^ 63 ≤ position ∨ 2 ^ 63 ≤ stop - position then .error .other
    else
      match answer with
      | .done =>
        .ok { reader with
              discarder := some stop
              tail := withMmap reader.tail (punch reader.tail.mmap stop) }
      | .unsupported => .error .unsupported
      | .failed => .error .other

/-- Where the reader stands in a poll: outside, before the lock, or with the published
end it took from under the lock. -/
inductive Phase where
  | idle
  | waiting
  | reading
  deriving DecidableEq

/-- What a poll returns. -/
inductive ReadStatus (S E : Type) where
  | batch (samples : List SampleRecord)
  | pending
  | finished (summary : S)
  | aborted (error : Option E)
  | reclaimFailed
  | readFailed (error : Stop)

/-- What a poll with nothing to read returns. -/
def End.result : End S E → ReadStatus S E
  | .unfinished => .pending
  | .finished summary => .finished summary
  | .aborted error => .aborted error

/-- The complete records of a recording, in the order they are appended. File offsets
are signed. -/
structure Written (V : IntegerEncoding) where
  mmap : Mmap
  header : SpoolHeader
  start : Cursor
  entries : List SpoolEntry
  after : ReaderState
  stop : Cursor
  reading : Reading V mmap header start entries after stop .complete
  small : mmap.len < 2 ^ 63

/-- The places between records. -/
def Written.boundaries {V : IntegerEncoding} (w : Written V) : List ℕ :=
  w.start.position :: w.entries.map Entry.stop

structure Recording (S E : Type) where
  appended : ℕ
  flushed : ℕ
  published : Published S E
  reader : LiveReader
  phase : Phase
  results : List (ReadStatus S E)

variable {V : IntegerEncoding}

/-- The file as it is now. -/
def Recording.file (w : Written V) (r : Recording S E) : Mmap :=
  punch (w.mmap.take r.flushed) (reclaimedBytes r.reader)

def Recording.returns (r : Recording S E) (status : ReadStatus S E) : Recording S E :=
  { r with phase := .idle, results := r.results ++ [status] }

/-- The start of a poll: the pages of the preceding batch are given back. -/
def pollReclaim (pageSize : ℕ) (answer : Fallocate) (r : Recording S E) : Recording S E :=
  let reader := r.reader
  if reader.reclaimPrevious = true ∧ reader.reclamation = .enabled then
    match discardConsumed pageSize answer reader with
    | .ok reader => { r with reader := { reader with reclaimPrevious := false }, phase := .waiting }
    | .error .unsupported =>
      { r with
        reader := { reader with reclamation := .unsupported, reclaimPrevious := false }
        phase := .waiting }
    | .error .other => r.returns .reclaimFailed
  else { r with reader := { reader with reclaimPrevious := false }, phase := .waiting }

/-- The locked section: the reader wakes with something to read, with the recording over,
or because its time is up. -/
def pollWake (r : Recording S E) : Recording S E :=
  let tail := r.reader.tail
  if tail.initialSamplesPending = true ∨ tail.position < r.published.stop then
    { r with
      reader := { r.reader with tail := { tail with visibleLen := some r.published.stop } }
      phase := .reading }
  else r.returns r.published.status.result

/-- The rest of the poll reads the file up to the end it took. -/
def pollRead (w : Written V) (r : Recording S E) : Recording S E :=
  match TailReader.poll V (r.file w) r.reader.tail with
  | (.ok batch, tail) =>
    Recording.returns { r with reader := { r.reader with tail := tail, reclaimPrevious := true } }
      (.batch batch.samples)
  | (.error e, tail) =>
    Recording.returns { r with reader := { r.reader with tail := tail } } (.readFailed e)

inductive Step (S E : Type) where
  | append (appended : ℕ)
  | flush (flushed : ℕ)
  | publish (stop : ℕ)
  | finish (stop : ℕ) (summary : S)
  | abort (error : Option E)
  | reclaim (answer : Fallocate)
  | wake
  | read
  deriving DecidableEq

/-- The recorder publishes ends between records that it has flushed, and never goes back. -/
def Recording.mayPublish (w : Written V) (r : Recording S E) (stop : ℕ) : Bool :=
  decide (stop ∈ w.boundaries) && decide (r.published.stop ≤ stop) && decide (stop ≤ r.flushed)

/-- One step of either party. A step that its party cannot take is `none`. -/
def step (w : Written V) (pageSize : ℕ) (r : Recording S E) : Step S E → Option (Recording S E)
  | .append appended =>
    if appended ∈ w.boundaries ∧ r.appended ≤ appended then some { r with appended := appended }
    else none
  | .flush flushed =>
    if r.flushed ≤ flushed ∧ flushed ≤ r.appended then some { r with flushed := flushed } else none
  | .publish stop =>
    if r.mayPublish w stop then some { r with published := r.published.publish stop } else none
  | .finish stop summary =>
    if r.mayPublish w stop then some { r with published := r.published.finish stop summary }
    else none
  | .abort error => some { r with published := r.published.abort error }
  | .reclaim answer => if r.phase = .idle then some (pollReclaim pageSize answer r) else none
  | .wake => if r.phase = .waiting then some (pollWake r) else none
  | .read => if r.phase = .reading then some (pollRead w r) else none

def run (w : Written V) (pageSize : ℕ) (r : Recording S E) (steps : List (Step S E)) :
    Option (Recording S E) :=
  steps.foldlM (step w pageSize) r

/-- A whole poll while the recorder does nothing. -/
def Recording.poll (w : Written V) (pageSize : ℕ) (answer : Fallocate) (r : Recording S E) :
    Recording S E :=
  let reclaimed := pollReclaim pageSize answer r
  if reclaimed.phase = .idle then reclaimed
  else
    let woken := pollWake reclaimed
    if woken.phase = .idle then woken else pollRead w woken

/-- Polls one after the other, with what the file system answers to each. -/
def Recording.polls (w : Written V) (pageSize : ℕ) (r : Recording S E)
    (answers : List Fallocate) : Recording S E :=
  answers.foldl (fun r answer => r.poll w pageSize answer) r

/-- The reader of a recorder that has published its header, or more. -/
def LiveReader.new (V : IntegerEncoding) (file : Mmap) (disposable : Bool) (stop : ℕ) :
    Except Stop LiveReader := do
  let tail ← fromFileBounded V file (some stop)
  return { tail := tail
           discarder := if disposable then some 0 else none
           reclaimPrevious := false
           reclamation := if disposable then .enabled else .retained }

/-- A recording that has just been given its reader. -/
structure Starts (w : Written V) (r : Recording S E) : Prop where
  published : r.published.stop ∈ w.boundaries
  flushed : r.published.stop ≤ r.flushed
  appended : r.flushed ≤ r.appended
  written : r.appended ∈ w.boundaries
  reader : ∃ disposable,
    LiveReader.new V (w.mmap.take r.flushed) disposable r.published.stop = .ok r.reader
  phase : r.phase = .idle
  results : r.results = []

def ReadStatus.samples : ReadStatus S E → List SampleRecord
  | .batch samples => samples
  | _ => []

/-- The samples handed out so far. -/
def delivered (r : Recording S E) : List SampleRecord := r.results.flatMap ReadStatus.samples

/-- The samples of the records that end before `stop`. -/
def Written.samplesBefore (w : Written V) (stop : ℕ) : List SampleRecord :=
  (w.entries.filter fun entry => decide (entry.stop ≤ stop)).filterMap (·.record.sample?)

/-- The recording has ended for the reader. -/
def ReadStatus.isFinal : ReadStatus S E → Bool
  | .finished _ => true
  | .aborted _ => true
  | _ => false

end StackPulse.LiveSpool
