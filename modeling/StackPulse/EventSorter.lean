import Mathlib.Order.Nat
import StackPulse.OrderedMap

/-!
The sorter that merges the perf rings, and the drain that feeds it. Each ring is a
group, read once in every round in ascending order; a queued event is released once
every ring has been read after it. The rings themselves are known by what they
publish: a reading returns records dated from where the last complete reading of
its ring stopped, and a ring opened later holds only later records.
-/
namespace StackPulse.Sorter

open OrderedMap

structure EventHeapItem (G K V : Type) where
  group : G
  round : ℕ
  key : K
  sequence : ℕ
  value : V
  deriving DecidableEq

/-- The assertions of the sorter. -/
inductive Assertion where
  -- "Group keys must be monotonically increasing"
  | groupsIncrease
  -- "begin_group must be called before insertion"
  | groupBegun
  deriving DecidableEq

/-- The heap is kept as the list of its items in the order they would be popped. -/
structure EventSorter (G K V : Type) where
  heap : List (EventHeapItem G K V)
  currentGroup : Option G
  round : ℕ
  nextSequence : ℕ
  deriving DecidableEq

variable {G K V : Type} [LinearOrder G] [LinearOrder K]

/-- Earlier keys come first, and equal keys in the order they were queued. -/
def EventHeapItem.Before (a b : EventHeapItem G K V) : Prop :=
  a.key < b.key ∨ a.key = b.key ∧ a.sequence < b.sequence

instance (a b : EventHeapItem G K V) : Decidable (a.Before b) :=
  inferInstanceAs (Decidable (_ ∨ _))

/-- Place an item before the first one it precedes. -/
def insertItem (item : EventHeapItem G K V) :
    List (EventHeapItem G K V) → List (EventHeapItem G K V)
  | [] => [item]
  | other :: rest =>
    if item.Before other then item :: other :: rest else other :: insertItem item rest

namespace EventSorter

def new : EventSorter G K V := ⟨[], none, 0, 0⟩

def hasMore (s : EventSorter G K V) : Bool := !s.heap.isEmpty

def advanceRound (s : EventSorter G K V) : EventSorter G K V :=
  { s with round := s.round + 1, currentGroup := none }

def abortRound (s : EventSorter G K V) : EventSorter G K V := { s with currentGroup := none }

def beginGroup (s : EventSorter G K V) (group : G) : Except Assertion (EventSorter G K V) :=
  if s.currentGroup.all (fun current => decide (current ≤ group)) then
    .ok { s with currentGroup := some group }
  else .error .groupsIncrease

/-- Whether the pair of the round after the event's and its group is greater than the
current round and group, a missing group being below every group. -/
def holdsBack (s : EventSorter G K V) (event : EventHeapItem G K V) : Bool :=
  decide (s.round < event.round + 1) ||
    (decide (event.round + 1 = s.round) &&
      s.currentGroup.all fun current => decide (current < event.group))

def pop (s : EventSorter G K V) : Option (EventHeapItem G K V × EventSorter G K V) :=
  match s.heap with
  | [] => none
  | event :: rest => if s.holdsBack event then none else some (event, { s with heap := rest })

def forcePop (s : EventSorter G K V) : Option (EventHeapItem G K V × EventSorter G K V) :=
  match s.heap with
  | [] => none
  | event :: rest => some (event, { s with heap := rest })

def visitValuesMut (s : EventSorter G K V) (visitor : V → V) : EventSorter G K V :=
  { s with heap := s.heap.map fun item => { item with value := visitor item.value } }

/-- The item a value is queued as. -/
def itemFor (s : EventSorter G K V) (group : G) (key : K) (value : V) : EventHeapItem G K V :=
  ⟨group, s.round, key, s.nextSequence, value⟩

def pushCurrentGroup (s : EventSorter G K V) (key : K) (value : V) :
    Except Assertion (EventHeapItem G K V × EventSorter G K V) :=
  match s.currentGroup with
  | none => .error .groupBegun
  | some group =>
    let item := s.itemFor group key value
    .ok (item, { s with heap := insertItem item s.heap, nextSequence := s.nextSequence + 1 })

end EventSorter

/-- An event waits with its sample still in the ring's storage, or on its own. -/
structure PreparedEvent (E : Type) where
  event : E
  detached : Bool
  deriving DecidableEq

def PreparedEvent.detachRingStorage {E : Type} (p : PreparedEvent E) : PreparedEvent E :=
  { p with detached := true }

abbrev Item (G E : Type) := EventHeapItem G ℕ (PreparedEvent E)

/-- The item as it was queued. -/
def EventHeapItem.asQueued {G E : Type} (item : Item G E) : Item G E :=
  { item with value := { item.value with detached := false } }

/-- The sink of a drain over a context `C`. Beside the source's fields it keeps
the events handed to `finishEvent` since the last forced flush, the segments ended by
earlier forced flushes, and all that was ever queued. -/
structure DrainSink (G E C : Type) where
  ctx : C
  sorter : EventSorter G ℕ (PreparedEvent E)
  failed : Bool
  handed : List (Item G E)
  segments : List (List (Item G E))
  queued : List (Item G E)

variable {E C : Type}

/-- What finishing an event does to the context, and whether it succeeds. The flag
says that the event was popped by force. -/
abbrev Finish (G E C : Type) := Bool → C → Item G E → C × Bool

namespace DrainSink

variable (finish : Finish G E C)

def finishEvent (force : Bool) (sink : DrainSink G E C) (item : Item G E) : DrainSink G E C :=
  let sink := { sink with handed := sink.handed ++ [item] }
  if sink.failed then sink
  else
    let finished := finish force sink.ctx item
    { sink with ctx := finished.1, failed := !finished.2 }

def popWith (force : Bool) (sorter : EventSorter G ℕ (PreparedEvent E)) :
    Option (Item G E × EventSorter G ℕ (PreparedEvent E)) :=
  if force then sorter.forcePop else sorter.pop

def drainLoop (force : Bool) : ℕ → DrainSink G E C → DrainSink G E C
  | 0, sink => sink
  | rounds + 1, sink =>
    match popWith force sink.sorter with
    | none => sink
    | some (item, sorter) =>
      let sink := finishEvent finish force { sink with sorter := sorter } item
      if sink.failed then sink else drainLoop force rounds sink

/-- Every round of the loop takes an item off the heap. A forced flush ends a segment. -/
def drainSorter (force : Bool) (sink : DrainSink G E C) : DrainSink G E C :=
  let sink := drainLoop finish force sink.sorter.heap.length sink
  if force then { sink with segments := sink.segments ++ [sink.handed], handed := [] } else sink

def drainReadyEvents (sink : DrainSink G E C) : DrainSink G E C := drainSorter finish false sink

def flushReadyEvents (sink : DrainSink G E C) : DrainSink G E C := drainSorter finish true sink

def hasQueuedEvents (sink : DrainSink G E C) : Bool := sink.sorter.hasMore

def detachQueuedEvents (sink : DrainSink G E C) : DrainSink G E C :=
  { sink with sorter := sink.sorter.visitValuesMut PreparedEvent.detachRingStorage }

/-- A record is not prepared once the drain has failed, or when it is of no interest. -/
def prepareEvent (sink : DrainSink G E C) (event : Option E) : Option (PreparedEvent E) :=
  if sink.failed then none else event.map fun event => ⟨event, false⟩

def queueEvent (sink : DrainSink G E C) (timestamp : ℕ) (prepared : Option (PreparedEvent E)) :
    Except Assertion (DrainSink G E C) :=
  match prepared with
  | none => .ok sink
  | some prepared => do
    let (item, sorter) ← sink.sorter.pushCurrentGroup timestamp prepared
    return { sink with sorter := sorter, queued := sink.queued ++ [item] }

end DrainSink

structure RingRecord (E : Type) where
  timestamp : Option ℕ
  event : Option E
  deriving DecidableEq

def RingRecord.key (r : RingRecord E) : ℕ := r.timestamp.getD 0

/-- One reading of a ring: it sees the records dated before `stop`. A reading that meets
a record it cannot decode returns the records before that one and is not complete. -/
structure Reading (E : Type) where
  stop : ℕ
  records : List (RingRecord E)
  complete : Bool
  deriving DecidableEq

/-- For each open ring the date from which its unread records are dated, and the date
before which everything so far has happened. -/
structure PerfGroup (G : Type) [LinearOrder G] where
  outputs : BTreeMap G ℕ
  now : ℕ

/-- Publication: a reading happens now or later, and returns records that the last
complete reading of the ring could not see. -/
def PerfGroup.publishes (perf : PerfGroup G) (fd : G) (reading : Reading E) : Bool :=
  match perf.outputs.get fd with
  | none => false
  | some lower =>
    decide (perf.now ≤ reading.stop) &&
      reading.records.all fun r => decide (lower ≤ r.key) && decide (r.key < reading.stop)

/-- A complete reading leaves only later records in the ring. -/
def PerfGroup.afterReading (perf : PerfGroup G) (fd : G) (reading : Reading E) : PerfGroup G :=
  if reading.complete then ⟨perf.outputs.insert fd reading.stop, reading.stop⟩
  else { perf with now := reading.stop }

structure Recording (G E C : Type) [LinearOrder G] where
  perf : PerfGroup G
  sink : DrainSink G E C

inductive Halt where
  | assertion (a : Assertion)
  -- the readings supplied are not ones the rings could return
  | unpublished
  deriving DecidableEq

def orAssertion {α : Type} (r : Except Assertion α) : Except Halt α := r.mapError .assertion

/-- Queue the records of a reading. -/
def drainOutputRing (sink : DrainSink G E C) (records : List (RingRecord E)) :
    Except Assertion (DrainSink G E C) :=
  records.foldlM (fun sink r => sink.queueEvent r.key (sink.prepareEvent r.event)) sink

/-- One round over the rings `fds`, with a reading for each. The flag tells that no
reading failed. -/
def drainEventRound (finish : Finish G E C) :
    List G → List (Reading E) → Recording G E C → Except Halt (Recording G E C × Bool)
  | [], _, w =>
    let sink := { w.sink with sorter := w.sink.sorter.advanceRound }
    .ok ({ w with sink := sink.drainReadyEvents finish }, true)
  | _ :: _, [], _ => .error .unpublished
  | fd :: fds, reading :: readings, w => do
    let sorter ← orAssertion (w.sink.sorter.beginGroup fd)
    let sink := DrainSink.drainReadyEvents finish { w.sink with sorter := sorter }
    if w.perf.publishes fd reading then
      let sink ← orAssertion (drainOutputRing sink reading.records)
      let perf := w.perf.afterReading fd reading
      if reading.complete then
        drainEventRound finish fds readings ⟨perf, sink.drainReadyEvents finish⟩
      else
        let sink := sink.detachQueuedEvents
        return (⟨perf, { sink with sorter := sink.sorter.abortRound }⟩, false)
    else .error .unpublished

def Recording.fds (w : Recording G E C) : List G := w.perf.outputs.entries.map Prod.fst

/-- The second round is read only when events are still queued. -/
def secondRound (finish : Finish G E C) (readings : List (Reading E)) (w : Recording G E C) :
    Except Halt (Recording G E C × Bool) :=
  if w.sink.hasQueuedEvents then drainEventRound finish w.fds readings w else .ok (w, true)

def detachIfQueued (w : Recording G E C) : Recording G E C :=
  if w.sink.hasQueuedEvents then { w with sink := w.sink.detachQueuedEvents } else w

def consumeEvents (finish : Finish G E C) (first second : List (Reading E))
    (w : Recording G E C) : Except Halt (Recording G E C × Bool) := do
  let (w, ok) ← drainEventRound finish w.fds first w
  if ok then
    let (w, ok) ← secondRound finish second w
    if ok then return (detachIfQueued w, true) else return (w, false)
  else return (w, false)

def flushEvents (finish : Finish G E C) (first second : List (Reading E))
    (w : Recording G E C) : Except Halt (Recording G E C × Bool) := do
  let (w, ok) ← consumeEvents finish first second w
  if ok then return ({ w with sink := w.sink.flushReadyEvents finish }, true)
  else return (w, false)

/-- What happens to a recording: rings open and close, time passes, rings are drained by
a lone round, a consuming or a flushing drain, and a sweep flushes by force. -/
inductive Op (G E : Type) where
  | openRing (fd : G)
  | closeRing (fd : G)
  | wait (now : ℕ)
  | round (readings : List (Reading E))
  | consume (first second : List (Reading E))
  | flush (first second : List (Reading E))
  | force
  deriving DecidableEq

/-- A drain starts with a sink that has not failed. -/
def Recording.fresh (w : Recording G E C) : Recording G E C :=
  { w with sink := { w.sink with failed := false } }

def PerfGroup.openRing (perf : PerfGroup G) (fd : G) : PerfGroup G :=
  { perf with outputs := perf.outputs.insert fd perf.now }

def PerfGroup.closeRing (perf : PerfGroup G) (fd : G) : PerfGroup G :=
  { perf with outputs := perf.outputs.remove fd }

def PerfGroup.wait (perf : PerfGroup G) (now : ℕ) : PerfGroup G :=
  { perf with now := max perf.now now }

def step (finish : Finish G E C) (w : Recording G E C) : Op G E → Except Halt (Recording G E C)
  | .openRing fd => .ok { w with perf := w.perf.openRing fd }
  | .closeRing fd => .ok { w with perf := w.perf.closeRing fd }
  | .wait now => .ok { w with perf := w.perf.wait now }
  | .round readings => (drainEventRound finish w.fds readings w.fresh).map Prod.fst
  | .consume first second => (consumeEvents finish first second w.fresh).map Prod.fst
  | .flush first second => (flushEvents finish first second w.fresh).map Prod.fst
  | .force => .ok { w.fresh with sink := w.fresh.sink.flushReadyEvents finish }

def run (finish : Finish G E C) (w : Recording G E C) (ops : List (Op G E)) :
    Except Halt (Recording G E C) :=
  ops.foldlM (step finish) w

/-- A recording that has not begun: no ring, nothing queued. -/
def Recording.start (ctx : C) : Recording G E C :=
  ⟨⟨.empty, 0⟩, ⟨ctx, .new, false, [], [], []⟩⟩

end StackPulse.Sorter
