import Mathlib.Data.List.AList
import StackPulse.EventSorter

/-!
The recorder's process table across drains. A process found gone is kept for one more
drain, which finishes the events it left in the rings and in the sorter, and is then
retired. Attaching to a pid whose process is gone flushes twice and retires it, and so
does a fork record that reuses the pid.

Processes are known by the handles opened on them, of type `I`. Each event belongs to
at most one process and is dated no later than that process's death.
-/
namespace StackPulse.Retirement

open Sorter

abbrev Pid := ℕ

/-- The process is `none` while it is not tracked. -/
structure ProcessState (I : Type) where
  process : Option I
  pendingRetirement : Bool
  deriving DecidableEq

abbrev ProcessTable (I : Type) := AList fun _ : Pid => ProcessState I

variable {G I : Type} [LinearOrder G]

namespace ProcessTable

/-- The state of a pid, made on first use. -/
def stateOf (table : ProcessTable I) (pid : Pid) : ProcessState I :=
  (table.lookup pid).getD ⟨none, false⟩

def track (table : ProcessTable I) (pid : Pid) (process : I) : ProcessTable I :=
  table.insert pid { stateOf table pid with process := some process }

/-- The handle is opened only when there is none. -/
def ensureTracked (table : ProcessTable I) (pid : Pid) (opened : I) : ProcessTable I :=
  let state := stateOf table pid
  table.insert pid { state with process := state.process.or (some opened) }

def isTracked (table : ProcessTable I) (pid : Pid) : Bool :=
  match table.lookup pid with
  | some state => state.process.isSome
  | none => false

/-- Keep a gone process for one more drain. Returns false when it already waited. -/
def deferRetirement (table : ProcessTable I) (pid : Pid) : ProcessTable I × Bool :=
  match table.lookup pid with
  | none => (table, false)
  | some state =>
    if state.pendingRetirement then (table, false)
    else (table.insert pid { state with pendingRetirement := true }, true)

/-- Whether the process tracked at a pid is gone, `exited` being what its handle answers. -/
def trackedProcessIsStale (table : ProcessTable I) (pid : Pid) (exited : Bool) : Option Bool :=
  match table.lookup pid with
  | none => none
  | some state =>
    if state.pendingRetirement then some true
    else
      match state.process with
      | none => none
      | some _ => some exited

/-- The pids that wait for retirement and the tracked ones whose handles answer that
the process has exited. -/
def deadOrReusedPids (table : ProcessTable I) (exited : List Pid) : List Pid :=
  table.keys.filter fun pid =>
    match table.lookup pid with
    | none => false
    | some state => state.pendingRetirement || (state.process.isSome && decide (pid ∈ exited))

/-- Defer each of the pids; those that already waited are left to be retired now. -/
def deferAll (table : ProcessTable I) : List Pid → ProcessTable I × List Pid
  | [] => (table, [])
  | pid :: pids =>
    let (table, deferred) := deferRetirement table pid
    let (table, now) := deferAll table pids
    (table, if deferred then now else pid :: now)

end ProcessTable

open ProcessTable

/-- What finishing an event does to the process table. A fork record that starts a
process opens a handle on its pid, after asking the old handle whether it has exited. -/
inductive Action (I : Type) where
  | fork (child : Pid) (opened : I) (exited : Bool)
  | update (pid : Pid)
  | other
  deriving DecidableEq

structure ProcessEvent (I : Type) where
  owner : Option I
  action : Action I
  deriving DecidableEq

/-- Why a state was removed: a drain after the one that deferred it, an attach that found
the given process stale, or a fork record with the given timestamp. -/
inductive Cause (I : Type) where
  | deferred
  | attach (stale : Option I)
  | reusedPid (timestamp : ℕ) (forced : Bool)
  deriving DecidableEq

inductive Entry (G I : Type) where
  | finished (item : Item G (ProcessEvent I))
  | retired (process : I) (cause : Cause I)
  deriving DecidableEq

/-- The process table, and what was finished and retired so far. -/
structure Context (G I : Type) where
  table : ProcessTable I
  log : List (Entry G I)

/-- Remove the state of a pid, which retires the process it tracks. -/
def cleanupProcess (cause : Cause I) (ctx : Context G I) (pid : Pid) : Context G I :=
  { table := ctx.table.erase pid
    log := ctx.log ++ ((stateOf ctx.table pid).process.map fun i => Entry.retired i cause).toList }

/-- The branch of the fork record. -/
def finishFork (timestamp : ℕ) (forced : Bool) (ctx : Context G I) (child : Pid) (opened : I)
    (exited : Bool) : Context G I :=
  let reusedPid := (trackedProcessIsStale ctx.table child exited).getD false
  let ctx := if reusedPid then cleanupProcess (.reusedPid timestamp forced) ctx child else ctx
  { ctx with table := ensureTracked ctx.table child opened }

def finishPreparedEvent : Finish G (ProcessEvent I) (Context G I) := fun forced ctx item =>
  let ctx := { ctx with log := ctx.log ++ [.finished item] }
  match item.value.event.action with
  | .other => (ctx, true)
  | .update pid => ({ ctx with table := ctx.table.insert pid (stateOf ctx.table pid) }, true)
  | .fork child opened exited => (finishFork item.key forced ctx child opened exited, true)

abbrev World (G I : Type) [LinearOrder G] := Recording G (ProcessEvent I) (Context G I)

inductive Stop where
  | ring (h : Halt)
  -- a drain that returns an error
  | failed
  -- a handle never answers that a living process has exited
  | alive
  deriving DecidableEq

/-- A record is dated no later than the death of the process it belongs to. -/
def wellDated (death : I → ℕ) (r : RingRecord (ProcessEvent I)) : Bool :=
  match r.event with
  | none => true
  | some event =>
    match event.owner with
    | none => true
    | some i => decide (r.key ≤ death i)

inductive DrainMode where
  | consume
  | flush
  deriving DecidableEq

/-- What a drain meets: the readings of its two rounds, whether it flushes for a sweep,
the rings opened when it replays the lifecycle, which handles answer at `seenAt` that
their process has exited, which maps a sweep finds gone at `goneAt`, and the children
it registers. -/
structure Drain (G I : Type) where
  mode : DrainMode
  first : List (Reading (ProcessEvent I))
  second : List (Reading (ProcessEvent I))
  sweep : Bool
  opened : List G
  seenAt : ℕ
  exited : List Pid
  goneAt : ℕ
  gone : List Pid
  recovered : List (Pid × I)

def flushForSweep (sweep : Bool) (w : World G I) : World G I :=
  if sweep then { w with sink := w.sink.flushReadyEvents finishPreparedEvent } else w

def drainPerf (d : Drain G I) (w : World G I) : Except Halt (World G I × Bool) :=
  match d.mode with
  | .consume => consumeEvents finishPreparedEvent d.first d.second w
  | .flush => flushEvents finishPreparedEvent d.first d.second w

/-- Read the rings and finish what the sorter releases. -/
def drainRings (death : I → ℕ) (d : Drain G I) (w : World G I) : Except Stop (World G I) :=
  if (d.first ++ d.second).all fun reading => reading.records.all (wellDated death) then do
    let (w, ok) ← (drainPerf d w.fresh).mapError Stop.ring
    if ok && !w.sink.failed then return flushForSweep d.sweep w else .error .failed
  else .error (.ring .unpublished)

def openRings (w : World G I) (fds : List G) : World G I :=
  { w with perf := fds.foldl PerfGroup.openRing w.perf }

def waitUntil (w : World G I) (now : ℕ) : World G I := { w with perf := w.perf.wait now }

def withContext (w : World G I) (ctx : Context G I) : World G I :=
  { w with sink := { w.sink with ctx := ctx } }

/-- Whether the process tracked at a pid is dead by now. -/
def isDead (death : I → ℕ) (w : World G I) (pid : Pid) : Bool :=
  match (stateOf w.sink.ctx.table pid).process with
  | none => true
  | some i => decide (death i < w.perf.now)

/-- Defer the processes seen gone, and retire those deferred by an earlier drain. -/
def retireDead (exited : List Pid) (ctx : Context G I) : Context G I :=
  let (table, dead) := deferAll ctx.table (deadOrReusedPids ctx.table exited)
  dead.foldl (cleanupProcess .deferred) { ctx with table := table }

/-- A sweep defers the processes whose maps are gone and registers children not yet
tracked. -/
def reconcile (gone : List Pid) (recovered : List (Pid × I)) (table : ProcessTable I) :
    ProcessTable I :=
  let table := gone.foldl (fun table pid => (deferRetirement table pid).1) table
  recovered.foldl
    (fun table child =>
      if isTracked table child.1 then table else track table child.1 child.2) table

def bookkeep (death : I → ℕ) (d : Drain G I) (w : World G I) : Except Stop (World G I) :=
  let w := waitUntil (openRings w d.opened) d.seenAt
  if d.exited.all (isDead death w) then
    let w := waitUntil (withContext w (retireDead d.exited w.sink.ctx)) d.goneAt
    if d.gone.all (fun pid => isTracked w.sink.ctx.table pid && isDead death w pid) then
      let ctx := w.sink.ctx
      .ok (withContext w { ctx with table := reconcile d.gone d.recovered ctx.table })
    else .error .alive
  else .error .alive

def drainEventsInner (death : I → ℕ) (d : Drain G I) (w : World G I) : Except Stop (World G I) :=
  drainRings death d w >>= bookkeep death d

/-- What an attach meets: its two drains, the answer of the handle at `seenAt`, the rings
it opens and the process it then tracks, if it is still there. -/
structure Attach (G I : Type) where
  pid : Pid
  before : Drain G I
  seenAt : ℕ
  exited : Bool
  after : Drain G I
  opened : List G
  process : Option I

def openProcess (a : Attach G I) (w : World G I) : World G I :=
  let ctx := w.sink.ctx
  withContext (openRings w a.opened)
    { ctx with table :=
        match a.process with
        | none => ctx.table
        | some i => track ctx.table a.pid i }

def Drain.flushing (d : Drain G I) : Drain G I := { d with mode := .flush }

/-- Finish the events a known process left before its state can be replaced. -/
def drainKnown (death : I → ℕ) (a : Attach G I) (w : World G I) : Except Stop (World G I) :=
  if (w.sink.ctx.table.lookup a.pid).isSome then drainEventsInner death a.before.flushing w
  else .ok w

/-- Read once more what the stale process wrote, then remove the state of its pid. -/
def replaceStale (death : I → ℕ) (a : Attach G I) (w : World G I) : Except Stop (World G I) :=
  if isDead death w a.pid then do
    let stale := (stateOf w.sink.ctx.table a.pid).process
    let w ← drainEventsInner death a.after.flushing w
    return openProcess a (withContext w (cleanupProcess (.attach stale) w.sink.ctx a.pid))
  else .error .alive

def attachKnown (death : I → ℕ) (a : Attach G I) (w : World G I) : Except Stop (World G I) :=
  match trackedProcessIsStale w.sink.ctx.table a.pid a.exited with
  | none => .ok (openProcess a w)
  | some false => .ok w
  | some true => replaceStale death a w

def attachProcess (death : I → ℕ) (a : Attach G I) (w : World G I) : Except Stop (World G I) := do
  let w ← drainKnown death a w
  attachKnown death a (waitUntil w a.seenAt)

inductive Op (G I : Type) where
  | drain (d : Drain G I)
  | attach (a : Attach G I)
  | refreshThreads (opened : List G)

def step (death : I → ℕ) (w : World G I) : Op G I → Except Stop (World G I)
  | .drain d => drainEventsInner death d w
  | .attach a => attachProcess death a w
  | .refreshThreads opened => .ok (openRings w opened)

def run (death : I → ℕ) (w : World G I) (ops : List (Op G I)) : Except Stop (World G I) :=
  ops.foldlM (step death) w

def start : World G I := Recording.start ⟨∅, []⟩

end StackPulse.Retirement
