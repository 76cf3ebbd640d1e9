import StackPulse.OrderedMap
import Mathlib.Data.List.Induction

/-!
The replay of lifecycle actions on the group of perf counters. Adjacent thread forks are opened as
one batch, which keeps its new threads apart until all of them are open. The replay leaves the group
as if every action had been handled by itself.
-/
namespace StackPulse.ForkBatches

open OrderedMap BTreeMap

structure ThreadTrack where
  ownerPid : ℕ
  eventsInherit : Bool
  deriving DecidableEq, Repr

structure ThreadFork where
  tid : ℕ
  ownerPid : ℕ
  parentTid : ℕ
  deriving DecidableEq, Repr

inductive LifecycleAction where
  | processRetire (pid : ℕ)
  | processFork (pid parentTid : ℕ)
  | threadFork (tid pid parentTid : ℕ)
  | threadExit (tid pid : ℕ)
  deriving DecidableEq, Repr

/-- What a group does to its counters, in order. -/
inductive Call where
  | opened (tid ownerPid : ℕ)
  | removedThread (tid : ℕ)
  | removedProcess (pid : ℕ)
  deriving DecidableEq, Repr

/-- The tracked threads, how often the counters of each thread were to be opened, and the calls. -/
structure PerfGroup where
  trackedThreads : BTreeMap ℕ ThreadTrack
  attempts : ℕ → ℕ
  calls : List Call

/-- What opening finds: whether the counters of a thread open at one attempt, and then whether they
inherit; the threads of a process; and the processes with a handle. -/
structure System where
  opens : ℕ → ℕ → Option Bool
  threads : ℕ → ℕ → List ℕ
  hasProcess : ℕ → Bool
  inheritChildProcesses : Bool

section

variable (system : System)

def tryOpenThreadPerfs (tid ownerPid : ℕ) (group : PerfGroup) : Option Bool × PerfGroup :=
  let result := system.opens tid (group.attempts tid)
  (result, { group with
    attempts := Function.update group.attempts tid (group.attempts tid + 1)
    calls := if result.isSome then group.calls ++ [.opened tid ownerPid] else group.calls })

/-- One fork of a batch, with the new threads so far. -/
def forkStep (state : PerfGroup × BTreeMap ℕ ThreadTrack) (fork : ThreadFork) :
    PerfGroup × BTreeMap ℕ ThreadTrack :=
  let (group, tracked) := state
  if (group.trackedThreads.get fork.tid).isSome ∨ (tracked.get fork.tid).isSome then state
  else if ((group.trackedThreads.get fork.parentTid).or (tracked.get fork.parentTid)).any
      ThreadTrack.eventsInherit then
    (group, tracked.insert fork.tid ⟨fork.ownerPid, true⟩)
  else
    match tryOpenThreadPerfs system fork.tid fork.ownerPid group with
    | (some inherits, group) => (group, tracked.insert fork.tid ⟨fork.ownerPid, inherits⟩)
    | (none, group) => (group, tracked)

/-- The group once the new threads are registered. -/
def registered (state : PerfGroup × BTreeMap ℕ ThreadTrack) : PerfGroup :=
  { state.1 with trackedThreads := state.1.trackedThreads.extend state.2 }

def openForkedThreads (forks : List ThreadFork) (group : PerfGroup) : PerfGroup :=
  registered (forks.foldl (forkStep system) (group, .empty))

/-- The threads of a process, each with what its counters inherit, and the group after opening. -/
def openThreads (pid : ℕ) (tids : List ℕ) (group : PerfGroup) :
    List (ℕ × ThreadTrack) × PerfGroup :=
  tids.foldl (fun (tracks, group) tid =>
    let (result, group) := tryOpenThreadPerfs system tid pid group
    (tracks ++ [(tid, ⟨pid, result.getD false⟩)], group)) ([], group)

def track (tracked : BTreeMap ℕ ThreadTrack) (new : ℕ × ThreadTrack) :
    BTreeMap ℕ ThreadTrack :=
  tracked.insert new.1 { new.2 with
    eventsInherit := new.2.eventsInherit || (tracked.get new.1).any ThreadTrack.eventsInherit }

def openForkedProcess (pid parentTid : ℕ) (group : PerfGroup) : PerfGroup :=
  if !system.inheritChildProcesses then group
  else
    let parentEventsInherit := (group.trackedThreads.get parentTid).any ThreadTrack.eventsInherit
    let known := group.trackedThreads.get pid
    if parentEventsInherit ∨ known.isSome then
      let track := ⟨pid, parentEventsInherit || known.any ThreadTrack.eventsInherit⟩
      { group with trackedThreads := group.trackedThreads.insert pid track }
    else
      match tryOpenThreadPerfs system pid pid group with
      | (none, opened) => opened
      | (some inherits, opened) =>
          let (tracks, opened) :=
            openThreads system pid (system.threads pid (group.attempts pid)) opened
          { opened with
            trackedThreads := ((pid, ⟨pid, inherits⟩) :: tracks).foldl track opened.trackedThreads }

def removeThread (tid : ℕ) (group : PerfGroup) : PerfGroup :=
  { group with
    trackedThreads := group.trackedThreads.remove tid
    calls := group.calls ++ [.removedThread tid] }

def removeProcess (pid : ℕ) (group : PerfGroup) : PerfGroup :=
  let kept := group.trackedThreads.retain fun _ track => track.ownerPid ≠ pid
  { group with
    trackedThreads := (kept.get pid).elim kept fun track =>
      kept.insert pid { track with eventsInherit := false }
    calls := group.calls ++ [.removedProcess pid] }

/-- An action that does not join a batch. -/
def replayAction (openNewPerfEvents : Bool) (action : LifecycleAction) (group : PerfGroup) :
    PerfGroup :=
  match action with
  | .processRetire pid => removeProcess pid group
  | .processFork pid parentTid =>
      if openNewPerfEvents ∧ system.hasProcess pid then openForkedProcess system pid parentTid group
      else group
  | .threadExit tid _ => removeThread tid group
  | .threadFork .. => group

/-- The loop over the actions, with the batch of thread forks that is being collected. -/
def replayLoop (openNewPerfEvents : Bool) :
    List LifecycleAction → List ThreadFork → PerfGroup → PerfGroup
  | [], batch, group => openForkedThreads system batch group
  | action :: actions, batch, group =>
      match action, openNewPerfEvents with
      | .threadFork tid pid parentTid, true =>
          replayLoop openNewPerfEvents actions (batch ++ [⟨tid, pid, parentTid⟩]) group
      | _, _ => replayLoop openNewPerfEvents actions []
          (replayAction system openNewPerfEvents action (openForkedThreads system batch group))

def replayLifecycleActions (openNewPerfEvents : Bool) (actions : List LifecycleAction)
    (group : PerfGroup) : PerfGroup :=
  replayLoop system openNewPerfEvents actions [] group

/-- The replay that handles every action by itself. -/
def replaySingly (openNewPerfEvents : Bool) (group : PerfGroup) (action : LifecycleAction) :
    PerfGroup :=
  match action, openNewPerfEvents with
  | .threadFork tid pid parentTid, true => openForkedThreads system [⟨tid, pid, parentTid⟩] group
  | _, _ => replayAction system openNewPerfEvents action group

variable {system} {state : PerfGroup × BTreeMap ℕ ThreadTrack}

/-- The new threads of a batch were not tracked before it. -/
def Apart (state : PerfGroup × BTreeMap ℕ ThreadTrack) : Prop :=
  ∀ tid, (state.1.trackedThreads.get tid).isSome → state.2.get tid = none

theorem Apart.get_registered (h : Apart state) (tid : ℕ) :
    (registered state).trackedThreads.get tid =
      (state.1.trackedThreads.get tid).or (state.2.get tid) := by
  show (state.1.trackedThreads.extend state.2).get tid = _
  rw [get_extend]
  cases hknown : state.1.trackedThreads.get tid with
  | none => rw [Option.or_none, Option.none_or]
  | some track => rw [h tid (by rw [hknown]; rfl), Option.none_or, Option.some_or]

theorem extend_insert (known tracked : BTreeMap ℕ ThreadTrack) (tid : ℕ)
    (new : ThreadTrack) :
    known.extend (tracked.insert tid new) =
      (known.extend tracked).extend (empty.insert tid new) := by
  refine ext_get fun k => ?_
  rw [get_extend, get_extend, get_extend, get_insert, get_insert, get_empty]
  by_cases hk : k = tid
  · rw [if_pos hk, if_pos hk, Option.some_or, Option.some_or]
  · rw [if_neg hk, if_neg hk, Option.none_or]

/-- A fork inside a batch does what a batch of its own would do. -/
theorem forkStep_registered (h : Apart state) (fork : ThreadFork) :
    Apart (forkStep system state fork) ∧
      registered (forkStep system state fork) =
        openForkedThreads system [fork] (registered state) := by
  obtain ⟨group, tracked⟩ := state
  have htid := h.get_registered fork.tid
  have hparent := h.get_registered fork.parentTid
  unfold openForkedThreads
  rw [List.foldl_cons, List.foldl_nil]
  unfold forkStep
  simp only [htid, hparent, get_empty, Option.or_none, Option.isSome_none, Bool.false_eq_true,
    or_false, Option.isSome_or, Bool.or_eq_true]
  by_cases hknown : (group.trackedThreads.get fork.tid).isSome = true ∨
      (tracked.get fork.tid).isSome = true
  · rw [if_pos hknown, if_pos hknown]
    exact ⟨h, rfl⟩
  · have hnew : (group.trackedThreads.get fork.tid).isSome = false :=
      Bool.eq_false_iff.mpr fun hsome => hknown (.inl hsome)
    have hapart : ∀ new, Apart (group, tracked.insert fork.tid new) := by
      intro new tid hsome
      show (tracked.insert fork.tid new).get tid = none
      rw [get_insert]
      by_cases hsame : tid = fork.tid
      · subst hsame
        rw [hnew] at hsome
        cases hsome
      · rw [if_neg hsame]
        exact h tid hsome
    rw [if_neg hknown, if_neg hknown]
    split
    · refine ⟨hapart _, ?_⟩
      unfold registered
      rw [extend_insert]
    · show Apart (match tryOpenThreadPerfs system fork.tid fork.ownerPid group with
          | (some inherits, group) => _
          | (none, group) => _) ∧ _
      unfold tryOpenThreadPerfs
      cases hopens : system.opens fork.tid (group.attempts fork.tid) with
      | none => exact ⟨h, by simp [registered, hopens]; rfl⟩
      | some inherits =>
        refine ⟨hapart _, ?_⟩
        simp only [registered, hopens]
        rw [extend_insert]

/-- A batch does what its forks do one after another. -/
theorem openForkedThreads_append (forks : List ThreadFork) (fork : ThreadFork) (group : PerfGroup) :
    openForkedThreads system (forks ++ [fork]) group =
      openForkedThreads system [fork] (openForkedThreads system forks group) := by
  have happart : Apart (forks.foldl (forkStep system) (group, .empty)) := by
    induction forks using List.reverseRecOn with
    | nil => exact fun tid _ => rfl
    | append_singleton forks fork ih =>
      rw [List.foldl_append]
      exact (forkStep_registered ih fork).1
  conv_lhs => unfold openForkedThreads
  rw [List.foldl_append]
  exact (forkStep_registered happart fork).2

theorem replayLoop_eq (openNewPerfEvents : Bool) (actions : List LifecycleAction)
    (batch : List ThreadFork) (group : PerfGroup) :
    replayLoop system openNewPerfEvents actions batch group =
      actions.foldl (replaySingly system openNewPerfEvents)
        (openForkedThreads system batch group) := by
  induction actions generalizing batch group with
  | nil => rfl
  | cons action actions ih =>
    rw [List.foldl_cons]
    cases action with
    | threadFork tid pid parentTid =>
      cases openNewPerfEvents with
      | true => exact (ih _ group).trans (by rw [openForkedThreads_append]; rfl)
      | false => exact ih [] _
    | processRetire pid => exact ih [] _
    | processFork pid parentTid => exact ih [] _
    | threadExit tid pid => exact ih [] _

end

/-- A replay leaves the tracked threads and has made the calls, opens and removals in one order,
that the actions handled one by one would leave and make. -/
theorem batched_replay_eq (system : System) (openNewPerfEvents : Bool)
    (actions : List LifecycleAction) (group : PerfGroup) :
    replayLifecycleActions system openNewPerfEvents actions group =
      actions.foldl (replaySingly system openNewPerfEvents) group := by
  unfold replayLifecycleActions
  rw [replayLoop_eq]
  rfl

end StackPulse.ForkBatches
