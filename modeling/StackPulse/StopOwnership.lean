import Mathlib.Data.List.Count

/-!
A target is stopped while its threads are opened. `StoppedProcess` sends SIGCONT
only for a stop of its own, once, and tries again on every later way out while
the kernel refuses it. The kernel's answers are inputs: a poll loop takes the
readings it gets until its deadline passes, at least one.
-/
namespace StackPulse.StopOwnership

structure KernelError where
  targetGone : Bool

inductive IoError
  | kernel (source : KernelError)
  | stopTarget (pid : UInt32) (source : KernelError)
  | timedOut (message : String)
  | cleanup (operation cleanup : IoError)

structure ProcessSnapshot where
  tids : List UInt32
  allStopped : Bool
  deriving DecidableEq

abbrev Reading := Except KernelError ProcessSnapshot

inductive Signal
  | stop
  | cont
  deriving DecidableEq

/-- `sent` are the signals sent so far, and whether the kernel took them. -/
structure StoppedProcess where
  pid : UInt32
  resumeOnDrop : Bool := false
  sent : List (Signal × Bool) := []

/-- The answers to one call of `resume`. -/
structure ResumeAnswers where
  signal : Except KernelError Unit
  first : Reading
  rest : List Reading

def awaitRunning (pid : UInt32) : Reading → List Reading → Except IoError Unit
  | .error e, _ => if e.targetGone then .ok () else .error (.kernel e)
  | .ok snapshot, rest =>
      if snapshot.allStopped = false then .ok ()
      else match rest with
        | [] => .error (.timedOut s!"timed out waiting for process {pid} to resume")
        | next :: rest => awaitRunning pid next rest

def resume (s : StoppedProcess) (a : ResumeAnswers) : Except IoError Unit × StoppedProcess :=
  if s.resumeOnDrop then
    match a.signal with
    | .error e => (.error (.kernel e), { s with sent := s.sent ++ [(.cont, false)] })
    | .ok () =>
        -- The stop is no longer owned, even if the confirmation fails.
        (awaitRunning s.pid a.first a.rest,
          { s with resumeOnDrop := false, sent := s.sent ++ [(.cont, true)] })
  else (.ok (), s)

def resumeErrorOr (s : StoppedProcess) (a : ResumeAnswers) (original : IoError) :
    IoError × StoppedProcess :=
  match resume s a with
  | (.ok (), s) => (original, s)
  | (.error cleanup, s) => (.cleanup original cleanup, s)

def drop (s : StoppedProcess) (a : ResumeAnswers) : StoppedProcess := (resume s a).2

def withoutLeader (tids : List UInt32) (pid : UInt32) : List UInt32 := tids.filter (· ≠ pid)

def awaitStop (pid : UInt32) (previous : Option ProcessSnapshot) :
    Reading → List Reading → Except IoError (List UInt32)
  | .error e, _ => .error (.kernel e)
  | .ok snapshot, rest =>
      if snapshot.allStopped ∧ previous = some snapshot then .ok (withoutLeader snapshot.tids pid)
      else match rest with
        | [] => .error (.timedOut s!"timed out waiting for process {pid} to stop")
        | next :: rest =>
            awaitStop pid (if snapshot.allStopped then some snapshot else none) next rest

/-- The answers while a process is stopped; the last two are for the ways out of
a failure, the explicit one and the drop behind it. -/
structure StopAnswers where
  initial : Reading
  stop : Except KernelError Unit
  first : Reading
  rest : List Reading
  cleanup : ResumeAnswers
  dropped : ResumeAnswers

/-- With an error comes the state in which the value was dropped. -/
def new (pid : UInt32) (a : StopAnswers) : Except IoError (List UInt32) × StoppedProcess :=
  let s : StoppedProcess := { pid }
  match a.initial with
  | .error e => (.error (.kernel e), drop s a.dropped)
  | .ok initial =>
      if initial.allStopped then (.ok (withoutLeader initial.tids pid), s)
      else match a.stop with
        | .error e =>
          (.error (.stopTarget pid e), drop { s with sent := [(.stop, false)] } a.dropped)
        | .ok () =>
            let s := { s with resumeOnDrop := true, sent := [(.stop, true)] }
            match awaitStop pid none a.first a.rest with
            | .ok tids => (.ok tids, s)
            | .error e =>
                let (e, s) := resumeErrorOr s a.cleanup e
                (.error e, drop s a.dropped)

variable (pid : UInt32) (a : StopAnswers) (calls : List ResumeAnswers) (dropped : ResumeAnswers)

/-- A value that was handed out is resumed any number of times and dropped. -/
def lifetime : StoppedProcess :=
  match new pid a with
  | (.error _, s) => s
  | (.ok _, s) => drop (calls.foldl (fun s a => (resume s a).2) s) dropped

/-- The signals of a lifetime. -/
def signals : List (Signal × Bool) := (lifetime pid a calls dropped).sent

/-- The ways out on which an owned stop has to be undone. -/
def exits : List ResumeAnswers :=
  match (new pid a).1 with
  | .error _ => [a.cleanup, a.dropped]
  | .ok _ => calls ++ [dropped]

/-- Attempts up to the first one the kernel takes. -/
def untilTaken : List ResumeAnswers → List (Signal × Bool)
  | [] => []
  | a :: rest =>
      match a.signal with
      | .ok () => [(.cont, true)]
      | .error _ => (.cont, false) :: untilTaken rest

theorem sent_resumes (s : StoppedProcess) (points : List ResumeAnswers) :
    (points.foldl (fun s a => (resume s a).2) s).sent =
      s.sent ++ if s.resumeOnDrop then untilTaken points else [] := by
  induction points generalizing s with
  | nil => simp [untilTaken]
  | cons point points ih =>
    rw [List.foldl_cons, ih]
    cases hs : s.resumeOnDrop <;> cases hpoint : point.signal <;>
      simp [resume, untilTaken, hs, hpoint]

theorem resumeErrorOr_snd (s : StoppedProcess) (a : ResumeAnswers) (e : IoError) :
    (resumeErrorOr s a e).2 = (resume s a).2 := by
  unfold resumeErrorOr
  split <;> rename_i heq <;> rw [heq]

/-- They are none, a stop that failed, or a stop and what was tried to undo it. -/
theorem mem_signals : signals pid a calls dropped ∈ [[], [(.stop, false)],
    (.stop, true) :: untilTaken (exits pid a calls dropped)] := by
  have hcalls (s : StoppedProcess) :
      (drop (calls.foldl (fun s a => (resume s a).2) s) dropped).sent =
        s.sent ++ if s.resumeOnDrop then untilTaken (calls ++ [dropped]) else [] := by
    rw [← sent_resumes, List.foldl_append]
    rfl
  simp only [List.mem_cons, List.not_mem_nil, or_false]
  cases hinitial : a.initial with
  | error e => simp [signals, lifetime, new, hinitial, drop, resume]
  | ok initial =>
    by_cases hstopped : initial.allStopped = true
    · simp [signals, lifetime, new, hinitial, hstopped, hcalls]
    · cases hstop : a.stop with
      | error e => simp [signals, lifetime, new, hinitial, hstopped, hstop, drop, resume]
      | ok =>
        refine .inr (.inr ?_)
        cases hawait : awaitStop pid none a.first a.rest with
        | ok tids => simp [signals, lifetime, exits, new, hinitial, hstopped, hstop, hawait, hcalls]
        | error e =>
          simp only [signals, lifetime, exits, new, hinitial, hstopped, hstop, hawait,
            if_false, drop,
            resumeErrorOr_snd, Bool.false_eq_true]
          exact sent_resumes ⟨pid, true, [(.stop, true)]⟩ [a.cleanup, a.dropped]

theorem count_untilTaken (points : List ResumeAnswers) :
    (untilTaken points).count (.cont, true) ≤ 1 := by
  induction points with
  | nil => exact Nat.zero_le _
  | cons point points ih =>
    unfold untilTaken
    split
    · simp
    · simpa using ih

/-- A list of threads is only returned for a target seen stopped twice in a row
in the same way. -/
theorem awaitStop_ok {previous : Option ProcessSnapshot} {first : Reading} {rest : List Reading}
    {tids : List UInt32} (h : awaitStop pid previous first rest = .ok tids) :
    ∃ before snapshot after, snapshot.allStopped = true ∧ tids = withoutLeader snapshot.tids pid ∧
      (previous.toList.map Except.ok ++ first :: rest : List Reading) =
        before ++ .ok snapshot :: .ok snapshot :: after := by
  fun_induction awaitStop pid previous first rest with
  | case1 => cases h
  | case2 previous snapshot rest hsame =>
    cases h
    exact ⟨[], snapshot, rest, hsame.1, rfl, by rw [hsame.2]; rfl⟩
  | case3 => cases h
  | case4 previous snapshot hdiff next rest ih =>
    obtain ⟨before, found, after, hstopped, htids, heq⟩ := ih h
    -- The reading just made is part of what the next round remembers or lies before it.
    split at heq
    · refine ⟨previous.toList.map .ok ++ before, found, after, hstopped, htids, ?_⟩
      rw [List.append_assoc, ← heq]
      rfl
    · refine ⟨previous.toList.map .ok ++ .ok snapshot :: before, found, after, hstopped, htids, ?_⟩
      rw [List.append_assoc, List.cons_append, ← heq]
      rfl

/-- Whatever the kernel answers, SIGCONT follows only an own SIGSTOP, succeeds at
most once and is tried on every way out until then; threads are returned of a
target that was stopped before, or seen stopped twice in a row. -/
theorem stop_is_owned :
    (∀ before taken after, signals pid a calls dropped = before ++ (.cont, taken) :: after →
      (.stop, true) ∈ before) ∧
    (signals pid a calls dropped).count (.cont, true) ≤ 1 ∧
    ((.stop, true) ∈ signals pid a calls dropped →
      signals pid a calls dropped = (.stop, true) :: untilTaken (exits pid a calls dropped)) ∧
    ∀ tids, (new pid a).1 = .ok tids →
      (∃ initial, a.initial = .ok initial ∧ initial.allStopped = true ∧
        tids = withoutLeader initial.tids pid) ∨
      ∃ before snapshot after, snapshot.allStopped = true ∧
        tids = withoutLeader snapshot.tids pid ∧
        a.first :: a.rest = before ++ .ok snapshot :: .ok snapshot :: after := by
  have hsent := mem_signals pid a calls dropped
  generalize signals pid a calls dropped = sent at hsent ⊢
  simp only [List.mem_cons, List.not_mem_nil, or_false] at hsent
  refine ⟨fun before taken after heq => ?_, ?_, fun hstop => ?_, fun tids htids => ?_⟩
  · cases before with
    | nil => rcases hsent with rfl | rfl | rfl <;> simp at heq
    | cons first before => rcases hsent with rfl | rfl | rfl <;> simp_all
  · rcases hsent with rfl | rfl | rfl
    · simp
    · simp
    · rw [List.count_cons_of_ne (by simp)]
      exact count_untilTaken _
  · rcases hsent with rfl | rfl | rfl
    · cases hstop
    · simp at hstop
    · rfl
  · unfold new at htids
    split at htids
    · cases htids
    · rename_i initial hinitial
      split at htids
      · cases htids
        exact .inl ⟨initial, hinitial, ‹_›, rfl⟩
      · split at htids
        · cases htids
        · split at htids
          · cases htids
            exact .inr (awaitStop_ok pid ‹_›)
          · cases htids

end StackPulse.StopOwnership
