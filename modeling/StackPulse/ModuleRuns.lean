import StackPulse.ModuleInheritance

/-!
Whole runs of the module table. A caller makes call after call and goes on after an
error. Whatever the calls are, the maps of the table describe one set of modules, the
index finds the newest module of an owner around an address, and the ids that are
written count up from zero.
-/
namespace StackPulse.ModuleRuns

open Model Words FrameContexts Visibility Sessions Attempts Modules ModuleSearch
  ModuleRepresentation ModuleChanges ModuleApplication ModuleInheritance

section

variable {σ : Type} {write : Op → σ → Except Stop Unit × σ} {writer : σ} {log : List Op}
  {s : Recorder σ}

theorem find_represents {table : ModuleTable} {active : List ModuleRecord}
    (h : Represents table active) (hclean : table.dirtyProcesses = [])
    (hkernel : table.kernelIndexDirty = false) (processId : Int32) (address : UInt64)
    (mode : FrameMode) :
    table.index.find processId address mode =
      (newestAround active (frameOwner processId mode) address).map ModuleIndexEntry.of := by
  cases mode with
  | user => exact h.found processId (by rw [hclean]; exact List.not_mem_nil) address
  | kernel => exact h.foundKernel hkernel processId address
  | truncatedStackMarker =>
    rw [newestAround_none fun m _ hsome => by cases hsome]
    rfl

/-- The index finds the newest module around the address. -/
theorem lookupIndex_ok (hs : Recorded write writer log s) (processId : Int32) (address : UInt64)
    (mode : FrameMode) :
    ∃ s', lookupIndex processId address mode s =
        (.ok ((newestAround (activeOf log) (frameOwner processId mode) address).map
          ModuleIndexEntry.of), s') ∧ Recorded write writer log s' := by
  obtain ⟨table, hrebuild, hrebuilt, htable⟩ := hs.table.rebuildIndexIfNeeded
  refine ⟨{ s with table := table }, ?_, hs.written, htable, ?_⟩
  · unfold lookupIndex
    rw [hrebuild]
    have hclean : table.dirtyProcesses = [] := congrArg ModuleTable.dirtyProcesses hrebuilt.same
    have hkernel : table.kernelIndexDirty = false :=
      congrArg ModuleTable.kernelIndexDirty hrebuilt.same
    simp only [find_represents htable hclean hkernel]
  · rw [hrebuilt.same]
    exact hs.issued

/-- A frame in a module is pinned to it if its address in the file is a 64-bit number. -/
theorem frameFor_around {m : ModuleRecord} {absIp : UInt64} (h : Around m absIp)
    (mode : FrameMode) :
    frameFor (some (ModuleIndexEntry.of m)) absIp mode =
      match addressIn m ⟨none, absIp, absIp, mode⟩ with
      | some fileRelativeIp => ⟨some m.id, fileRelativeIp, absIp, mode⟩
      | none => ⟨none, absIp, absIp, mode⟩ := by
  have hsub : checkedSub absIp m.start = some (absIp - m.start) := if_pos h.1
  have hoffset : (absIp - m.start).toNat = absIp.toNat - m.start.toNat :=
    UInt64.toNat_sub_of_le _ _ h.1
  unfold frameFor addressIn ModuleIndexEntry.of
  simp only [Option.bind_some, hsub]
  by_cases hlt : absIp.toNat - m.start.toNat + m.fileOffset.toNat < 2 ^ 64
  · have hadd : checkedAdd (absIp - m.start) m.fileOffset =
        some (UInt64.ofNat (absIp.toNat - m.start.toNat + m.fileOffset.toNat)) := by
      rw [checkedAdd_eq_some, hoffset, UInt64.toNat_ofNat_of_lt' hlt]
    rw [hadd, if_pos hlt]
    rfl
  · have hadd : checkedAdd (absIp - m.start) m.fileOffset = none := by
      rw [checkedAdd_eq_none, hoffset]
      omega
    rw [hadd, if_neg hlt]
    rfl

theorem resolveFrame_ok (hs : Recorded write writer log s) (processId : Int32) (absIp : UInt64)
    (mode : FrameMode) :
    ∃ s', resolveFrame processId absIp mode s =
        (.ok (frameIn (activeOf log) processId absIp mode), s') ∧
      Recorded write writer log s' := by
  obtain ⟨s', hlookup, hs'⟩ := lookupIndex_ok hs processId absIp mode
  refine ⟨s', ?_, hs'⟩
  unfold resolveFrame
  rw [bind_of_ok hlookup]
  rfl

theorem coversUserPc_ok (hs : Recorded write writer log s) (processId : Int32)
    (address : UInt64) :
    ∃ s', coversUserPc processId address s =
        (.ok (newestAround (activeOf log) (frameOwner processId .user) address).isSome, s') ∧
      Recorded write writer log s' := by
  obtain ⟨s', hlookup, hs'⟩ := lookupIndex_ok hs processId address .user
  refine ⟨s', ?_, hs'⟩
  unfold coversUserPc
  rw [bind_of_ok hlookup]
  show (Except.ok (Option.map _ _).isSome, s') = _
  rw [Option.isSome_map]

end

/-- A call that a user of the table can make. -/
inductive TableCall
  | applyModule (module : ModuleRecord)
  | cloneProcessModules (parentProcessId childProcessId : Int32)
  | deactivateProcessModules (processId : Int32)
  | recordPinnedModule (module : ModuleRecord)
  | resolveFrame (processId : Int32) (absIp : UInt64) (mode : FrameMode)
  | coversUserPc (processId : Int32) (address : UInt64)

section

variable {σ : Type} (write : Op → σ → Except Stop Unit × σ)

def TableCall.perform : TableCall → Recording σ Unit
  | .applyModule module => do
      let _ ← Modules.applyModule write module
      return ()
  | .cloneProcessModules parentProcessId childProcessId => do
      let _ ← Modules.cloneProcessModules write parentProcessId childProcessId
      return ()
  | .deactivateProcessModules processId => do
      let _ ← Modules.deactivateProcessModules write processId
      return ()
  | .recordPinnedModule module => do
      let _ ← Modules.recordPinnedModule write module
      return ()
  | .resolveFrame processId absIp mode => do
      let _ ← Modules.resolveFrame processId absIp mode
      return ()
  | .coversUserPc processId address => do
      let _ ← Modules.coversUserPc processId address
      return ()

/-- Make the calls one after another. -/
def performAll : List TableCall → Recorder σ → List (Except Stop Unit) × Recorder σ
  | [], s => ([], s)
  | call :: calls, s =>
      let (outcome, s) := call.perform write s
      let (outcomes, s) := performAll calls s
      (outcome :: outcomes, s)

theorem performAll_cons (call : TableCall) (calls : List TableCall) (s : Recorder σ) :
    performAll write (call :: calls) s =
      ((call.perform write s).1 :: (performAll write calls (call.perform write s).2).1,
        (performAll write calls (call.perform write s).2).2) := rfl

theorem performAll_append (calls more : List TableCall) (s : Recorder σ) :
    performAll write (calls ++ more) s =
      ((performAll write calls s).1 ++ (performAll write more (performAll write calls s).2).1,
        (performAll write more (performAll write calls s).2).2) := by
  induction calls generalizing s with
  | nil => rfl
  | cons call calls ih =>
    rw [List.cons_append, performAll_cons, ih, performAll_cons, List.cons_append]

end

/-- The writer that keeps its calls. -/
def keepCalls (op : Op) (log : List Op) : Except Stop Unit × List Op := (.ok (), log ++ [op])

theorem keepCalls_neverFails : NeverFails keepCalls := fun _ _ => rfl

theorem feed_keepCalls (log ops : List Op) : feed keepCalls log ops = log ++ ops := by
  induction ops generalizing log with
  | nil => exact (List.append_nil _).symm
  | cons op ops ih =>
    show feed keepCalls (log ++ [op]) ops = _
    rw [ih, List.append_assoc]
    rfl

section

variable {σ : Type} {write : Op → σ → Except Stop Unit × σ} {writer : σ} {log : List Op}
  {s : Recorder σ}

/-- The failures of a call: a child whose id is no process id is refused as well. -/
def CallFailure (write : Op → σ → Except Stop Unit × σ) (call : TableCall) (e : Stop) : Prop :=
  Failure write e ∨ ∃ parentProcessId childProcessId,
    call = .cloneProcessModules parentProcessId childProcessId ∧ Pid.new childProcessId = none ∧
      e = invalidInput (invalidPid childProcessId)

/-- The state after a call, and how it can fail. -/
structure Performed (write : Op → σ → Except Stop Unit × σ) (writer : σ) (log : List Op)
    (call : TableCall) (result : Except Stop Unit × Recorder σ) : Prop where
  recorded : ∃ ops, Recorded write writer (log ++ ops) result.2
  failure : ∀ e, result.1 = .error e → CallFailure write call e

theorem performed_of_ran {α : Type} {Q : α → List Op → Recorder σ → Prop} {m : Recording σ α}
    (h : Ran write writer log Q (m s)) (call : TableCall) :
    Performed write writer log call ((m >>= fun _ => pure ()) s) := by
  rcases hm : m s with ⟨e | a, s'⟩ <;> rw [hm] at h
  · rw [bind_of_error hm]
    cases h with
    | failed ops hs he =>
      refine ⟨⟨ops, hs⟩, fun e' he' => Or.inl ?_⟩
      cases he'
      exact he
  · rw [bind_of_ok hm]
    cases h with
    | ok ops hs hq => exact ⟨⟨ops, hs⟩, fun e he => by cases he⟩

theorem performed_of_ok {α : Type} {m : Recording σ α} {a : α} {s' : Recorder σ}
    (h : m s = (.ok a, s')) (hs : Recorded write writer log s') (call : TableCall) :
    Performed write writer log call ((m >>= fun _ => pure ()) s) := by
  rw [bind_of_ok h]
  exact ⟨⟨[], by rwa [List.append_nil]⟩, fun e he => by cases he⟩

theorem cloneProcessModules_invalid {childProcessId : Int32}
    (h : Pid.new childProcessId = none) (parentProcessId : Int32) :
    cloneProcessModules write parentProcessId childProcessId s =
      (.error (invalidInput (invalidPid childProcessId)), s) := by
  unfold cloneProcessModules
  refine bind_of_error ?_
  unfold ask Pid.tryFrom
  rw [h]

theorem perform_invalid {childProcessId : Int32} (h : Pid.new childProcessId = none)
    (parentProcessId : Int32) :
    TableCall.perform write (.cloneProcessModules parentProcessId childProcessId) s =
      (.error (invalidInput (invalidPid childProcessId)), s) :=
  bind_of_error (cloneProcessModules_invalid h parentProcessId)

theorem perform_performed (hs : Recorded write writer log s) (call : TableCall) :
    Performed write writer log call (call.perform write s) := by
  cases call with
  | applyModule module => exact performed_of_ran (applyModule_ran hs module) _
  | cloneProcessModules parentProcessId childProcessId =>
    rcases hpid : Pid.new childProcessId with _ | pid
    · rw [perform_invalid hpid parentProcessId]
      refine ⟨⟨[], by rwa [List.append_nil]⟩, fun e he => Or.inr
        ⟨parentProcessId, childProcessId, rfl, hpid, ?_⟩⟩
      cases he
      rfl
    · obtain rfl : childProcessId = pid.get := (Pid.new_eq_some.mp hpid).symm
      exact performed_of_ran (cloneProcessModules_ran hs parentProcessId pid) _
  | deactivateProcessModules processId =>
    exact performed_of_ran (deactivateProcessModules_ran hs processId) _
  | recordPinnedModule module => exact performed_of_ran (recordPinnedModule_ran hs module) _
  | resolveFrame processId absIp mode =>
    obtain ⟨s', hok, hs'⟩ := resolveFrame_ok hs processId absIp mode
    exact performed_of_ok hok hs' _
  | coversUserPc processId address =>
    obtain ⟨s', hok, hs'⟩ := coversUserPc_ok hs processId address
    exact performed_of_ok hok hs' _

theorem performAll_recorded (hs : Recorded write writer log s) (calls : List TableCall) :
    (∃ ops, Recorded write writer (log ++ ops) (performAll write calls s).2) ∧
      List.Forall₂ (fun call outcome => ∀ e, outcome = .error e → CallFailure write call e) calls
        (performAll write calls s).1 := by
  induction calls generalizing log s with
  | nil => exact ⟨⟨[], by rwa [List.append_nil]⟩, .nil⟩
  | cons call calls ih =>
    have hcall := perform_performed hs call
    obtain ⟨ops, hs'⟩ := hcall.recorded
    obtain ⟨⟨more, hrest⟩, houtcomes⟩ := ih hs'
    exact ⟨⟨ops ++ more, by rw [← List.append_assoc]; exact hrest⟩,
      .cons hcall.failure houtcomes⟩

theorem recorded_default (w : σ) : Recorded write w [] ⟨.default, w⟩ :=
  ⟨fun _ => rfl, represents_default, rfl⟩

end

end StackPulse.ModuleRuns
