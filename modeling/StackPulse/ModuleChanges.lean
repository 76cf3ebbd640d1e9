import StackPulse.ModuleParts

/-!
What the operations of the module table write. Behind every table there is a list of
calls to the writer: the table lists the modules that these calls leave active, in the
order of their ids, and the calls give the modules the ids from zero on. With a writer
that never fails these are the calls that were made, so its state is their result. An
operation keeps this, also when it stops in the middle because the ids are exhausted or
the writer fails, and there is no other failure.
-/
namespace StackPulse.ModuleChanges

open Model FrameContexts Decode Writer Interning Sessions Recall Attempts Modules
  ModuleRepresentation

variable {active : List ModuleRecord} {ops : List Op}

section

variable {σ : Type} {write : Op → σ → Except Stop Unit × σ}

/-- Every call of the writer succeeds. -/
def NeverFails (write : Op → σ → Except Stop Unit × σ) : Prop := ∀ op w, (write op w).1 = .ok ()

/-- The writer after some calls. -/
def feed (write : Op → σ → Except Stop Unit × σ) (writer : σ) (log : List Op) : σ :=
  log.foldl (fun w op => (write op w).2) writer

/-- The modules that some calls leave active. -/
def activeOf (log : List Op) : List ModuleRecord := log.foldl activeAfter []

theorem activeOf_append (log ops : List Op) :
    activeOf (log ++ ops) = ops.foldl activeAfter (activeOf log) := List.foldl_append

/-- The frame at an address, given the active modules. -/
def frameIn (active : List ModuleRecord) (processId : Int32) (absIp : UInt64) (mode : FrameMode) :
    FrameRecord :=
  frameFor ((newestAround active (frameOwner processId mode) absIp).map ModuleIndexEntry.of)
    absIp mode

/-- A call that a recorder makes: it gives a module the next number, deactivates what has a number
or a process, or writes frames as the table resolves them. -/
def OpIssued (count : ℕ) (active : List ModuleRecord) : Op → Prop
  | .writeModule m => m.id.toNat = count
  | .writeSampleFrames _ processId _ frames =>
      ∀ frame ∈ frames, ∃ absIp mode, frame = frameIn active processId absIp mode
  | .writePythonRuntime _ processId _ => 0 < processId
  | .writeModuleDeactivation processId => 0 < processId
  | .writeModuleDeactivationOne id => id.toNat < count
  | .flush => True

/-- Calls that a recorder makes one after another, from one number to another. -/
def Issued : ℕ → List ModuleRecord → List Op → ℕ → Prop
  | count, _, [], next => next = count
  | count, active, op :: ops, next => OpIssued count active op ∧
      Issued (count + (writtenModule op).toList.length) (activeAfter active op) ops next

theorem Issued.append {count middle next : ℕ} {more : List Op} (h : Issued count active ops middle)
    (hmore : Issued middle (ops.foldl activeAfter active) more next) :
    Issued count active (ops ++ more) next := by
  induction ops generalizing count active with
  | nil =>
    cases h
    exact hmore
  | cons op ops ih => exact ⟨h.1, ih h.2 hmore⟩

theorem Issued.ids {count next : ℕ} (h : Issued count active ops next) :
    (ops.filterMap writtenModule).map (·.id.toNat) = List.range' count (next - count) ∧
      count ≤ next := by
  induction ops generalizing count active with
  | nil =>
    cases h
    rw [Nat.sub_self]
    exact ⟨rfl, le_rfl⟩
  | cons op ops ih =>
    obtain ⟨hop, hrest⟩ := h
    obtain ⟨hids, hle⟩ := ih hrest
    cases op with
    | writeModule m =>
      replace hids : (ops.filterMap writtenModule).map (·.id.toNat) =
        List.range' (count + 1) (next - (count + 1)) := hids
      replace hle : count + 1 ≤ next := hle
      have hid : m.id.toNat = count := hop
      have hlength : next - count = next - (count + 1) + 1 := by omega
      refine ⟨?_, by omega⟩
      show m.id.toNat :: (ops.filterMap writtenModule).map (·.id.toNat) = _
      rw [hids, hid, hlength, List.range'_succ]
    | _ => exact ⟨hids, hle⟩

/-- A table and a writer after some calls to the writer. A call to deactivate a module counts
even if it fails, a call to write one does not: so the table sees them. -/
structure Recorded (write : Op → σ → Except Stop Unit × σ) (writer : σ) (log : List Op)
    (s : Recorder σ) : Prop where
  written : NeverFails write → s.writer = feed write writer log
  table : Represents s.table (activeOf log)
  issued : Issued 0 [] log s.table.nextId

theorem Recorded.ids {writer : σ} {log : List Op} {s : Recorder σ}
    (hs : Recorded write writer log s) :
    (log.filterMap writtenModule).map (·.id.toNat) = List.range s.table.nextId := by
  rw [hs.issued.ids.1, List.range_eq_range', Nat.sub_zero]

def Exhausted (e : Stop) : Prop := e = invalidInput "module id space exhausted"

theorem exhausted_of_nextSpoolId {n : ℕ} {e : Stop} (h : nextSpoolId n "module" = .error e) :
    Exhausted e := by
  unfold nextSpoolId at h
  by_cases hlt : n < 2 ^ 32
  · rw [if_pos hlt] at h
    by_cases hnone : UInt32.ofNat n = NONE_U32
    · rw [if_pos hnone] at h
      exact (Except.error.inj h).symm
    · rw [if_neg hnone] at h
      cases h
  · rw [if_neg hlt] at h
    exact (Except.error.inj h).symm

/-- The failures of an operation. -/
def Failure (write : Op → σ → Except Stop Unit × σ) (e : Stop) : Prop :=
  Exhausted e ∨ ¬ NeverFails write

/-- How an operation can end: with a result or with a failure. Either way the calls that it made
are behind the earlier ones. -/
inductive Ran {α : Type} (write : Op → σ → Except Stop Unit × σ) (writer : σ) (log : List Op)
    (Q : α → List Op → Recorder σ → Prop) : Except Stop α × Recorder σ → Prop
  | ok {a : α} {s : Recorder σ} (ops : List Op) : Recorded write writer (log ++ ops) s →
      Q a (log ++ ops) s → Ran write writer log Q (.ok a, s)
  | failed {e : Stop} {s : Recorder σ} (ops : List Op) :
      Recorded write writer (log ++ ops) s → Failure write e → Ran write writer log Q (.error e, s)

variable {writer : σ} {log : List Op} {s : Recorder σ} {α β : Type}
  {Q : α → List Op → Recorder σ → Prop} {R : β → List Op → Recorder σ → Prop}

theorem Ran.done {a : α} (hs : Recorded write writer log s) (h : Q a log s) :
    Ran write writer log Q (.ok a, s) :=
  .ok [] (by rwa [List.append_nil]) (by rwa [List.append_nil])

/-- What runs behind some calls runs behind the first of them. -/
theorem Ran.behind {result : Except Stop α × Recorder σ}
    (h : Ran write writer (log ++ ops) Q result) : Ran write writer log Q result := by
  cases h with
  | ok more hs hq =>
    rw [List.append_assoc] at hs hq
    exact .ok (ops ++ more) hs hq
  | failed more hs he =>
    rw [List.append_assoc] at hs
    exact .failed (ops ++ more) hs he

theorem Ran.bind {m : Recording σ α} {f : α → Recording σ β} (h : Ran write writer log Q (m s))
    (hf : ∀ a ops s', Recorded write writer (log ++ ops) s' → Q a (log ++ ops) s' →
      Ran write writer (log ++ ops) R (f a s')) : Ran write writer log R ((m >>= f) s) := by
  rcases hm : m s with ⟨e | a, s'⟩ <;> rw [hm] at h
  · rw [bind_of_error hm]
    cases h with
    | failed ops hs he => exact .failed ops hs he
  · rw [bind_of_ok hm]
    cases h with
    | ok ops hs hq => exact (hf a ops s' hs hq).behind

theorem Ran.mono {Q' : α → List Op → Recorder σ → Prop} {result : Except Stop α × Recorder σ}
    (h : Ran write writer log Q result)
    (hQ : ∀ a ops s, Recorded write writer (log ++ ops) s → Q a (log ++ ops) s →
      Q' a (log ++ ops) s) : Ran write writer log Q' result := by
  cases h with
  | ok ops hs hq => exact .ok ops hs (hQ _ ops _ hs hq)
  | failed ops hs he => exact .failed ops hs he

theorem bind_ask {f : ModuleTable → Except Stop α} {g : α → Recording σ β} {a : α}
    (h : f s.table = .ok a) : (ask f >>= g) s = g a s :=
  bind_of_ok (by unfold ask; rw [h])

theorem bind_askOk {f : ModuleTable → α} {g : α → Recording σ β} :
    ((ask fun table => .ok (f table)) >>= g) s = g (f s.table) s :=
  bind_of_ok rfl

theorem bind_change {f : ModuleTable → ModuleTable} {g : Unit → Recording σ β} :
    (change f >>= g) s = g () { s with table := f s.table } :=
  bind_of_ok rfl

/-- A call to the writer. If it fails, the table is the one of some calls. -/
theorem ran_emit {op : Op} {g : Unit → Recording σ β}
    (hok : ∀ w, write op s.writer = (.ok (), w) →
      Ran write writer log R (g () { s with writer := w }))
    (hfail : ¬ NeverFails write → ∀ w, ∃ ops, Recorded write writer (log ++ ops) ⟨s.table, w⟩) :
    Ran write writer log R ((emit write op >>= g) s) := by
  rcases hcall : write op s.writer with ⟨e | ⟨⟩, w⟩
  · have hemit : emit write op s = (.error e, { s with writer := w }) := by
      unfold emit
      rw [hcall]
    have hfails : ¬ NeverFails write := by
      intro hnever
      have hok := hnever op s.writer
      rw [hcall] at hok
      cases hok
    rw [bind_of_error hemit]
    obtain ⟨ops, hs⟩ := hfail hfails w
    exact .failed ops hs (.inr hfails)
  · have hemit : emit write op s = (.ok (), { s with writer := w }) := by
      unfold emit
      rw [hcall]
    rw [bind_of_ok hemit]
    exact hok w hcall

/-- More calls, and a table that goes with them. -/
theorem Recorded.extend (hs : Recorded write writer log s) (ops : List Op) {s' : Recorder σ}
    (hwritten : NeverFails write → s'.writer = feed write s.writer ops)
    (htable : Represents s'.table (ops.foldl activeAfter (activeOf log)))
    (hissued : Issued s.table.nextId (activeOf log) ops s'.table.nextId) :
    Recorded write writer (log ++ ops) s' where
  written := by
    intro hnever
    rw [hwritten hnever, hs.written hnever]
    exact List.foldl_append.symm
  table := by
    rw [activeOf_append]
    exact htable
  issued := hs.issued.append hissued

/-- A failed call changes nothing but the writer. -/
theorem Recorded.failed (hs : Recorded write writer log s) (hfails : ¬ NeverFails write) (w : σ) :
    Recorded write writer log ⟨s.table, w⟩ :=
  ⟨fun hnever => absurd hnever hfails, hs.table, hs.issued⟩

end

section

variable {σ : Type} {write : Op → σ → Except Stop Unit × σ} {writer : σ} {log : List Op}
  {s : Recorder σ}

/-- What a process may enter next to its active modules. -/
structure Fits (active : List ModuleRecord) (m : ModuleRecord) : Prop where
  nonempty : m.start.toNat < m.stop.toNat
  apart : ∀ m' ∈ active, ApartIfShared m' m
  identity : ∀ m' ∈ active, identityOf m' ≠ identityOf m

/-- Modules of processes are told apart by their addresses. -/
theorem Fits.ofUser {m : ModuleRecord} {pid : Pid} (howner : m.owner = .process pid)
    (hnonempty : m.start.toNat < m.stop.toNat) (hapart : ∀ m' ∈ active, ApartIfShared m' m) :
    Fits active m := by
  refine ⟨hnonempty, hapart, fun m' hm' hsame => ?_⟩
  have howner' : m'.owner = m.owner := congrArg ModuleIdentity.owner hsame
  have hstart : m'.start = m.start := congrArg ModuleIdentity.start hsame
  have hstop : m'.stop = m.stop := congrArg ModuleIdentity.stop hsame
  have h := hapart m' hm' pid (howner'.trans howner) howner
  unfold Apart at h
  rw [hstart, hstop] at h
  omega

section

variable (hs : Recorded write writer log s)

include hs

theorem nextModuleId_ran :
    Ran write writer log (fun id log' s' => id.toNat = s.table.nextId ∧ log' = log ∧ s' = s)
      (nextModuleId s) := by
  rcases hid : nextSpoolId s.table.nextId "module" with e | id
  · have hask : nextModuleId s = (.error e, s) := congrArg (·, s) hid
    rw [hask]
    exact .failed [] (by rwa [List.append_nil]) (.inl (exhausted_of_nextSpoolId hid))
  · have hask : nextModuleId s = (.ok id, s) := congrArg (·, s) hid
    rw [hask]
    exact .done hs ⟨(nextSpoolId_ok hid).1, rfl, rfl⟩

theorem lookup_of_fits {m : ModuleRecord} (hfits : Fits (activeOf log) m) :
    s.table.activeByKey.lookup (identityOf m) = none := by
  apply Option.eq_none_iff_forall_ne_some.mpr
  intro id hid
  obtain ⟨m', hm', hkey, -⟩ := (hs.table.byKey _ id).mp hid
  exact hfits.identity m' hm' hkey

theorem internWithoutOverlap_ran {m : ModuleRecord} (hfits : Fits (activeOf log) m) :
    Ran write writer log
      (fun id log' _ => activeOf log' = activeOf log ++ [{ m with id := id }])
      (internWithoutOverlap write m s) := by
  unfold internWithoutOverlap
  rw [bind_askOk]
  simp only [lookup_of_fits hs hfits]
  refine (nextModuleId_ran hs).bind fun id ops s' hs' hid => ?_
  obtain ⟨hid, hlog, rfl⟩ := hid
  rw [hlog] at hs' ⊢
  have henter : Enterable s'.table (activeOf log) { m with id := id } :=
    ⟨hid, hfits.nonempty, hfits.apart, hfits.identity⟩
  refine ran_emit (fun w hw => ?_) fun hfails w => ⟨[], ?_⟩
  swap
  · rw [List.append_nil]
    exact hs'.failed hfails w
  rw [bind_change]
  refine .ok [.writeModule { m with id := id }] (hs'.extend _ (fun _ => ?_) ?_ ?_) ?_
  · exact (congrArg Prod.snd hw).symm
  · exact hs'.table.enter henter
  · exact ⟨hid, enter_nextId _⟩
  · rw [activeOf_append]
    rfl

/-- A pinned module takes an id and is never active. -/
theorem recordPinnedModule_ran (m : ModuleRecord) :
    Ran write writer log
      (fun pinned log' _ => pinned = { m with id := pinned.id } ∧ activeOf log' = activeOf log)
      (recordPinnedModule write m s) := by
  unfold recordPinnedModule
  refine (nextModuleId_ran hs).bind fun id ops s' hs' hid => ?_
  obtain ⟨hid, hlog, rfl⟩ := hid
  rw [hlog] at hs' ⊢
  have hfilter : (activeOf log ++ [{ m with id := id }]).filter (fun m' => m'.id ≠ id) =
      activeOf log := by
    rw [List.filter_append, List.filter_eq_self.mpr]
    · simp
    · intro m' hm'
      have hbound := hs'.table.bound m' hm'
      refine decide_eq_true fun hsame => ?_
      rw [hsame, hid] at hbound
      exact lt_irrefl _ hbound
  have hpinned : ∀ w, (NeverFails write → w = feed write s'.writer
      [.writeModule { m with id := id }, .writeModuleDeactivationOne id]) →
      Recorded write writer
        (log ++ [.writeModule { m with id := id }, .writeModuleDeactivationOne id])
        ⟨{ s'.table with nextId := s'.table.nextId + 1 }, w⟩ := by
    intro w hw
    refine hs'.extend _ hw ?_ ?_
    · show Represents _ ((activeOf log ++ [{ m with id := id }]).filter fun m' => m'.id ≠ id)
      rw [hfilter]
      exact hs'.table.skipId
    · exact ⟨hid, hid.trans_lt s'.table.nextId.lt_succ_self, rfl⟩
  refine ran_emit (fun w hw => ?_) fun hfails w => ⟨[], ?_⟩
  swap
  · rw [List.append_nil]
    exact hs'.failed hfails w
  rw [bind_change]
  refine ran_emit (fun w' hw' => ?_) fun hfails w' => ⟨_, hpinned w' fun hnever =>
    absurd hnever hfails⟩
  refine .ok _ (hpinned w' fun _ => ?_) ⟨rfl, ?_⟩
  · show w' = (write _ (write _ s'.writer).2).2
    rw [hw]
    exact (congrArg Prod.snd hw').symm
  · rw [activeOf_append]
    exact hfilter

end

theorem forget_unchanged (table : ModuleTable) (id : UInt32) (m : ModuleRecord) :
    (table.forget id m).dirtyProcesses = table.dirtyProcesses ∧
      (table.forget id m).nextId = table.nextId := by
  obtain ⟨byProcess, hsame⟩ := removeProcessActive_eq (drop table id m) m
  have hforget : table.forget id m = { drop table id m with activeByProcess := byProcess } := hsame
  rw [hforget]
  exact ⟨rfl, rfl⟩

end

section

variable {σ : Type} {write : Op → σ → Except Stop Unit × σ} {writer : σ} {log : List Op}
  {s : Recorder σ}

theorem retireAll_ran (hs : Recorded write writer log s) {pid : Pid}
    {modules : List ModuleRecord}
    (hmodules : ∀ m ∈ modules, m ∈ activeOf log ∧ m.owner = .process pid)
    (hnodup : (modules.map (·.id)).Nodup) (hdirty : pid.get ∈ s.table.dirtyProcesses) :
    Ran write writer log
      (fun retired log' _ => retired = modules ∧
        activeOf log' = (activeOf log).filter fun m => m.id ∉ modules.map (·.id))
      (retireAll write (modules.map (·.id)) s) := by
  induction modules generalizing log s with
  | nil => exact .done hs ⟨rfl, by simp⟩
  | cons m modules ih =>
    obtain ⟨hm, howner⟩ := hmodules m (.head _)
    obtain ⟨hfirst, hrest⟩ := List.nodup_cons.mp hnodup
    rw [List.map_cons, retireAll, bind_askOk, (hs.table.byId m.id m).mpr ⟨hm, rfl⟩]
    simp only
    rw [bind_change]
    have hpid : m.pid = some pid := by
      unfold ModuleRecord.pid
      rw [howner]
      rfl
    have hforgot : ∀ w, (NeverFails write →
        w = feed write s.writer [.writeModuleDeactivationOne m.id]) →
        Recorded write writer (log ++ [.writeModuleDeactivationOne m.id])
          ⟨s.table.forget m.id m, w⟩ := by
      intro w hw
      exact hs.extend _ hw (hs.table.forget hm hpid hdirty)
        ⟨hs.table.bound m hm, (forget_unchanged _ _ _).2⟩
    have hactive : activeOf (log ++ [.writeModuleDeactivationOne m.id]) =
        (activeOf log).filter fun m' => m'.id ≠ m.id := activeOf_append _ _
    refine ran_emit (fun w hw => ?_) fun hfails w => ⟨_, hforgot w fun hnever =>
      absurd hnever hfails⟩
    have hnext := ih (hforgot w fun _ => (congrArg Prod.snd hw).symm) (fun m' hm' => by
        refine ⟨?_, (hmodules m' (List.mem_cons_of_mem m hm')).2⟩
        rw [hactive]
        refine List.mem_filter.mpr ⟨(hmodules m' (List.mem_cons_of_mem m hm')).1,
          decide_eq_true fun hsame => hfirst ?_⟩
        show m.id ∈ modules.map (·.id)
        rw [← hsame]
        exact List.mem_map_of_mem hm')
      hrest (by rw [(forget_unchanged _ _ _).1]; exact hdirty)
    refine (hnext.bind fun retired ops s'' hs'' hretired => ?_).behind
    obtain ⟨rfl, hkept⟩ := hretired
    refine .done hs'' ⟨rfl, ?_⟩
    rw [hkept, hactive, List.filter_filter]
    refine List.filter_congr fun m' _ => ?_
    simp only [List.mem_cons, not_or, Bool.decide_and, Bool.and_comm]

/-- The parts, entered with new ids, each with the module that it comes from. -/
abbrev Entered (parts : List (UInt32 × ModuleRecord)) (activations : List ModuleActivation) :
    Prop :=
  List.Forall₂ (fun part activation => activation.sourceModuleId = some part.1 ∧
    activation.module = { part.2 with id := activation.module.id }) parts activations

theorem internSurvivors_ran (hs : Recorded write writer log s)
    {parts : List (UInt32 × ModuleRecord)} (hfits : ∀ part ∈ parts, Fits (activeOf log) part.2)
    (hapart : parts.Pairwise fun part part' =>
      ApartIfShared part.2 part'.2 ∧ identityOf part.2 ≠ identityOf part'.2) :
    Ran write writer log
      (fun activations log' _ => Entered parts activations ∧
        activeOf log' = activeOf log ++ activations.map (·.module))
      (internSurvivors write parts s) := by
  induction parts generalizing log s with
  | nil => exact .done hs ⟨.nil, (List.append_nil _).symm⟩
  | cons part parts ih =>
    obtain ⟨sourceId, part⟩ := part
    obtain ⟨hfirst, hrest⟩ := List.pairwise_cons.mp hapart
    rw [internSurvivors]
    refine (internWithoutOverlap_ran hs (hfits _ (.head _))).bind
      fun id ops s' hs' hactive => ?_
    have hmem : { part with id := id } ∈ activeOf (log ++ ops) := by
      rw [hactive]
      exact List.mem_append_right _ (List.mem_singleton_self _)
    rw [bind_ask (hs'.table.activeModule_ok hmem)]
    have hfits' : ∀ part' ∈ parts, Fits (activeOf (log ++ ops)) part'.2 := by
      intro part' hpart'
      have h := hfits part' (.tail _ hpart')
      rw [hactive]
      refine ⟨h.nonempty, ?_, ?_⟩
      · exact List.forall_mem_append.mpr
          ⟨h.apart, List.forall_mem_singleton.mpr (hfirst part' hpart').1⟩
      · exact List.forall_mem_append.mpr
          ⟨h.identity, List.forall_mem_singleton.mpr (hfirst part' hpart').2⟩
    refine (ih hs' hfits' hrest).bind fun activations more s'' hs'' hentered => ?_
    obtain ⟨hentered, hactive'⟩ := hentered
    refine .done hs'' ⟨.cons ⟨rfl, rfl⟩ hentered, ?_⟩
    rw [hactive', hactive, List.append_assoc]
    rfl

end

end StackPulse.ModuleChanges
