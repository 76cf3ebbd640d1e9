import StackPulse.ModuleHistory

/-!
The last mapping wins. After any calls none of which failed for lack of ids, the table
resolves an address of a process to a module exactly if the history of the process
covers it, and then with the file address in the latest mapping around it.
-/
namespace StackPulse.LastMapping

open Model FrameContexts Visibility Resolution Sessions Attempts Modules ModuleRepresentation
  ModuleParts ModuleChanges ModuleApplication ModuleInheritance ModuleRuns ModuleTranslation
  ModuleHistory

section

variable {σ : Type} {write : Op → σ → Except Stop Unit × σ} {writer : σ} {log : List Op}
  {s : Recorder σ} {h : History}

/-- Only the lack of ids makes an operation fail if the writer never does. -/
theorem ok_of_ran {α : Type} {Q : α → List Op → Recorder σ → Prop} {m : Recording σ α}
    (hwrite : NeverFails write) (hran : Ran write writer log Q (m s))
    (hids : ∀ e, ((m >>= fun _ => pure ()) s).1 = .error e → ¬ Exhausted e) :
    ∃ ops a s', Recorded write writer (log ++ ops) ((m >>= fun _ => pure ()) s).2 ∧
      Q a (log ++ ops) s' := by
  rcases hm : m s with ⟨e | a, s'⟩ <;> rw [hm] at hran
  · cases hran with
    | failed ops hs he =>
      refine absurd ?_ (hids e (by rw [bind_of_error hm]))
      exact he.resolve_right fun hfails => hfails hwrite
  · rw [bind_of_ok hm]
    cases hran with
    | ok ops hs hq => exact ⟨ops, a, s', hs, hq⟩

/-- A mapping of a process that a call applies has file addresses. -/
def CallFits (call : TableCall) : Prop :=
  ∀ m, call = .applyModule m → ∀ pid, m.owner = .process pid → FitsFile m

theorem perform_mirrors (hwrite : NeverFails write) (hs : Recorded write writer log s)
    (hmirrors : Mirrors (activeOf log) h) {call : TableCall} (hfits : CallFits call)
    (hids : ∀ e, (call.perform write s).1 = .error e → ¬ Exhausted e) :
    ∃ ops, Recorded write writer (log ++ ops) (call.perform write s).2 ∧
      Mirrors (activeOf (log ++ ops)) (TableCall.extend h call) := by
  cases call with
  | applyModule m =>
    obtain ⟨ops, u, -, hs', happlied⟩ := ok_of_ran hwrite (applyModule_ran hs m) hids
    exact ⟨ops, hs', hmirrors.applyModule (hfits m rfl) happlied⟩
  | cloneProcessModules parentProcessId childProcessId =>
    rcases hpid : Pid.new childProcessId with _ | pid
    · refine ⟨[], ?_, ?_⟩
      · rw [perform_invalid hpid parentProcessId, List.append_nil]
        exact hs
      · rw [List.append_nil, TableCall.extend, hpid]
        exact hmirrors
    · obtain rfl : childProcessId = pid.get := (Pid.new_eq_some.mp hpid).symm
      obtain ⟨ops, cloned, -, hs', sources, updates, hcloned⟩ :=
        ok_of_ran hwrite (cloneProcessModules_ran hs parentProcessId pid) hids
      exact ⟨ops, hs', hmirrors.clone hcloned⟩
  | deactivateProcessModules processId =>
    obtain ⟨ops, -, -, hs', hactive⟩ :=
      ok_of_ran hwrite (deactivateProcessModules_ran hs processId) hids
    refine ⟨ops, hs', ?_⟩
    rw [hactive]
    exact hmirrors.deactivate processId
  | recordPinnedModule m =>
    obtain ⟨ops, -, -, hs', -, hactive⟩ := ok_of_ran hwrite (recordPinnedModule_ran hs m) hids
    refine ⟨ops, hs', ?_⟩
    rw [hactive]
    exact hmirrors
  | resolveFrame processId absIp mode =>
    obtain ⟨s', hok, hs'⟩ := resolveFrame_ok hs processId absIp mode
    have hperform : TableCall.perform write (.resolveFrame processId absIp mode) s = (.ok (), s') :=
      bind_of_ok hok
    exact ⟨[], by rwa [hperform, List.append_nil], by rwa [List.append_nil]⟩
  | coversUserPc processId address =>
    obtain ⟨s', hok, hs'⟩ := coversUserPc_ok hs processId address
    have hperform : TableCall.perform write (.coversUserPc processId address) s = (.ok (), s') :=
      bind_of_ok hok
    exact ⟨[], by rwa [hperform, List.append_nil], by rwa [List.append_nil]⟩

theorem performAll_mirrors (hwrite : NeverFails write) (hs : Recorded write writer log s)
    (hmirrors : Mirrors (activeOf log) h) {calls : List TableCall}
    (hfits : ∀ call ∈ calls, CallFits call)
    (hids : ∀ e, .error e ∈ (performAll write calls s).1 → ¬ Exhausted e) :
    ∃ log', Recorded write writer log' (performAll write calls s).2 ∧
      Mirrors (activeOf log') (calls.foldl TableCall.extend h) := by
  induction calls generalizing log s h with
  | nil => exact ⟨log, hs, hmirrors⟩
  | cons call calls ih =>
    obtain ⟨ops, hs', hmirrors'⟩ := perform_mirrors hwrite hs hmirrors
      (hfits call (.head _)) fun e he => hids e (by
        show .error e ∈ (call.perform write s).1 :: _
        rw [he]
        exact List.mem_cons_self)
    exact ih hs' hmirrors' (fun call' hcall' => hfits call' (.tail _ hcall'))
      fun e he => hids e (.tail _ he)

/-- A mapping that is already active leaves everything in place. -/
theorem applyModule_known (hs : Recorded write writer log s) {m known : ModuleRecord}
    (hnew : m.start.toNat < m.stop.toNat) (hknown : known ∈ activeOf log)
    (hcompatible : Compatible m known) :
    ∃ found, applyModule write m s = (.ok ⟨[], [⟨found, none⟩], false⟩, s) := by
  obtain ⟨found, hfound, hcases⟩ := findCompatibleActive_ok hs.table m
  have hrange : ¬ m.stop ≤ m.start := Nat.not_le.mpr hnew
  unfold applyModule
  rw [if_neg hrange, bind_ask hfound]
  rcases found with _ | id
  · exact absurd hcompatible (hcases known hknown)
  · obtain ⟨found, hmem, rfl, -⟩ := hcases
    simp only
    rw [bind_ask (hs.table.activeModule_ok hmem)]
    exact ⟨found, rfl⟩

end

/-- The frame at an address, given the latest mapping around it. -/
def ResolvesTo (table : ModuleTable) (address : UInt64) (frame : FrameRecord) :
    Option ModuleRecord → Prop
  | none => frame = ⟨none, address, address, .user⟩
  | some m => ∃ known, table.active.lookup known.id = some known ∧
      frame = ⟨some known.id,
        UInt64.ofNat (address.toNat - m.start.toNat + m.fileOffset.toNat), address, .user⟩ ∧
      address.toNat - m.start.toNat + m.fileOffset.toNat < 2 ^ 64 ∧
      known.path.components = m.path.components ∧ known.inode = m.inode ∧
      known.deviceMajor = m.deviceMajor ∧ known.deviceMinor = m.deviceMinor

theorem frameIn_resolvesTo {table : ModuleTable} {active : List ModuleRecord} {h : History}
    (htable : Represents table active) (hmirrors : Mirrors active h) (processId : Int32)
    (address : UInt64) :
    ResolvesTo table address (frameIn active processId address .user)
      (latest (h processId) address) := by
  unfold frameIn
  rcases hpid : Pid.new processId with _ | pid
  · have hnone : frameOwner processId .user = none := by
      unfold frameOwner
      rw [hpid]
      rfl
    rw [hmirrors.invalid processId hpid, hnone, newestAround_none fun m _ hsome => by cases hsome]
    rfl
  obtain rfl : processId = pid.get := (Pid.new_eq_some.mp hpid).symm
  have hat := hmirrors.mirrorsAt pid address
  have hfits := hmirrors.fits_latest pid.get address
  generalize latest (h pid.get) address = mapping at hat hfits
  rcases mapping with _ | m
  · have hnone : newestAround active (frameOwner pid.get .user) address = none := by
      apply List.find?_eq_none.mpr
      intro m hm hdecide
      obtain ⟨howner, haround⟩ := of_decide_eq_true hdecide
      exact hat m (List.mem_reverse.mp hm) (owned_process.mp (owned_iff.mpr howner)) haround
    rw [hnone]
    rfl
  · obtain ⟨part, hpart, howner, haround, hcarries⟩ := hat
    have hremains : Remains active pid address part part := ⟨hpart, howner, haround, Part.refl part⟩
    rw [newestAround_of_remains htable.apart hremains, Option.map_some, frameFor_around haround]
    have hstart := hcarries.start_le
    have hstop := hcarries.stop_le
    have hoffset := hcarries.fileOffset
    have hfitsFile : FitsFile m := hfits m rfl
    obtain ⟨hle, hlt⟩ := haround
    have hsame : address.toNat - part.start.toNat + part.fileOffset.toNat =
        address.toNat - m.start.toNat + m.fileOffset.toNat := by omega
    have hbound : address.toNat - m.start.toNat + m.fileOffset.toNat < 2 ^ 64 := by
      unfold FitsFile at hfitsFile
      omega
    refine ⟨part, (htable.byId _ part).mpr ⟨hpart, rfl⟩, ?_, hbound, hcarries.path,
      hcarries.inode, hcarries.deviceMajor, hcarries.deviceMinor⟩
    unfold addressIn
    simp only [hsame, if_pos hbound]

/-- An address of a process resolves as the latest mapping around it says, and a mapping that is
already active leaves everything in place. -/
theorem last_mapping_wins {σ : Type} (write : Op → σ → Except Stop Unit × σ)
    (hwrite : NeverFails write) (writer : σ) (calls : List TableCall)
    (hfits : ∀ call ∈ calls, CallFits call)
    (hids : ∀ e, .error e ∈ (performAll write calls ⟨.default, writer⟩).1 → ¬ Exhausted e) :
    (∀ processId address, ∃ frame,
      (resolveFrame processId address .user (performAll write calls ⟨.default, writer⟩).2).1 =
        .ok frame ∧
      ResolvesTo (performAll write calls ⟨.default, writer⟩).2.table address frame
        (latest (historyOf calls processId) address)) ∧
    ∀ m id known, m.start.toNat < m.stop.toNat →
      (performAll write calls ⟨.default, writer⟩).2.table.active.lookup id = some known →
      Compatible m known →
      ∃ found, applyModule write m (performAll write calls ⟨.default, writer⟩).2 =
        (.ok ⟨[], [⟨found, none⟩], false⟩, (performAll write calls ⟨.default, writer⟩).2) := by
  obtain ⟨log, hs, hmirrors⟩ := performAll_mirrors hwrite (recorded_default writer) mirrors_nil
    hfits hids
  refine ⟨fun processId address => ?_, fun m id known hnew hknown hcompatible => ?_⟩
  · obtain ⟨_, hok, -⟩ := resolveFrame_ok hs processId address .user
    exact ⟨_, congrArg Prod.fst hok, frameIn_resolvesTo hs.table hmirrors processId address⟩
  · exact applyModule_known hs hnew ((hs.table.byId id known).mp hknown).1 hcompatible

/-- A mapping, one in its middle and a child that takes both over. -/
def coveredCalls : List TableCall :=
  [.applyModule mappedModule, .applyModule { mappedModule with start := 5000, stop := 6000 },
    .cloneProcessModules 1 2]

theorem last_mapping_wins_covered :
    (∀ processId address, ∃ frame,
      (resolveFrame processId address .user
        (performAll keepCalls coveredCalls ⟨.default, []⟩).2).1 =
        .ok frame ∧
      ResolvesTo (performAll keepCalls coveredCalls ⟨.default, []⟩).2.table address frame
        (latest (historyOf coveredCalls processId) address)) ∧
    ∀ m id known, m.start.toNat < m.stop.toNat →
      (performAll keepCalls coveredCalls ⟨.default, []⟩).2.table.active.lookup id = some known →
      Compatible m known →
      ∃ found, applyModule keepCalls m (performAll keepCalls coveredCalls ⟨.default, []⟩).2 =
        (.ok ⟨[], [⟨found, none⟩], false⟩,
          (performAll keepCalls coveredCalls ⟨.default, []⟩).2) := by
  refine last_mapping_wins keepCalls (fun _ _ => rfl) [] coveredCalls ?_ ?_
  · intro call hcall m hm pid howner
    subst hm
    unfold coveredCalls at hcall
    simp only [List.mem_cons, TableCall.applyModule.injEq, reduceCtorEq, List.not_mem_nil,
      or_false] at hcall
    rcases hcall with rfl | rfl <;> decide
  · intro e he
    have houtcomes : (performAll keepCalls coveredCalls ⟨.default, []⟩).1 =
        [.ok (), .ok (), .ok ()] := by decide +kernel
    rw [houtcomes] at he
    simp at he

end StackPulse.LastMapping
