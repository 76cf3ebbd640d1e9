import StackPulse.LastMapping

/-!
The end of the module ids. A mapping that splits another one when the ids are exhausted
retires it and cannot enter its parts. The addresses of the parts then resolve to no
module, although the mapping that covers them was applied.
-/
namespace StackPulse.ModuleExhaustion

open Model Resolution Decode Writer Interning Sessions Attempts Modules ModuleRepresentation
  ModuleParts ModuleChanges ModuleApplication ModuleRuns ModuleHistory LastMapping

variable {m : ModuleRecord}

/-- A mapping of the kernel at the given address. -/
def kernelAt (n : ℕ) : ModuleRecord :=
  { mappedModule with
    owner := .kernel
    start := UInt64.ofNat n
    stop := 18446744073709551615
    inodeGeneration := 1 }

section

variable {log : List Op} {s : Recorder (List Op)}

theorem internWithoutOverlap_eq (hs : Recorded keepCalls [] log s) (hfits : Fits (activeOf log) m)
    {id : UInt32} (hid : nextSpoolId s.table.nextId "module" = .ok id) :
    internWithoutOverlap keepCalls m s = (.ok id,
      ⟨s.table.enter { m with id := id }, s.writer ++ [.writeModule { m with id := id }]⟩) := by
  unfold internWithoutOverlap
  rw [bind_askOk]
  simp only [lookup_of_fits hs hfits]
  unfold nextModuleId
  rw [bind_ask hid]
  rfl

/-- A new mapping of the kernel takes the next id. -/
theorem applyModule_kernel (hs : Recorded keepCalls [] log s) (howner : m.owner = .kernel)
    (hnew : m.start.toNat < m.stop.toNat) (hunknown : ∀ known ∈ activeOf log, ¬ Compatible m known)
    {id : UInt32} (hid : nextSpoolId s.table.nextId "module" = .ok id) :
    ∃ s', TableCall.perform keepCalls (.applyModule m) s = (.ok (), s') ∧
      Recorded keepCalls [] (log ++ [.writeModule { m with id := id }]) s' ∧
      s'.table.nextId = s.table.nextId + 1 := by
  have hfits := fits_kernel howner hnew hunknown
  have hintern := internWithoutOverlap_eq hs hfits hid
  have hlen := (nextSpoolId_ok hid).1
  have hs' : Recorded keepCalls [] (log ++ [.writeModule { m with id := id }])
      ⟨s.table.enter { m with id := id }, s.writer ++ [.writeModule { m with id := id }]⟩ := by
    exact hs.extend _ (fun _ => rfl) (hs.table.enter ⟨hlen, hfits.nonempty, hfits.apart,
      hfits.identity⟩) ⟨hlen, enter_nextId _⟩
  refine ⟨_, ?_, hs', enter_nextId _⟩
  obtain ⟨found, hfound, hcases⟩ := findCompatibleActive_ok hs.table m
  have hrange : ¬ m.stop ≤ m.start := Nat.not_le.mpr hnew
  have hpid : m.pid = none := by
    unfold ModuleRecord.pid
    rw [howner]
    rfl
  rcases found with _ | known
  · have hmem : { m with id := id } ∈ activeOf (log ++ [.writeModule { m with id := id }]) := by
      rw [activeOf_append]
      exact List.mem_append_right _ (List.mem_singleton_self _)
    have happly : applyModule keepCalls m s = (.ok ⟨[], [⟨{ m with id := id }, none⟩], true⟩,
        ⟨s.table.enter { m with id := id }, s.writer ++ [.writeModule { m with id := id }]⟩) := by
      unfold applyModule
      rw [if_neg hrange, bind_ask hfound]
      simp only [hpid]
      have hnothing : (pure ([], []) : Recording (List Op)
          (List ModuleRecord × List ModuleActivation)) s = (.ok ([], []), s) := rfl
      refine (bind_of_ok hnothing).trans ?_
      rw [bind_of_ok hintern, bind_ask (hs'.table.activeModule_ok hmem)]
      rfl
    exact bind_of_ok happly
  · obtain ⟨known, hknown, -, hcompatible⟩ := hcases
    exact absurd hcompatible (hunknown known hknown)

/-- A mapping in the middle of the first one. -/
def middleModule : ModuleRecord := { mappedModule with start := 5000, stop := 6000 }

/-- The recorder after it retired the first mapping. -/
def withoutFirst (s : Recorder (List Op)) : Recorder (List Op) :=
  ⟨(s.table.markDirty 1).forget mappedModule.id mappedModule,
    s.writer ++ [.writeModuleDeactivationOne mappedModule.id]⟩

theorem eq_singleton_of_ordered {met : List ModuleRecord} (hm : m ∈ met)
    (hsame : ∀ m' ∈ met, m' = m) (hnonempty : m.start.toNat < m.stop.toNat)
    (hordered : met.Pairwise fun m m' => m.stop.toNat ≤ m'.start.toNat) : met = [m] := by
  rcases met with _ | ⟨first, rest⟩
  · cases hm
  · obtain ⟨hfirst, -⟩ := List.pairwise_cons.mp hordered
    rw [hsame first List.mem_cons_self] at hfirst ⊢
    rcases rest with _ | ⟨second, rest⟩
    · rfl
    · have hle := hfirst second (.head _)
      rw [hsame second (.tail _ (.head _))] at hle
      omega

theorem replaceOverlapping_exhausted (hs : Recorded keepCalls [] log s)
    (hs' : Recorded keepCalls [] (log ++ [.writeModuleDeactivationOne mappedModule.id])
      (withoutFirst s)) {e : Stop}
    (hids : nextSpoolId s.table.nextId "module" = .error e) (hmapped : mappedModule ∈ activeOf log)
    (honly : ∀ m ∈ activeOf log, m.owner = mappedModule.owner → m = mappedModule) :
    replaceOverlapping keepCalls 1 middleModule s = (.error e, withoutFirst s) := by
  have hpid : mappedModule.owner = .process ⟨1, by decide⟩ := rfl
  have hlookup := (hs.table.byId mappedModule.id mappedModule).mpr ⟨hmapped, rfl⟩
  obtain ⟨met, hok, hordered, hmet⟩ := overlapping_ok hs.table 1 middleModule
  obtain rfl : met = [mappedModule] := by
    refine eq_singleton_of_ordered ((hmet mappedModule).mpr ⟨hmapped, rfl, by decide⟩)
      (fun m hm => ?_) (by decide) hordered
    obtain ⟨hactive, howned, -⟩ := (hmet m).mp hm
    have howned' : Owned (⟨1, by decide⟩ : Pid).get m := howned
    exact honly m hactive (owned_process.mp howned')
  rcases hoverlap : s.table.overlappingModuleIds 1 middleModule with e' | ids
  · rw [hoverlap] at hok
    cases hok
  rw [hoverlap] at hok
  have hsurvivors := survivors_ok hs.table.toLists middleModule
    (List.forall_mem_singleton.mpr hmapped)
  unfold replaceOverlapping
  have hmany : ¬ [mappedModule].map (·.id) = [] := List.cons_ne_nil _ _
  rw [bind_ask hoverlap, bind_ask hok, if_neg hmany, bind_ask hsurvivors, bind_change]
  have hretire : retireAll keepCalls [mappedModule.id] { s with table := s.table.markDirty 1 } =
      (.ok [mappedModule], withoutFirst s) := by
    have hlookup' : (s.table.markDirty 1).active.lookup mappedModule.id =
        some mappedModule := hlookup
    rw [retireAll, bind_askOk, hlookup']
    rfl
  have hparts : ([mappedModule].flatMap fun m =>
      (splitModuleAround m middleModule).map fun part => (m.id, part)) =
        [(0, { mappedModule with stop := 5000 }),
          (0, { mappedModule with start := 6000, fileOffset := 2416 })] := by
    decide +kernel
  have hunknown : (withoutFirst s).table.activeByKey.lookup
      (identityOf { mappedModule with stop := 5000 }) = none := by
    apply Option.eq_none_iff_forall_ne_some.mpr
    intro id hid
    obtain ⟨m, hm, hkey, -⟩ := (hs'.table.byKey _ id).mp hid
    rw [activeOf_append] at hm
    obtain ⟨hm, hne⟩ := List.mem_filter.mp hm
    have howner : m.owner = mappedModule.owner := congrArg ModuleIdentity.owner hkey
    rw [honly m hm howner] at hne
    exact of_decide_eq_true hne rfl
  have hnext : nextSpoolId (withoutFirst s).table.nextId "module" = .error e := by
    unfold withoutFirst
    rw [(forget_unchanged _ _ _).2]
    exact hids
  rw [List.map_singleton, bind_of_ok hretire, hparts]
  refine bind_of_error ?_
  rw [internSurvivors]
  refine bind_of_error ?_
  unfold internWithoutOverlap
  rw [bind_askOk]
  simp only [hunknown]
  exact bind_of_error (congrArg (·, _) hnext)

/-- Without ids the first mapping is retired and its parts are lost. -/
theorem applyModule_exhausted (hs : Recorded keepCalls [] log s) {e : Stop}
    (hids : nextSpoolId s.table.nextId "module" = .error e) (hmapped : mappedModule ∈ activeOf log)
    (honly : ∀ m ∈ activeOf log, m.owner = mappedModule.owner → m = mappedModule) :
    ∃ s' log', TableCall.perform keepCalls (.applyModule middleModule) s = (.error e, s') ∧
      Recorded keepCalls [] log' s' ∧
      activeOf log' = (activeOf log).filter fun m => m.id ≠ mappedModule.id := by
  have hpid : mappedModule.pid = some ⟨1, by decide⟩ := rfl
  have hdirty : (1 : Int32) ∈ (s.table.markDirty 1).dirtyProcesses := List.mem_insert_self
  have hs' : Recorded keepCalls [] (log ++ [.writeModuleDeactivationOne mappedModule.id])
      (withoutFirst s) := by
    exact hs.extend _ (fun _ => rfl) ((hs.table.markDirty 1).forget hmapped hpid hdirty)
      ⟨hs.table.bound mappedModule hmapped, (forget_unchanged _ _ _).2⟩
  refine ⟨_, _, ?_, hs', activeOf_append _ _⟩
  have hcompatible : s.table.findCompatibleActive middleModule = .ok none := by
    obtain ⟨found, hfound, hcases⟩ := findCompatibleActive_ok hs.table middleModule
    rcases found with _ | id
    · exact hfound
    · obtain ⟨known, hknown, -, hcompatible⟩ := hcases
      obtain ⟨howner, hstart, -⟩ := sameMapping_iff.mp hcompatible.same
      rw [honly known hknown howner] at hstart
      exact absurd hstart (by decide)
  have hreplace := replaceOverlapping_exhausted hs hs' hids hmapped honly
  have happly : applyModule keepCalls middleModule s = (.error e, withoutFirst s) := by
    have hrange : ¬ middleModule.stop ≤ middleModule.start := by decide
    unfold applyModule
    rw [if_neg hrange, bind_ask hcompatible]
    exact bind_of_error hreplace
  exact bind_of_error happly

end

/-- A mapping of a process and some of the kernel. -/
def fillingCalls (n : ℕ) : List TableCall :=
  .applyModule mappedModule :: (List.range n).map fun i => .applyModule (kernelAt i)

theorem fillingCalls_succ (n : ℕ) :
    fillingCalls (n + 1) = fillingCalls n ++ [.applyModule (kernelAt n)] := by
  unfold fillingCalls
  rw [List.range_succ, List.map_append, List.cons_append]
  rfl

/-- The table after them: each has an id of its own. -/
structure Filled (n : ℕ) (log : List Op) (s : Recorder (List Op)) : Prop where
  recorded : Recorded keepCalls [] log s
  nextId : s.table.nextId = n + 1
  mapped : mappedModule ∈ activeOf log
  others : ∀ m ∈ activeOf log, m = mappedModule ∨ m.owner = .kernel ∧ m.start.toNat < n

theorem filled_zero :
    ∃ log, Filled 0 log (performAll keepCalls (fillingCalls 0) ⟨.default, []⟩).2 := by
  have hdefault : Recorded keepCalls [] [] ⟨.default, []⟩ := recorded_default []
  obtain ⟨⟨log, hs⟩, -⟩ := performAll_recorded hdefault (fillingCalls 0)
  rw [List.nil_append] at hs
  have hlog : log = [.writeModule mappedModule] := by
    have hwritten := hs.written keepCalls_neverFails
    rw [feed_keepCalls, List.nil_append] at hwritten
    exact hwritten.symm
  refine ⟨log, hs, rfl, ?_, ?_⟩ <;> rw [hlog]
  · exact List.mem_singleton_self _
  · exact fun m hm => .inl (List.mem_singleton.mp hm)

theorem filled {n : ℕ} (h : n < 2 ^ 32 - 1) :
    ∃ log, Filled n log (performAll keepCalls (fillingCalls n) ⟨.default, []⟩).2 := by
  induction n with
  | zero => exact filled_zero
  | succ n ih =>
    obtain ⟨log, hfilled⟩ := ih (by omega)
    have hstart : (kernelAt n).start.toNat = n :=
      UInt64.toNat_ofNat_of_lt' (Nat.lt_trans (Nat.lt_of_succ_lt h) (by decide))
    have hid : nextSpoolId (n + 1) "module" = .ok (UInt32.ofNat (n + 1)) := by
      have hne : UInt32.ofNat (n + 1) ≠ NONE_U32 := by
        intro hsame
        have hnat := congrArg UInt32.toNat hsame
        rw [UInt32.toNat_ofNat_of_lt' (Nat.lt_of_lt_of_le h (by decide))] at hnat
        exact absurd hnat (Nat.ne_of_lt h)
      unfold nextSpoolId
      rw [if_pos (by omega), if_neg hne]
    have hunknown : ∀ known ∈ activeOf log, ¬ Compatible (kernelAt n) known := by
      intro known hknown hcompatible
      obtain ⟨howner, hsame, -⟩ := sameMapping_iff.mp hcompatible.same
      rcases hfilled.others known hknown with rfl | ⟨-, hlt⟩
      · cases howner
      · rw [hsame, hstart] at hlt
        exact lt_irrefl _ hlt
    have hnew : (kernelAt n).start.toNat < (kernelAt n).stop.toNat := by
      have hstop : (kernelAt n).stop.toNat = 2 ^ 64 - 1 := rfl
      omega
    obtain ⟨s', hperform, hs', hnext⟩ := applyModule_kernel hfilled.recorded rfl hnew hunknown
      (by rw [hfilled.nextId]; exact hid)
    refine ⟨log ++ [.writeModule { kernelAt n with id := UInt32.ofNat (n + 1) }], ?_⟩
    rw [fillingCalls_succ, performAll_append, performAll_cons, hperform]
    refine ⟨hs', by rw [← hfilled.nextId]; exact hnext, ?_, ?_⟩ <;> rw [activeOf_append]
    · exact List.mem_append_left _ hfilled.mapped
    · refine List.forall_mem_append.mpr ⟨fun m hm => ?_, List.forall_mem_singleton.mpr (Or.inr
        ⟨rfl, ?_⟩)⟩
      · exact (hfilled.others m hm).imp_right fun hkernel =>
          ⟨hkernel.1, Nat.lt_succ_of_lt hkernel.2⟩
      · exact hstart.trans_lt n.lt_succ_self

/-- All ids are used up, and then a mapping splits the first one. -/
def exhaustingCalls : List TableCall :=
  fillingCalls (2 ^ 32 - 2) ++ [.applyModule middleModule]

theorem exhaustingCalls_fit : ∀ call ∈ exhaustingCalls, CallFits call := by
  rintro call hcall m rfl pid howner
  unfold exhaustingCalls fillingCalls at hcall
  rcases List.mem_append.mp hcall with hcall | hcall
  · rcases List.mem_cons.mp hcall with hfirst | hcall
    · cases hfirst
      decide
    · obtain ⟨i, -, hkernel⟩ := List.mem_map.mp hcall
      cases hkernel
      cases howner
  · cases List.mem_singleton.mp hcall
    decide

theorem historyOf_filling (n : ℕ) :
    historyOf (fillingCalls n) = Function.update (fun _ => []) 1 [mappedModule] := by
  induction n with
  | zero => rfl
  | succ n ih =>
    rw [fillingCalls_succ, historyOf, List.foldl_append, ← historyOf, ih]
    rfl

/-- The first mapping covers the address, and the address resolves to no module. -/
theorem mapping_lost_without_ids :
    NeverFails keepCalls ∧ (∀ call ∈ exhaustingCalls, CallFits call) ∧
      latest (historyOf exhaustingCalls 1) 4096 = some mappedModule ∧
      (resolveFrame 1 4096 .user (performAll keepCalls exhaustingCalls ⟨.default, []⟩).2).1 =
        .ok ⟨none, 4096, 4096, .user⟩ := by
  refine ⟨keepCalls_neverFails, exhaustingCalls_fit, ?_, ?_⟩
  · rw [exhaustingCalls, historyOf, List.foldl_append, ← historyOf, historyOf_filling]
    rfl
  · obtain ⟨log, hfilled⟩ := filled (n := 2 ^ 32 - 2) (by decide)
    have honly : ∀ m ∈ activeOf log, m.owner = mappedModule.owner → m = mappedModule := by
      intro m hm howner
      refine (hfilled.others m hm).resolve_right fun hkernel => ?_
      rw [hkernel.1] at howner
      cases howner
    obtain ⟨s', log', hperform, hs', hactive⟩ := applyModule_exhausted hfilled.recorded
      (by rw [hfilled.nextId]; rfl) hfilled.mapped honly
    rw [exhaustingCalls, performAll_append, performAll_cons, hperform]
    obtain ⟨_, hok, -⟩ := resolveFrame_ok hs' 1 4096 .user
    refine (congrArg Prod.fst hok).trans ?_
    unfold frameIn
    rw [newestAround_none]
    · rfl
    · intro m hm howner
      rw [hactive] at hm
      obtain ⟨hm, hne⟩ := List.mem_filter.mp hm
      rw [honly m hm (Option.some.inj howner).symm] at hne
      exact of_decide_eq_true hne rfl

end StackPulse.ModuleExhaustion
