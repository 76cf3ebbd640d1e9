import StackPulse.JitConsistency

/-!
Runs of the JIT registry. Every call ends, since readings fail only in ways that are
reported, so the invariant holds after any sequence of refreshes and drains, whatever the
process does.
-/
namespace StackPulse.JitRuns

open OrderedMap IntervalMap Attempts JitProtocol JitObjects JitReads JitRegistry JitBudget
  JitConsistency

variable (world : World) {r : Registry} {object : JitObject} {id : JitObjectId} {time : ℕ}
  {α β : Type}

theorem change_bind (g : Registry → Registry) (f : Unit → Call β) :
    (change g >>= f) (r, time) = f () (g r, time) := rfl

theorem borrow_bind (f : Registry → Call β) : (borrow >>= f) (r, time) = f r (r, time) := rfl

theorem now_bind (f : ℕ → Call β) : (now world >>= f) (r, time) = f (world.clock time) (r, time) :=
  rfl

/-- No failure at all. -/
def Never (_ : Fault) : Prop := False

/-- A call leaves the registry consistent, also when it fails. -/
abbrev Keeps (allowed : Fault → Prop) (x : Except Fault α × (Registry × ℕ)) : Prop :=
  Outcome (fun _ s => Consistent s.1) (fun fault s => allowed fault ∧ Consistent s.1) x

section

variable {m : Registry → Access α} {Q : α → Registry × ℕ → Prop} {E : Fault → Registry × ℕ → Prop}

theorem reading_outcome (hok : ∀ a time', m r time = (.ok a, time') → Q a (r, time'))
    (herror : ∀ fault time', m r time = (.error fault, time') → E fault (r, time')) :
    Outcome Q E (reading m (r, time)) := by
  unfold reading
  dsimp only
  rcases hm : m r time with ⟨fault | a, time'⟩
  · exact herror fault time' hm
  · exact hok a time' hm

variable {allowed : Fault → Prop} {P : α → Prop} (h : Ensures allowed (m r) P)

include h

theorem reading_ensures (hok : ∀ a time', P a → Q a (r, time'))
    (herror : ∀ fault time', allowed fault → E fault (r, time')) :
    Outcome Q E (reading m (r, time)) :=
  reading_outcome (fun a time' hm => hok a time' (h.ok hm))
    fun fault time' hm => herror fault time' (h.error hm)

/-- What follows a reading. -/
theorem reading_keeps {f : α → Call β} (hr : Consistent r)
    (hf : ∀ a time', P a → Keeps allowed (f a (r, time'))) :
    Keeps allowed ((reading m >>= f) (r, time)) :=
  .bind (reading_ensures h hf fun _ _ hfault => ⟨hfault, hr⟩)

end

theorem noteRevalidation_outcome {Q : Unit → Registry × ℕ → Prop}
    {E : Fault → Registry × ℕ → Prop} (revalidate : Bool)
    (hQ : ∀ revalidated, Q () ({ r with lastRevalidation := revalidated }, time)) :
    Outcome Q E (noteRevalidation world revalidate (r, time)) := by
  unfold noteRevalidation
  split
  · exact hQ _
  · exact hQ r.lastRevalidation

section

variable (h : Consistent r)

include h

theorem reconcile_keeps (poll : ℕ) (revalidate : Bool) (snapshot : JitSnapshot) :
    Keeps Reported (reconcile world poll revalidate snapshot (r, time)) := by
  refine reading_keeps ((collect_reads poll revalidate r snapshot).ensures world) h
    fun candidate _ hcollected => ?_
  refine reading_keeps ((readRegistry_reads r.descriptors).ensures world) h fun current _ _ => ?_
  split
  · exact h.congr rfl rfl
  · rw [change_bind]
    refine .bind (noteRevalidation_outcome world revalidate fun revalidated => ?_)
    -- the times and descriptors noted before the commit are not looked at by it
    have hcollected := hcollected h
    have hcandidate : Collected ({ r.noteSnapshot snapshot with lastRevalidation := revalidated } :
        Registry) poll snapshot candidate :=
      ⟨⟨hcollected.checks.balance, hcollected.checks.valid, hcollected.checks.kept,
        hcollected.checks.sizes, hcollected.checks.modules⟩, hcollected.ids, hcollected.sizes,
        hcollected.loaded⟩
    have hnoted : Layout ({ r.noteSnapshot snapshot with lastRevalidation := revalidated } :
        Registry) := h.layout.congr rfl rfl
    have hlayout := commit_layout poll hnoted hcandidate
    exact ⟨hlayout.1, hlayout.2⟩

theorem refreshObjects_keeps (poll : ℕ) :
    Keeps Reported (refreshObjects world poll (r, time)) := by
  refine reading_keeps ((readDescriptors_reads r.descriptors).ensures world) h
    fun descriptors _ _ => ?_
  rw [now_bind, borrow_bind]
  split
  · exact h
  · exact reading_keeps ((readSnapshot_reads descriptors).ensures world) h fun snapshot _ _ =>
      reconcile_keeps world h poll _ snapshot

theorem consistent_refreshFailed (poll : ℕ) (fault : Fault) :
    Consistent (r.refreshFailed poll fault) := by
  unfold Registry.refreshFailed
  split <;> exact h.congr rfl rfl

theorem attemptRefresh_keeps (poll : ℕ) : Keeps Never (attemptRefresh world poll (r, time)) := by
  refine .handle ((refreshObjects_keeps world h poll).mono
    (fun _ s hs => (show Consistent _ from hs.congr rfl rfl)) fun fault s hfault => ?_)
  cases fault with
  | underflow => exact absurd rfl hfault.1
  | read e => exact consistent_refreshFailed hfault.2 poll (.read e)
  | limit text => exact consistent_refreshFailed hfault.2 poll (.limit text)

theorem pollObjects_keeps : Keeps Never (pollObjects world (r, time)) := by
  have hcounted : Consistent r.countPoll := h.congr rfl rfl
  unfold pollObjects
  rw [borrow_bind]
  split
  · exact h
  · rw [change_bind]
    split
    · exact hcounted
    · exact attemptRefresh_keeps world hcounted r.pollCount

theorem consistent_discover (now generation : ℕ) (modules : List Mapping)
    (found : List JitDescriptorLocation × Bool) :
    Consistent (r.discover now generation modules found) := by
  have hupdate : ∀ {r : Registry}, Consistent r →
      Consistent (r.updateDescriptors found.1 modules) := by
    intro r h
    unfold Registry.updateDescriptors
    simp only
    split
    · exact consistent_of_empty rfl rfl
    · exact h.congr rfl rfl
  unfold Registry.discover
  simp only
  split
  · have hfound : Consistent (Registry.updateDescriptors
        { r with lastDiscovery := some (generation, now)
                 descriptorSearchGeneration := some generation } found.1 modules) :=
      hupdate (h.congr rfl rfl)
    split
    · exact hfound.congr rfl rfl
    · exact hfound
  · exact h

theorem refresh_keeps (generation : ℕ) (modules : List Mapping)
    (found : List JitDescriptorLocation × Bool) :
    Keeps Never (refresh world generation modules found (r, time)) := by
  unfold refresh
  rw [borrow_bind]
  split
  · exact h
  · rw [now_bind]
    split
    · exact h
    · rw [change_bind, change_bind]
      have hstarted : Consistent { r with lastPoll := some (world.clock time) } := h.congr rfl rfl
      exact pollObjects_keeps world (consistent_discover hstarted _ _ _ _)

theorem consistent_reportLimit (limit : Option String) :
    Consistent (r.reportLimit limit) := h.congr rfl rfl

theorem consistent_markBudgetLimited (id : JitObjectId) : Consistent (r.markBudgetLimited id) := by
  unfold Registry.markBudgetLimited
  split
  · next object hget =>
    have hcode : object.markBudgetLimited.codeRanges = object.codeRanges := rfl
    have hsize := loadedCfiSize_markBudgetLimited object
    have hsum := BTreeMap.sum_insert r.objects loadedCfiSize id object.markBudgetLimited
    rw [hget, Option.elim_some, hsize] at hsum
    have hbudget := h.budget
    refine ⟨h.layout.replace hget hcode ?_ rfl rfl, ?_⟩
    · rw [hsize]
      exact h.layout.sections id object hget
    · show (r.objects.insert id object.markBudgetLimited).sum loadedCfiSize ≤ _
      omega
  · exact h

/-- The update is paid with what the other objects leave. -/
theorem consistent_update (hget : r.objects.get id = some object) {others remaining : ℕ}
    {update : UnwindUpdate} (hothers : others + loadedCfiSize object = r.objects.sum loadedCfiSize)
    (hinspected : Inspected object (MAX_JIT_TOTAL_CFI_SIZE - others) (.unwind update, remaining)) :
    Consistent (r.acceptUnwind id object update) := by
  obtain ⟨hpaid, hsize, -⟩ := hinspected
  have hcode : (object.applyUnwind update).codeRanges = object.codeRanges := rfl
  have hsum := BTreeMap.sum_insert r.objects loadedCfiSize id (object.applyUnwind update)
  rw [hget, Option.elim_some] at hsum
  have hnew : loadedCfiSize (object.applyUnwind update) = update.unwind.cfi.loadedSize := rfl
  have hbudget := h.budget
  have hupdated : Consistent { r with
      objects := r.objects.insert id (object.applyUnwind update)
      loadFailures := r.loadFailures.remove id
      updatesPending := true } := by
    refine ⟨h.layout.replace hget hcode hsize rfl rfl, ?_⟩
    show (r.objects.insert id (object.applyUnwind update)).sum loadedCfiSize ≤ _
    simp only at hpaid
    omega
  unfold Registry.acceptUnwind
  simp only
  split
  · exact hupdated.congr rfl rfl
  · exact hupdated

end

section

variable (h : Consistent r)

include h

theorem publishUnwind_keeps (hget : r.objects.get id = some object) (snapshot : JitSnapshot)
    {update : UnwindUpdate} (hupdated : Consistent (r.acceptUnwind id object update)) :
    Keeps Never (publishUnwind world id snapshot update (r, time)) := by
  refine .handle (reading_ensures ((readRegistry_reads r.descriptors).ensures world)
    (fun current _ _ => ?_) fun _ _ _ => h)
  split
  · rw [borrow_bind, hget]
    exact hupdated
  · exact h

theorem demandObject_keeps (hget : r.objects.get id = some object) (snapshot : JitSnapshot) :
    Keeps Never (demandObject world id object snapshot (r, time)) := by
  have hle : loadedCfiSize object ≤ r.objects.sum loadedCfiSize := BTreeMap.le_sum hget
  have hdebit : Ensures Never (debit (r.objects.sum loadedCfiSize) (loadedCfiSize object))
      fun others => others + loadedCfiSize object = r.objects.sum loadedCfiSize := by
    unfold debit
    rw [if_pos hle]
    exact .pure (Nat.sub_add_cancel hle)
  refine reading_keeps hdebit h fun others _ hothers => ?_
  refine .handle (reading_ensures ((inspect_reads object id _).ensures world)
    (fun found _ hinspected => ?_) fun fault _ hreported => ?_)
  · obtain ⟨change, remaining⟩ := found
    cases change with
    | unchanged => exact h
    | image => exact h.congr rfl rfl
    | unwind update =>
      exact publishUnwind_keeps world h hget snapshot
        (consistent_update h hget hothers hinspected)
  · cases fault with
    | underflow => exact absurd rfl hreported
    | read e => exact h
    | limit text => exact consistent_reportLimit (consistent_markBudgetLimited h _) _

theorem demandRefresh_keeps (hget : r.objects.get id = some object) :
    Keeps Never (demandRefresh world id object (r, time)) := by
  refine .handle (reading_ensures ((readRegistry_reads r.descriptors).ensures world)
    (fun snapshot _ _ => ?_) fun _ _ _ => h)
  split
  · exact h.congr rfl rfl
  · exact demandObject_keeps world h hget snapshot

theorem demandOwner_keeps (started : ℕ) (id : JitObjectId) :
    Keeps Never (demandOwner world started id (r, time)) := by
  unfold demandOwner
  rw [borrow_bind]
  cases hget : r.objects.get id with
  | none => exact h
  | some object =>
    have hstarted : Consistent { r with lastDemandRefresh := some started } := h.congr rfl rfl
    dsimp only
    split
    · exact h
    · rw [change_bind]
      split
      · exact hstarted
      · exact demandRefresh_keeps world hstarted hget

theorem refreshForAddress_keeps (address : ℕ) :
    Keeps Never (refreshForAddress world address (r, time)) := by
  unfold refreshForAddress
  rw [now_bind, borrow_bind]
  split
  · exact h
  · cases covering Prod.fst r.codeRanges address with
    | none => exact h.congr rfl rfl
    | some owner => exact demandOwner_keeps world h _ owner.2.2

end

section

variable (h : Consistent r)

include h

theorem consistent_drainUpdates (time : ℕ) : Consistent (drainUpdates world time r).2 := by
  unfold drainUpdates
  split
  · exact h
  · have hget : ∀ id object, (r.objects.mapValues JitObject.drained).get id = some object →
        ∃ old, r.objects.get id = some old ∧ object = JitObject.drained old := by
      intro id object hobject
      rw [BTreeMap.get_mapValues] at hobject
      obtain ⟨old, hold, heq⟩ := Option.map_eq_some_iff.mp hobject
      exact ⟨old, hold, heq.symm⟩
    refine ⟨⟨fun start stop id => ?_, h.layout.disjoint, fun id object hobject => ?_,
      fun id object hobject => ?_⟩, ?_⟩
    · rw [h.layout.ranges]
      constructor
      · rintro ⟨object, hobject, hmem⟩
        exact ⟨JitObject.drained object, by rw [BTreeMap.get_mapValues, hobject]; rfl, hmem⟩
      · rintro ⟨object, hobject, hmem⟩
        obtain ⟨old, hold, rfl⟩ := hget id object hobject
        exact ⟨old, hold, hmem⟩
    · obtain ⟨old, hold, rfl⟩ := hget id object hobject
      exact h.layout.laid id old hold
    · obtain ⟨old, hold, rfl⟩ := hget id object hobject
      exact h.layout.sections id old hold
    · show (r.objects.mapValues JitObject.drained).sum loadedCfiSize ≤ _
      rw [BTreeMap.sum_mapValues]
      exact h.budget

theorem step_keeps (op : Op) : Keeps Never (step world op (r, time)) := by
  cases op with
  | refresh generation modules found =>
    exact .bind ((refresh_keeps world h generation modules found).mono (fun _ _ hs => hs)
      fun _ _ hfault => hfault)
  | refreshForAddress address =>
    exact .bind ((refreshForAddress_keeps world h address).mono (fun _ _ hs => hs)
      fun _ _ hfault => hfault)
  | drainUpdates => exact consistent_drainUpdates world h time

theorem run_keeps (ops : List Op) : Keeps Never (run world ops (r, time)) := by
  induction ops generalizing r time with
  | nil => exact h
  | cons op ops ih =>
    refine .bind ((step_keeps world h op).mono (fun updates s hs => ?_) fun _ _ hfault => hfault)
    exact .bind (.bind ((ih hs).mono (fun _ _ hs' => hs') fun _ _ hfault => hfault))

end

/-- After any sequence of refreshes, refreshes on demand and drains, with any memory, clock,
images and hash orders: no subtraction of the budget went below zero, the code ranges are
those of the loaded objects, none of them empty and no two with a common address, and the
copied unwind sections are within 64 MiB each and 256 MiB together. -/
theorem registry_stays_consistent (pid : ℤ) (ops : List Op) (time : ℕ) :
    ∃ updates r time', run world ops (.new pid, time) = (.ok updates, (r, time')) ∧
      (∀ start stop id, r.codeRanges.get start = some (stop, id) ↔
        ∃ object, r.objects.get id = some object ∧ ⟨start, stop⟩ ∈ object.codeRanges) ∧
      (∀ id object, r.objects.get id = some object →
        (∀ range ∈ object.codeRanges, range.start < range.stop) ∧
        object.codeRanges.Pairwise (fun a b => a.stop ≤ b.start) ∧
        loadedCfiSize object ≤ 64 * 1024 * 1024) ∧
      (∀ id object id' object', r.objects.get id = some object → r.objects.get id' = some object' →
        id ≠ id' → ∀ range ∈ object.codeRanges, ∀ range' ∈ object'.codeRanges,
        range.stop ≤ range'.start ∨ range'.stop ≤ range.start) ∧
      r.objects.sum loadedCfiSize ≤ 256 * 1024 * 1024 := by
  have hrun : Keeps Never (run world ops (.new pid, time)) :=
    run_keeps world (consistent_of_empty rfl rfl) ops
  rcases hresult : run world ops (.new pid, time) with ⟨fault | updates, r, time'⟩
  · exact (hrun.error hresult).1.elim
  have h : Consistent r := hrun.ok hresult
  refine ⟨updates, r, time', rfl, h.layout.ranges, fun id object hget => ?_, ?_, h.budget⟩
  · have hlaid := h.layout.laid id object hget
    exact ⟨hlaid.nonempty, hlaid.ordered, h.layout.sections id object hget⟩
  · intro id object id' object' hget hget' hne range hrange range' hrange'
    have hcode := (h.layout.ranges range.start range.stop id).mpr ⟨object, hget, hrange⟩
    have hcode' := (h.layout.ranges range'.start range'.stop id').mpr ⟨object', hget', hrange'⟩
    rcases Nat.lt_trichotomy range.start range'.start with hlt | heq | hlt
    · exact .inl (h.layout.disjoint.ordered hcode hcode' hlt)
    · rw [heq, hcode'] at hcode
      exact absurd (congrArg Prod.snd (Option.some.inj hcode)).symm hne
    · exact .inr (h.layout.disjoint.ordered hcode' hcode hlt)

/-- A descriptor and a list node that name an image, or no node. -/
def processBytes (registered : Bool) (address : ℕ) : List UInt8 :=
  if address = 4096 then [1] ++ List.replicate 15 0 ++ (if registered then [0, 32] else [])
  else if address = 8192 then List.replicate 16 0 ++ [0, 48, 0, 0, 0, 0, 0, 0, 4]
  else [127, 69, 76, 70]

def padded (bytes : List UInt8) (size : ℕ) : List UInt8 :=
  (bytes ++ List.replicate size 0).take size

def oneFunction : Elf where
  is64 := true
  littleEndian := true
  relocatable := false
  sectionHeaders := [⟨none, 0, 0, false⟩, ⟨some ".text", 65536, 256, true⟩,
    ⟨some ".eh_frame", 131072, 8, false⟩]
  syms := [⟨true, 1, 65536, 16, some "f"⟩]

/-- A process that takes its registration back, and whose memory can be read for a while. -/
def process (registered readable : ℕ) : World where
  read time address size :=
    if time < readable then
      .ok (padded (processBytes (decide (time < registered)) address) size)
    else .error .permissionDenied
  length_read h := by
    split at h
    · cases h
      simp [padded]
    · cases h
  clock time := time * 1000 * 1000 * 1000
  iteration _ _ l := l.reverse
  iteration_perm _ _ l := l.reverse_perm
  parse _ := .ok oneFunction
  fingerprint bytes := bytes.length.toUInt64
  absoluteCfiHeader bytes _ _ _ := some bytes

/-- The image is loaded, handed out, found unchanged twice, and gone. -/
def processOps : List Op :=
  [.refresh 1 [] ([⟨4096, "/lib", none, none⟩], true), .drainUpdates, .refresh 1 [] ([], true),
    .refreshForAddress 65600, .refresh 1 [] ([], true), .drainUpdates]

def loadedModules : Update → Option ℕ
  | .removed _ => none
  | .loaded _ modules _ => some modules.length

theorem registry_stays_consistent_unregistered :
    (run (process 19 100) processOps (.new 7, 0)).1.toOption.map (·.map loadedModules) =
        some [some 1, none] ∧
      ∃ updates r time',
        run (process 19 100) (processOps.take 4) (.new 7, 0) = (.ok updates, (r, time')) ∧
          r.objects.sum loadedCfiSize = 8 ∧ ∃ object,
            r.objects.get ⟨8192, 12288, 4⟩ = some object ∧ ⟨65536, 65792⟩ ∈ object.codeRanges := by
  have hcode : (run (process 19 100) (processOps.take 4) (.new 7, 0)).2.1.codeRanges.get 65536 =
      some (65792, ⟨8192, 12288, 4⟩) := by decide +kernel
  have hsize : (run (process 19 100) (processOps.take 4) (.new 7, 0)).2.1.objects.sum
      loadedCfiSize = 8 := by decide +kernel
  obtain ⟨updates, r, time', hrun, hranges, -⟩ :=
    registry_stays_consistent (process 19 100) 7 (processOps.take 4) 0
  rw [hrun] at hcode hsize
  exact ⟨by decide +kernel, updates, r, time', hrun, hsize, (hranges _ _ _).mp hcode⟩

end StackPulse.JitRuns
