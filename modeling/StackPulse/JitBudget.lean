import StackPulse.JitReads
import StackPulse.JitRegistry

/-!
The budget for copied unwind sections. Loading and inspecting an object take exactly the
size of the section that is copied, never more than is left; the checks of a refresh give
back what a replaced section took. So the objects that a refresh is going to keep and
the rest of the budget always make up the whole.
-/
namespace StackPulse.JitBudget

open OrderedMap Attempts JitProtocol JitObjects JitReads JitRegistry StableSort

variable {objects : BTreeMap JitObjectId JitObject} {updates : List (JitObjectId × UnwindUpdate)}
  {id : JitObjectId} (world : World)

/-- Ranges that are not empty, each before the next. -/
structure Laid (ranges : List Range) : Prop where
  nonempty : ∀ range ∈ ranges, range.start < range.stop
  ordered : ranges.Pairwise fun a b => a.stop ≤ b.start

theorem checkedRange_size {start size : ℕ} {range : Range}
    (h : checkedRange start size = some range) :
    range.start = start ∧ range.stop = start + size := by
  unfold checkedRange at h
  split at h
  · cases h
    exact ⟨rfl, rfl⟩
  · cases h

theorem executableSectionRanges_nonempty {elf : Elf} :
    ∀ range ∈ executableSectionRanges elf, range.start < range.stop := by
  intro range hrange
  obtain ⟨header, hheader, hsome⟩ := List.mem_filterMap.mp ((mem_sortByKey _).mp hrange)
  obtain ⟨-, hkept⟩ := List.mem_filter.mp hheader
  obtain ⟨hstart, hstop⟩ := checkedRange_size hsome
  simp only [Bool.and_eq_true, decide_eq_true_eq] at hkept
  omega

/-- Sorted ranges that do not reach into the next one lie one after the other. -/
theorem pairwise_of_not_overlapping {ranges : List Range}
    (hne : ∀ range ∈ ranges, range.start < range.stop) (h : overlapping ranges = false) :
    ranges.Pairwise fun a b => a.stop ≤ b.start := by
  induction ranges with
  | nil => exact .nil
  | cons a rest ih =>
    cases rest with
    | nil => exact List.pairwise_singleton _ _
    | cons b rest =>
      unfold overlapping at h
      simp only [Bool.or_eq_false_iff, decide_eq_false_iff_not, Nat.not_lt] at h
      have hrest := ih (fun range hrange => hne range (List.mem_cons_of_mem a hrange)) h.2
      refine List.pairwise_cons.mpr ⟨fun c hc => ?_, hrest⟩
      rcases List.mem_cons.mp hc with rfl | hc
      · exact h.1
      · have hbc := (List.pairwise_cons.mp hrest).1 c hc
        have hb := hne b (by simp)
        omega

/-- An object as it was loaded: its code is laid out, its unwind section is within bounds,
and the unwinder is to get one module for each range. -/
structure Loaded (object : JitObject) : Prop where
  laid : Laid object.codeRanges
  size : loadedCfiSize object ≤ MAX_JIT_READ_SIZE
  modules : object.pendingModules.map Module.range = object.codeRanges
  symbols : object.symbols.isSome = true

theorem inspectImage_laid {data : List UInt8} {image : Image}
    (h : inspectImage world data = .ok image) : Laid image.codeRanges := by
  unfold inspectImage at h
  obtain ⟨elf, -, h⟩ := bind_ok.mp h
  split at h
  · cases h
  · dsimp only at h
    split at h
    · cases h
    · next hoverlap =>
      obtain ⟨symbols, -, h⟩ := bind_ok.mp h
      cases h
      exact ⟨executableSectionRanges_nonempty,
        pairwise_of_not_overlapping executableSectionRanges_nonempty
          (Bool.eq_false_of_not_eq_true hoverlap)⟩

theorem inspectImage_reported (data : List UInt8) :
    FailsWith Reported (inspectImage world data) := by
  refine .bind ?_ fun elf _ => .ite (fun _ => .error (jitError_reported _ _)) fun _ => ?_
  · cases world.parse data with
    | error e => exact .error fun h => nomatch h
    | ok elf => exact .ok elf
  · refine .ite (fun _ => .error (jitError_reported _ _)) fun _ => .bind ?_ fun _ _ => .ok _
    refine .ite (fun _ => .error (jitError_reported _ _)) fun _ => ?_
    exact .ite (fun _ => .error (jitError_reported _ _)) fun _ => .ok _

theorem readImage_reads (id : JitObjectId) :
    Reads (fun world => readImage world id) fun image => Laid image.codeRanges := by
  refine .ite (fun _ => .throw (jitError_reported _ _)) fun _ => ?_
  refine (readMemory_reads _ _).bind fun data _ => ?_
  exact .lift (fun _ _ => rfl) (fun world _ => inspectImage_laid world) fun world =>
    inspectImage_reported world data

theorem debit_reads {remaining size : ℕ} (h : size ≤ remaining) :
    Reads (fun _ => debit remaining size) fun left => left + size = remaining :=
  .ite (fun _ => .pure (Nat.sub_add_cancel h)) (absurd h)

/-- A section is copied as a whole and paid for, or not at all. -/
theorem copyCfi_reads (range : Option Range) (remaining : ℕ) :
    Reads (fun world => copyCfi world range remaining) fun copied =>
      (copied.1 = none ∧ copied.2 = remaining) ∨
        ∃ area bytes, range = some area ∧ copied.1 = some bytes ∧
          area.size ≤ MAX_JIT_READ_SIZE ∧ copied.2 + area.size = remaining := by
  cases range with
  | none => exact .pure (.inl ⟨rfl, rfl⟩)
  | some area =>
    refine .ite (fun _ => .pure (.inl ⟨rfl, rfl⟩)) fun hsize => ?_
    have hle := Nat.le_min.mp (Nat.not_lt.mp hsize)
    refine (readMemory_reads _ _).handle (fun bytes _ => ?_) fun _ _ => .pure (.inl ⟨rfl, rfl⟩)
    refine (debit_reads hle.1).bind fun left hleft => .pure ?_
    exact .inr ⟨area, bytes, rfl, rfl, hle.2, hleft⟩

theorem map_range_buildModules (unwind : JitUnwind) (path : String) (codeRanges : List Range)
    (bytes : Option (List UInt8)) :
    (unwind.buildModules world path codeRanges bytes).map Module.range = codeRanges := by
  cases codeRanges with
  | nil => rfl
  | cons first rest =>
    unfold JitUnwind.buildModules
    simp [Function.comp_def]

/-- Loading an object costs the size of its unwind section. -/
theorem load_reads (id : JitObjectId) (remaining : ℕ) :
    Reads (fun world => JitObject.load world id remaining) fun result =>
      Loaded result.1 ∧ result.2 + loadedCfiSize result.1 = remaining := by
  refine (readImage_reads id).bind fun image hlaid => ?_
  refine (copyCfi_reads _ remaining).bind fun copied hcopied => ?_
  refine .value (fun _ _ => rfl) fun world => ?_
  generalize placed (findSectionRange ".eh_frame" image.elf) = range at hcopied
  have hmodules := map_range_buildModules world
    (JitObject.assemble world id image range copied.1 copied.2).unwind id.path image.codeRanges
    copied.1
  rcases hcopied with ⟨hnone, hleft⟩ | ⟨area, bytes, rfl, hbytes, hsize, hleft⟩
  · have hzero : loadedCfiSize (JitObject.assemble world id image range copied.1 copied.2) = 0 := by
      show (cfiState world range copied.1 copied.2).loadedSize = 0
      rw [hnone]
      unfold cfiState
      cases range with
      | none => rfl
      | some area =>
        simp only
        split <;> rfl
    refine ⟨⟨hlaid, ?_, hmodules, rfl⟩, ?_⟩
    · rw [hzero]
      exact Nat.zero_le _
    · rw [hzero, hleft]
      rfl
  · have hloaded : loadedCfiSize
        (JitObject.assemble world id image (some area) copied.1 copied.2) = area.size := by
      show (cfiState world (some area) copied.1 copied.2).loadedSize = area.size
      rw [hbytes]
      rfl
    refine ⟨⟨hlaid, ?_, hmodules, rfl⟩, ?_⟩
    · rw [hloaded]
      exact hsize
    · rw [hloaded]
      exact hleft

/-- What an inspection reports, and what it takes from the budget. -/
def Inspected (object : JitObject) (remaining : ℕ) (result : ObjectChange × ℕ) : Prop :=
  match result.1 with
  | .unchanged => True
  | .image => result.2 = remaining
  | .unwind update =>
      result.2 + update.unwind.cfi.loadedSize = remaining ∧
        update.unwind.cfi.loadedSize ≤ MAX_JIT_READ_SIZE ∧
        update.modules.map Module.range = object.codeRanges

theorem inspectCfi_reads (object : JitObject) (id : JitObjectId) (range : Range)
    (oldFingerprint : Option UInt64) (remaining : ℕ) :
    Reads (fun world => object.inspectCfi world id range oldFingerprint remaining)
      (Inspected object remaining) := by
  refine .ite (fun _ => .throw fun h => nomatch h) fun hsize => ?_
  refine .ite (fun _ => .throw fun h => nomatch h) fun hleft => ?_
  refine (readMemory_reads _ _).bind fun bytes _ => ?_
  refine .choose (fun _ _ => Iff.rfl) (.pure trivial) ?_
  refine (debit_reads (Nat.not_lt.mp hleft)).bind fun left hpaid => ?_
  refine .value (fun _ _ => rfl) fun world => ?_
  exact ⟨hpaid, Nat.not_lt.mp hsize, map_range_buildModules world _ _ _ _⟩

theorem inspect_reads (object : JitObject) (id : JitObjectId) (remaining : ℕ) :
    Reads (fun world => object.inspect world id remaining) (Inspected object remaining) := by
  refine (readMemory_reads _ _).bind fun data _ => ?_
  refine .choose (fun _ _ => Iff.rfl) (.pure rfl) ?_
  cases object.unwind.cfi with
  | absent => exact .pure trivial
  | unreadable range => exact inspectCfi_reads object id range none remaining
  | budgetLimited range => exact inspectCfi_reads object id range none remaining
  | loaded range fingerprint => exact inspectCfi_reads object id range (some fingerprint) remaining

/-- Replace the unwind data of one object. -/
def updateObject (objects : BTreeMap JitObjectId JitObject)
    (update : JitObjectId × UnwindUpdate) : BTreeMap JitObjectId JitObject :=
  match objects.get update.1 with
  | some object => objects.insert update.1 (object.applyUnwind update.2)
  | none => objects

/-- The objects that stay if the checks are accepted, with their new unwind data. -/
def planned (r : Registry) (snapshot : JitSnapshot) (checks : Checks) :
    BTreeMap JitObjectId JitObject :=
  checks.unwindUpdates.foldl updateObject
    (r.objects.retain fun id _ => isActive snapshot.entries id && decide (id ∉ checks.invalidated))

theorem get_updateObject_of_ne {update : JitObjectId × UnwindUpdate} (h : id ≠ update.1) :
    (updateObject objects update).get id = objects.get id := by
  unfold updateObject
  split
  · rw [BTreeMap.get_insert, if_neg h]
  · rfl

theorem get_foldl_updateObject (h : ∀ update ∈ updates, id ≠ update.1) :
    (updates.foldl updateObject objects).get id = objects.get id := by
  induction updates generalizing objects with
  | nil => rfl
  | cons update updates ih =>
    rw [List.foldl_cons, ih fun other hother => h other (.tail _ hother)]
    exact get_updateObject_of_ne (h update (.head _))

theorem get_foldl_updateObject_none (h : objects.get id = none) :
    (updates.foldl updateObject objects).get id = none := by
  induction updates generalizing objects with
  | nil => exact h
  | cons update updates ih =>
    apply ih
    by_cases heq : id = update.1
    · unfold updateObject
      rw [← heq, h]
      exact h
    · rw [get_updateObject_of_ne heq]
      exact h

/-- Updates of other objects can be made before or after one is removed. -/
theorem foldl_updateObject_remove (h : ∀ update ∈ updates, id ≠ update.1) :
    updates.foldl updateObject (objects.remove id) =
      (updates.foldl updateObject objects).remove id := by
  induction updates generalizing objects with
  | nil => rfl
  | cons update updates ih =>
    have hne := h update (.head _)
    have hswap : updateObject (objects.remove id) update =
        (updateObject objects update).remove id := by
      unfold updateObject
      rw [BTreeMap.get_remove, if_neg (Ne.symm hne)]
      split
      · apply BTreeMap.ext_get
        intro k
        simp only [BTreeMap.get_insert, BTreeMap.get_remove]
        by_cases hk : k = update.1
        · simp [hk, Ne.symm hne]
        · simp [hk]
      · rfl
    rw [List.foldl_cons, List.foldl_cons, hswap]
    exact ih fun other hother => h other (.tail _ hother)

section

variable (poll : ℕ) (revalidate : Bool) (r : Registry) (snapshot : JitSnapshot)
  {unchecked : List JitObjectId} {checks : Checks} {object : JitObject}

/-- The checks so far: the budget is divided between the planned objects and what is left,
and the objects still to be checked are as they were. -/
structure Accounted (checks : Checks) (unchecked : List JitObjectId) : Prop where
  balance : (planned r snapshot checks).sum loadedCfiSize + checks.remaining =
    MAX_JIT_TOTAL_CFI_SIZE
  valid : ∀ id ∈ unchecked, id ∉ checks.invalidated
  kept : ∀ id ∈ unchecked, ∀ update ∈ checks.unwindUpdates, id ≠ update.1
  sizes : ∀ update ∈ checks.unwindUpdates,
    update.2.unwind.cfi.loadedSize ≤ MAX_JIT_READ_SIZE
  modules : ∀ update ∈ checks.unwindUpdates, ∃ object, r.objects.get update.1 = some object ∧
    update.2.modules.map Module.range = object.codeRanges

variable {r snapshot}

/-- An object that was not checked yet is planned as it is. -/
theorem Accounted.get_planned (h : Accounted r snapshot checks unchecked) (hid : id ∈ unchecked)
    (hactive : isActive snapshot.entries id = true) (hget : r.objects.get id = some object) :
    (planned r snapshot checks).get id = some object := by
  unfold planned
  rw [get_foldl_updateObject (h.kept id hid), BTreeMap.get_retain]
  refine ⟨hget, ?_⟩
  rw [hactive, decide_eq_true (h.valid id hid)]
  rfl

section

variable (h : Accounted r snapshot checks (id :: unchecked))

include h

theorem Accounted.tail : Accounted r snapshot checks unchecked :=
  ⟨h.balance, fun id hid => h.valid id (.tail _ hid),
    fun id hid => h.kept id (.tail _ hid), h.sizes, h.modules⟩

/-- Giving up an object gives its part of the budget back. -/
theorem Accounted.invalidate (hnodup : id ∉ unchecked)
    (hactive : isActive snapshot.entries id = true) (hget : r.objects.get id = some object) :
    Accounted r snapshot
      { checks with
        invalidated := checks.invalidated ++ [id]
        remaining := checks.remaining + loadedCfiSize object } unchecked := by
  have hremoved : (r.objects.retain fun id' _ => isActive snapshot.entries id' &&
        decide (id' ∉ checks.invalidated ++ [id])) =
      (r.objects.retain fun id' _ => isActive snapshot.entries id' &&
        decide (id' ∉ checks.invalidated)).remove id := by
    apply BTreeMap.ext_get
    intro k
    apply Option.ext
    intro v
    rw [BTreeMap.get_retain, BTreeMap.get_remove]
    by_cases hk : k = id
    · simp [hk]
    · rw [if_neg hk, BTreeMap.get_retain]
      simp [hk]
  have hplanned := h.get_planned (.head _) hactive hget
  have hsum := BTreeMap.sum_remove (planned r snapshot checks) loadedCfiSize id
  rw [hplanned] at hsum
  refine ⟨?_, ?_, h.tail.kept, h.sizes, h.modules⟩
  · have hbalance := h.balance
    unfold planned
    rw [hremoved, foldl_updateObject_remove (h.kept id (.head _))]
    change ((planned r snapshot checks).remove id).sum loadedCfiSize +
      (checks.remaining + loadedCfiSize object) = _
    have hsize : Option.elim (some object) 0 loadedCfiSize = loadedCfiSize object := rfl
    omega
  · intro other hother hmem
    rcases List.mem_append.mp hmem with hmem | hmem
    · exact h.tail.valid other hother hmem
    · rw [List.mem_singleton.mp hmem] at hother
      exact hnodup hother

/-- New unwind data is paid from the budget and the part of the old. -/
theorem Accounted.update (hnodup : id ∉ unchecked) (hactive : isActive snapshot.entries id = true)
    (hget : r.objects.get id = some object) {update : UnwindUpdate} {remaining : ℕ}
    (hinspected : Inspected object (checks.remaining + loadedCfiSize object)
      (.unwind update, remaining)) : Accounted r snapshot
      { checks with
        unwindUpdates := checks.unwindUpdates ++ [(id, update)]
        remaining := remaining } unchecked := by
  obtain ⟨hpaid, hsize, hmodules⟩ := hinspected
  have hplanned := h.get_planned (.head _) hactive hget
  have hsum := BTreeMap.sum_insert (planned r snapshot checks) loadedCfiSize id
    (object.applyUnwind update)
  rw [hplanned] at hsum
  refine ⟨?_, h.tail.valid, ?_, ?_, ?_⟩
  · have hbalance := h.balance
    have happlied : planned r snapshot { checks with
          unwindUpdates := checks.unwindUpdates ++ [(id, update)]
          remaining := remaining } =
        (planned r snapshot checks).insert id (object.applyUnwind update) := by
      have hfold : planned r snapshot { checks with
            unwindUpdates := checks.unwindUpdates ++ [(id, update)]
            remaining := remaining } =
          updateObject (planned r snapshot checks) (id, update) := List.foldl_append
      rw [hfold]
      unfold updateObject
      rw [hplanned]
    rw [happlied]
    have hold : Option.elim (some object) 0 loadedCfiSize = loadedCfiSize object := rfl
    have hnew : loadedCfiSize (object.applyUnwind update) = update.unwind.cfi.loadedSize := rfl
    show _ + remaining = _
    simp only at hpaid
    omega
  · intro other hother entry hentry
    rcases List.mem_append.mp hentry with hmem | hmem
    · exact h.tail.kept other hother entry hmem
    · rw [List.mem_singleton.mp hmem]
      intro heq
      rw [heq] at hother
      exact hnodup hother
  · exact List.forall_mem_append.mpr ⟨h.sizes, List.forall_mem_singleton.mpr hsize⟩
  · exact List.forall_mem_append.mpr ⟨h.modules,
      List.forall_mem_singleton.mpr ⟨object, hget, hmodules⟩⟩

end

/-- The lists of failures do not touch the account. -/
theorem Accounted.congr {checks' : Checks} (h : Accounted r snapshot checks unchecked)
    (hinvalidated : checks'.invalidated = checks.invalidated)
    (hupdates : checks'.unwindUpdates = checks.unwindUpdates)
    (hremaining : checks'.remaining = checks.remaining) :
    Accounted r snapshot checks' unchecked := by
  have hplanned : planned r snapshot checks' = planned r snapshot checks := by
    unfold planned
    rw [hinvalidated, hupdates]
  exact ⟨by rw [hplanned, hremaining]; exact h.balance, hinvalidated ▸ h.valid, hupdates ▸ h.kept,
    hupdates ▸ h.sizes, hupdates ▸ h.modules⟩

theorem Accounted.noteChecked (h : Accounted r snapshot checks unchecked) (id : JitObjectId) :
    Accounted r snapshot (checks.noteChecked r id) unchecked := by
  unfold Checks.noteChecked
  split
  · exact h.congr rfl rfl rfl
  · exact h

variable (r snapshot)

/-- One check keeps the account. -/
theorem checkObject_reads (checks : Checks) (entry : JitObjectId × JitObject) :
    Reads (fun world => checkObject world poll revalidate r snapshot checks entry) fun checks' =>
      ∀ unchecked, Accounted r snapshot checks (entry.1 :: unchecked) → entry.1 ∉ unchecked →
        r.objects.get entry.1 = some entry.2 → Accounted r snapshot checks' unchecked := by
  refine .ite (fun _ => .pure fun _ h _ _ => h.tail) fun hactive => ?_
  have hactive := Bool.eq_true_of_not_eq_false hactive
  refine .ite (fun _ => .pure fun _ h hnodup hget => h.invalidate hnodup hactive hget) fun _ => ?_
  refine .ite (fun _ => .pure fun _ h _ _ => h.tail) fun _ => ?_
  refine (inspect_reads entry.2 entry.1 _).handle (fun found hinspected => .pure ?_)
    fun fault hreported => ?_
  · intro unchecked h hnodup hget
    obtain ⟨change, remaining⟩ := found
    cases change with
    | unchanged => exact h.tail.noteChecked entry.1
    | image =>
      have hremaining : remaining = checks.remaining + loadedCfiSize entry.2 := hinspected
      rw [hremaining]
      exact h.invalidate hnodup hactive hget
    | unwind update => exact (h.update hnodup hactive hget hinspected).noteChecked entry.1
  · cases fault with
    | underflow => exact absurd rfl hreported
    | read e => exact .pure fun _ h _ _ => h.tail.congr rfl rfl rfl
    | limit text => exact .pure fun _ h _ _ => h.tail.congr rfl rfl rfl

theorem checkObjects_reads (entries : List (JitObjectId × JitObject)) (checks : Checks) :
    Reads (fun world => checkObjects world poll revalidate r snapshot entries checks) fun checks' =>
      Accounted r snapshot checks (entries.map Prod.fst) → (entries.map Prod.fst).Nodup →
        (∀ entry ∈ entries, r.objects.get entry.1 = some entry.2) →
        Accounted r snapshot checks' [] := by
  induction entries generalizing checks with
  | nil => exact .pure fun h _ _ => h
  | cons entry entries ih =>
    refine (checkObject_reads poll revalidate r snapshot checks entry).bind fun checks' hone =>
      (ih checks').mono fun _ hall h hnodup hget => ?_
    obtain ⟨hfirst, hrest⟩ := List.nodup_cons.mp hnodup
    exact hall (hone _ h hfirst (hget entry (.head _))) hrest fun entry hentry =>
      hget entry (.tail _ hentry)

variable {r snapshot}

theorem initialChecks_accounted (hbudget : r.objects.sum loadedCfiSize ≤ MAX_JIT_TOTAL_CFI_SIZE)
    (unchecked : List JitObjectId) : Accounted r snapshot (initialChecks r snapshot) unchecked := by
  have hplanned : planned r snapshot (initialChecks r snapshot) =
      r.objects.retain fun id _ => isActive snapshot.entries id := by
    apply BTreeMap.ext_get
    intro k
    apply Option.ext
    intro v
    simp [planned, initialChecks, BTreeMap.get_retain]
  refine ⟨?_, fun _ _ => List.not_mem_nil, fun _ _ _ h => (nomatch h), fun _ h => (nomatch h),
    fun _ h => (nomatch h)⟩
  have hsplit := BTreeMap.sum_retain r.objects loadedCfiSize fun id _ =>
    isActive snapshot.entries id
  rw [hplanned]
  unfold initialChecks
  simp only
  omega

end

/-- The unwind data of loaded candidates. -/
def updateSize (update : JitObjectId × Except Fault JitObject) : ℕ :=
  match update.2 with
  | .ok object => loadedCfiSize object
  | .error _ => 0

/-- Loads stay within what is left, for the registrations in their order. -/
theorem loadAll_reads (ids : List JitObjectId) (remaining : ℕ) :
    Reads (fun world => loadAll world ids remaining) fun updates =>
      updates.map Prod.fst = ids ∧ (updates.map updateSize).sum ≤ remaining ∧
        ∀ id object, (id, Except.ok object) ∈ updates → Loaded object := by
  induction ids generalizing remaining with
  | nil => exact .pure ⟨rfl, Nat.zero_le _, fun _ _ h => (nomatch h)⟩
  | cons id ids ih =>
    refine (load_reads id remaining).handle (fun loaded hload => ?_) fun fault hreported => ?_
    · obtain ⟨object, left⟩ := loaded
      obtain ⟨hobject, hpaid⟩ := hload
      refine (ih left).bind fun updates hupdates => .pure ?_
      obtain ⟨hids, hsum, hloaded⟩ := hupdates
      refine ⟨by rw [List.map_cons, hids], ?_, fun id' object' hmem => ?_⟩
      · rw [List.map_cons, List.sum_cons]
        show loadedCfiSize object + _ ≤ _
        simp only at hpaid
        omega
      · rcases List.mem_cons.mp hmem with heq | hmem
        · cases heq
          exact hobject
        · exact hloaded id' object' hmem
    · have hunloaded : Reads (fun _ => unloaded id fault) fun update =>
          update = (id, .error fault) := by
        cases fault with
        | underflow => exact absurd rfl hreported
        | read e => exact .pure rfl
        | limit text => exact .pure rfl
      refine hunloaded.bind fun update hupdate => ?_
      refine (ih remaining).bind fun updates hupdates => .pure ?_
      obtain ⟨hids, hsum, hloaded⟩ := hupdates
      rw [hupdate]
      refine ⟨by rw [List.map_cons, hids], ?_, fun id object hmem => ?_⟩
      · rw [List.map_cons, List.sum_cons]
        show 0 + _ ≤ _
        omega
      · rcases List.mem_cons.mp hmem with heq | hmem
        · cases heq
        · exact hloaded id object hmem

end StackPulse.JitBudget
