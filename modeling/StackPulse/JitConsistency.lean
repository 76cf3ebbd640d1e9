import StackPulse.JitBudget

/-!
The invariant of the JIT registry. The code ranges are those of the loaded objects, no
two of them meet, and the copied unwind sections are within the budget. Every call keeps
this, whatever the memory of the process does meanwhile, and no subtraction of the
budget goes below zero.
-/
namespace StackPulse.JitConsistency

open OrderedMap IntervalMap JitProtocol JitObjects JitReads JitRegistry JitBudget StableSort

variable {b a : BTreeMap JitObjectId JitObject} {r : Registry} {id : JitObjectId} {r' : Registry}

/-- The code ranges are exactly those of the objects, and disjoint. -/
structure Layout (r : Registry) : Prop where
  ranges : ∀ start stop id, r.codeRanges.get start = some (stop, id) ↔
    ∃ object, r.objects.get id = some object ∧ ⟨start, stop⟩ ∈ object.codeRanges
  disjoint : Disjoint Prod.fst r.codeRanges
  laid : ∀ id object, r.objects.get id = some object → Laid object.codeRanges
  sections : ∀ id object, r.objects.get id = some object →
    loadedCfiSize object ≤ MAX_JIT_READ_SIZE

theorem Layout.congr (h : Layout r) (hobjects : r'.objects = r.objects)
    (hranges : r'.codeRanges = r.codeRanges) : Layout r' :=
  ⟨by rw [hobjects, hranges]; exact h.ranges, hranges ▸ h.disjoint, hobjects ▸ h.laid,
    hobjects ▸ h.sections⟩

/-- An object can change in anything but its code. -/
theorem Layout.replace (h : Layout r) {object object' : JitObject}
    (hget : r.objects.get id = some object) (hcode : object'.codeRanges = object.codeRanges)
    (hsize : loadedCfiSize object' ≤ MAX_JIT_READ_SIZE)
    (hobjects : r'.objects = r.objects.insert id object') (hranges : r'.codeRanges = r.codeRanges) :
    Layout r' := by
  have hobject : ∀ id' o, r'.objects.get id' = some o → ∃ o', r.objects.get id' = some o' ∧
      o.codeRanges = o'.codeRanges ∧ (o = o' ∨ o = object') := by
    intro id' o ho
    rw [hobjects, BTreeMap.get_insert] at ho
    split at ho
    · next heq =>
      cases ho
      exact ⟨object, heq ▸ hget, hcode, .inr rfl⟩
    · exact ⟨o, ho, rfl, .inl rfl⟩
  refine ⟨fun start stop id' => ?_, hranges ▸ h.disjoint, fun id' o ho => ?_, fun id' o ho => ?_⟩
  · rw [hranges, h.ranges]
    constructor
    · rintro ⟨o, ho, hmem⟩
      by_cases heq : id' = id
      · rw [heq, hget] at ho
        cases ho
        exact ⟨object', by rw [hobjects, BTreeMap.get_insert, if_pos heq], hcode ▸ hmem⟩
      · exact ⟨o, by rw [hobjects, BTreeMap.get_insert, if_neg heq]; exact ho, hmem⟩
    · rintro ⟨o, ho, hmem⟩
      obtain ⟨o', ho', hsame, -⟩ := hobject id' o ho
      exact ⟨o', ho', hsame ▸ hmem⟩
  · obtain ⟨o', ho', hsame, -⟩ := hobject id' o ho
    exact hsame ▸ h.laid id' o' ho'
  · obtain ⟨o', ho', -, heq⟩ := hobject id' o ho
    rcases heq with rfl | rfl
    · exact h.sections id' o ho'
    · exact hsize

theorem get_removeRanges (codeRanges : BTreeMap ℕ (ℕ × JitObjectId)) (ranges : List Range) (k : ℕ) :
    (Registry.removeRanges codeRanges ranges).get k =
      if k ∈ ranges.map Range.start then none else codeRanges.get k := by
  unfold Registry.removeRanges
  induction ranges generalizing codeRanges with
  | nil => rfl
  | cons range ranges ih =>
    rw [List.foldl_cons, ih, BTreeMap.get_remove, List.map_cons]
    by_cases hmem : k ∈ ranges.map Range.start
    · rw [if_pos hmem, if_pos (.tail _ hmem)]
    · rw [if_neg hmem]
      by_cases hk : k = range.start
      · rw [if_pos hk, if_pos (by rw [hk]; exact List.mem_cons_self)]
      · rw [if_neg hk, if_neg (by rw [List.mem_cons]; exact not_or.mpr ⟨hk, hmem⟩)]

theorem get_insertRanges {codeRanges : BTreeMap ℕ (ℕ × JitObjectId)} {ranges : List Range}
    (hlaid : Laid ranges) {k : ℕ} {v : ℕ × JitObjectId} :
    (Registry.insertRanges codeRanges id ranges).get k = some v ↔
      (∃ range ∈ ranges, range.start = k ∧ v = (range.stop, id)) ∨
        ((∀ range ∈ ranges, range.start ≠ k) ∧ codeRanges.get k = some v) := by
  unfold Registry.insertRanges
  induction ranges generalizing codeRanges with
  | nil => simp
  | cons range ranges ih =>
    obtain ⟨hfirst, hrest⟩ := List.pairwise_cons.mp hlaid.ordered
    have hne := hlaid.nonempty range (.head _)
    have hlaid' : Laid ranges := ⟨fun r hr => hlaid.nonempty r (.tail _ hr), hrest⟩
    -- the first range starts before the others, so they do not replace it
    have hother : ∀ r ∈ ranges, r.start ≠ range.start := by
      intro r hr heq
      have hle := hfirst r hr
      omega
    rw [List.foldl_cons, ih hlaid', BTreeMap.get_insert]
    by_cases hk : k = range.start
    · subst hk
      rw [if_pos rfl]
      constructor
      · rintro (⟨r, hr, heq, -⟩ | ⟨-, hv⟩)
        · exact absurd heq (hother r hr)
        · exact .inl ⟨range, .head _, rfl, (Option.some.inj hv).symm⟩
      · rintro (⟨r, hr, heq, hv⟩ | ⟨hnone, -⟩)
        · rcases List.mem_cons.mp hr with rfl | hr
          · exact .inr ⟨fun r hr => hother r hr, by rw [hv]⟩
          · exact absurd heq (hother r hr)
        · exact absurd rfl (hnone range (.head _))
    · rw [if_neg hk]
      simp [Ne.symm hk]

theorem disjoint_insertRanges {codeRanges : BTreeMap ℕ (ℕ × JitObjectId)} {ranges : List Range}
    (h : Disjoint Prod.fst codeRanges) (hlaid : Laid ranges)
    (hfree : ∀ range ∈ ranges, ∀ k v, codeRanges.get k = some v → k < range.stop →
      v.1 ≤ range.start) : Disjoint Prod.fst (Registry.insertRanges codeRanges id ranges) := by
  unfold Registry.insertRanges
  induction ranges generalizing codeRanges with
  | nil => exact h
  | cons range ranges ih =>
    obtain ⟨hfirst, hrest⟩ := List.pairwise_cons.mp hlaid.ordered
    have hne := hlaid.nonempty range (.head _)
    apply ih (h.insert hne (hfree range (.head _)))
      ⟨fun r hr => hlaid.nonempty r (.tail _ hr), hrest⟩
    intro r hr k v hget hlt
    rw [BTreeMap.get_insert] at hget
    split at hget
    · cases hget
      exact hfirst r hr
    · exact hfree r (.tail _ hr) k v hget hlt

section

/-- Retired objects leave with all their code. -/
theorem Layout.retire (h : Layout r) (entries : BTreeMap ℕ JitCodeEntry)
    (invalidated : List JitObjectId) : Layout (r.retire entries invalidated) := by
  have hkept : ∀ id object, (r.retire entries invalidated).objects.get id = some object →
      r.objects.get id = some object := fun id object hget => (BTreeMap.get_retain.mp hget).1
  have hranges : ∀ start v, (r.retire entries invalidated).codeRanges.get start = some v →
      r.codeRanges.get start = some v := by
    intro start v hget
    have hremoved : (Registry.removeRanges r.codeRanges _).get start = some v := hget
    rw [get_removeRanges] at hremoved
    split at hremoved
    · cases hremoved
    · exact hremoved
  refine ⟨fun start stop id => ?_, h.disjoint.mono hranges, fun id object hget =>
    h.laid id object (hkept id object hget), fun id object hget =>
    h.sections id object (hkept id object hget)⟩
  constructor
  · intro hget
    obtain ⟨object, hobject, hmem⟩ := (h.ranges start stop id).mp (hranges start _ hget)
    refine ⟨object, BTreeMap.get_retain.mpr ⟨hobject, ?_⟩, hmem⟩
    by_contra hretired
    have hremoved : (Registry.removeRanges r.codeRanges _).get start = some (stop, id) := hget
    rw [get_removeRanges, if_pos ?_] at hremoved
    · cases hremoved
    · refine List.mem_map.mpr ⟨⟨start, stop⟩, List.mem_flatMap.mpr ⟨(id, object), ?_, hmem⟩, rfl⟩
      apply BTreeMap.get_eq_some.mp
      refine BTreeMap.get_retain.mpr ⟨hobject, ?_⟩
      rw [Bool.eq_false_of_not_eq_true hretired]
      rfl
  · rintro ⟨object, hobject, hmem⟩
    obtain ⟨hobject, hactive⟩ := BTreeMap.get_retain.mp hobject
    have hget := (h.ranges start stop id).mpr ⟨object, hobject, hmem⟩
    show (Registry.removeRanges r.codeRanges _).get start = some (stop, id)
    rw [get_removeRanges, if_neg ?_]
    · exact hget
    · -- a start belongs to one object only, and that one stays
      intro hstart
      obtain ⟨range, hrange, hrs⟩ := List.mem_map.mp hstart
      obtain ⟨⟨id', object'⟩, hentry, hmem'⟩ := List.mem_flatMap.mp hrange
      obtain ⟨hobject', hretired⟩ := BTreeMap.get_retain.mp (BTreeMap.get_eq_some.mpr hentry)
      have hget' := (h.ranges range.start range.stop id').mpr ⟨object', hobject', hmem'⟩
      rw [hrs, hget] at hget'
      have hid : id = id' := congrArg Prod.snd (Option.some.inj hget')
      rw [← hid, hactive] at hretired
      cases hretired

theorem loadedCfiSize_markBudgetLimited (object : JitObject) :
    loadedCfiSize object.markBudgetLimited = loadedCfiSize object := by
  show object.unwind.cfi.markBudgetLimited.loadedSize = object.unwind.cfi.loadedSize
  cases object.unwind.cfi <;> rfl

theorem noteFailed_cases (poll : ℕ) (r : Registry) (failed : JitObjectId × Bool) :
    (Registry.noteFailed poll r failed).codeRanges = r.codeRanges ∧
      ((Registry.noteFailed poll r failed).objects = r.objects ∨
        ∃ object, r.objects.get failed.1 = some object ∧
          (Registry.noteFailed poll r failed).objects =
            r.objects.insert failed.1 object.markBudgetLimited) := by
  unfold Registry.noteFailed
  split
  · split
    · next object hget => exact ⟨rfl, .inr ⟨object, hget, rfl⟩⟩
    · exact ⟨rfl, .inl rfl⟩
  · exact ⟨rfl, .inl rfl⟩

theorem applyUnwind_eq (r : Registry) (update : JitObjectId × UnwindUpdate) :
    (r.applyUnwind update).codeRanges = r.codeRanges ∧
      (r.applyUnwind update).objects = updateObject r.objects update := by
  unfold Registry.applyUnwind updateObject
  cases r.objects.get update.1 with
  | some object => exact ⟨rfl, rfl⟩
  | none => exact ⟨rfl, rfl⟩

theorem Layout.noteFailed (h : Layout r) (poll : ℕ) (failed : JitObjectId × Bool) :
    Layout (Registry.noteFailed poll r failed) := by
  obtain ⟨hranges, hsame | ⟨object, hget, hobjects⟩⟩ := noteFailed_cases poll r failed
  · exact h.congr hsame hranges
  · have hcode : object.markBudgetLimited.codeRanges = object.codeRanges := rfl
    refine h.replace hget hcode ?_ hobjects hranges
    rw [loadedCfiSize_markBudgetLimited]
    exact h.sections failed.1 object hget

theorem Layout.applyUnwind (h : Layout r) {update : JitObjectId × UnwindUpdate}
    (hsize : update.2.unwind.cfi.loadedSize ≤ MAX_JIT_READ_SIZE) :
    Layout (r.applyUnwind update) := by
  obtain ⟨hranges, hobjects⟩ := applyUnwind_eq r update
  unfold updateObject at hobjects
  split at hobjects
  · next object hget =>
    have hcode : (object.applyUnwind update.2).codeRanges = object.codeRanges := rfl
    exact h.replace hget hcode hsize hobjects hranges
  · exact h.congr hobjects hranges

/-- A new object is admitted only where no code is. -/
theorem Layout.adopt (h : Layout r) (poll : ℕ) {update : JitObjectId × Except Fault JitObject}
    (hnew : r.objects.get update.1 = none)
    (hloaded : ∀ object, update.2 = .ok object → Loaded object) :
    Layout (Registry.adopt poll r update) := by
  unfold Registry.adopt
  split
  · next object hobject =>
    have hl := hloaded object hobject
    split
    · exact h.congr rfl rfl
    · next hfree =>
      have hmeets : ∀ range ∈ object.codeRanges, ∀ k v, r.codeRanges.get k = some v →
          k < range.stop → v.1 ≤ range.start := by
        intro range hrange k v hget hlt
        by_contra hle
        apply hfree
        apply List.any_eq_true.mpr
        exact ⟨range, hrange, h.disjoint.meets_iff.mpr ⟨k, v, hget, hlt, Nat.not_le.mp hle⟩⟩
      have hobjects : ∀ {id o}, (r.objects.insert update.1 object).get id = some o →
          object = o ∨ r.objects.get id = some o := by
        intro id o ho
        rw [BTreeMap.get_insert] at ho
        split at ho
        · exact .inl (Option.some.inj ho)
        · exact .inr ho
      refine ⟨fun start stop id => ?_, disjoint_insertRanges h.disjoint hl.laid hmeets,
        fun id o ho => ?_, fun id o ho => ?_⟩
      · rw [get_insertRanges hl.laid]
        show _ ↔ ∃ o, (r.objects.insert update.1 object).get id = some o ∧ _
        simp only [BTreeMap.get_insert]
        constructor
        · rintro (⟨range, hrange, hstart, hv⟩ | ⟨-, hget⟩)
          · cases hv
            exact ⟨object, if_pos rfl, hstart ▸ hrange⟩
          · obtain ⟨o, ho, hmem⟩ := (h.ranges start stop id).mp hget
            have hne : id ≠ update.1 := by
              rintro rfl
              rw [hnew] at ho
              cases ho
            exact ⟨o, (if_neg hne).trans ho, hmem⟩
        · rintro ⟨o, ho, hmem⟩
          by_cases hid : id = update.1
          · rw [if_pos hid] at ho
            cases ho
            exact .inl ⟨⟨start, stop⟩, hmem, rfl, by rw [hid]⟩
          · rw [if_neg hid] at ho
            have hget := (h.ranges start stop id).mpr ⟨o, ho, hmem⟩
            refine .inr ⟨fun range hrange hstart => ?_, hget⟩
            -- the range of another object cannot start where a new range starts
            have hne := hl.laid.nonempty range hrange
            have hle := hmeets range hrange start (stop, id) hget (by omega)
            have hlt := h.disjoint.nonempty hget
            simp only at hle hlt
            omega
      · rcases hobjects ho with rfl | ho
        · exact hl.laid
        · exact h.laid id o ho
      · rcases hobjects ho with rfl | ho
        · exact hl.size
        · exact h.sections id o ho
  · exact h.congr rfl rfl

end

/-- The same objects, with unwind sections of the same size. -/
def SameSizes (objects objects' : BTreeMap JitObjectId JitObject) : Prop :=
  ∀ id, (objects'.get id).map loadedCfiSize = (objects.get id).map loadedCfiSize

theorem SameSizes.trans {c : BTreeMap JitObjectId JitObject} (h : SameSizes a b)
    (h' : SameSizes b c) : SameSizes a c := fun id => (h' id).trans (h id)

theorem SameSizes.get_none (h : SameSizes a b) (hget : a.get id = none) : b.get id = none := by
  have hid := h id
  rw [hget] at hid
  exact Option.map_eq_none_iff.mp hid

theorem SameSizes.noteFailed (poll : ℕ) (r : Registry) (failed : JitObjectId × Bool) :
    SameSizes r.objects (Registry.noteFailed poll r failed).objects := by
  intro id
  obtain ⟨-, hsame | ⟨object, hget, hobjects⟩⟩ := noteFailed_cases poll r failed
  · rw [hsame]
  · rw [hobjects, BTreeMap.get_insert]
    split
    · next heq =>
      rw [heq, hget, Option.map_some, Option.map_some, loadedCfiSize_markBudgetLimited]
    · rfl

theorem SameSizes.updateObject (h : SameSizes a b) (update : JitObjectId × UnwindUpdate) :
    SameSizes (updateObject a update) (updateObject b update) := by
  intro id
  have hid := h update.1
  unfold JitBudget.updateObject
  cases ha : a.get update.1 with
  | none =>
    rw [h.get_none ha]
    exact h id
  | some object =>
    rw [ha, Option.map_some] at hid
    obtain ⟨object', hb, -⟩ := Option.map_eq_some_iff.mp hid
    simp only [hb, BTreeMap.get_insert]
    split
    · rfl
    · exact h id

section

variable (poll : ℕ) {snapshot : JitSnapshot} {candidate : Candidate}

/-- The registry before new objects are admitted. -/
def settled (r : Registry) (poll : ℕ) (snapshot : JitSnapshot) (checks : Checks) : Registry :=
  checks.unwindUpdates.foldl Registry.applyUnwind
    (checks.failedChecks.foldl (Registry.noteFailed poll)
      ((r.retire snapshot.entries checks.invalidated).settleFailures snapshot.entries
        checks.checked))

/-- Marking failed checks leaves the code and the sizes. -/
theorem foldl_noteFailed (h : Layout r) (failed : List (JitObjectId × Bool)) :
    Layout (failed.foldl (Registry.noteFailed poll) r) ∧
      SameSizes r.objects (failed.foldl (Registry.noteFailed poll) r).objects := by
  induction failed generalizing r with
  | nil => exact ⟨h, fun _ => rfl⟩
  | cons first failed ih =>
    obtain ⟨hlayout, hsizes⟩ := ih (h.noteFailed poll first)
    exact ⟨hlayout, (SameSizes.noteFailed poll r first).trans hsizes⟩

/-- Updates of unwind data leave the code, and the sizes that were planned. -/
theorem foldl_applyUnwind (h : Layout r) {objects : BTreeMap JitObjectId JitObject}
    (hsizes : SameSizes objects r.objects) {updates : List (JitObjectId × UnwindUpdate)}
    (hbounds : ∀ update ∈ updates, update.2.unwind.cfi.loadedSize ≤ MAX_JIT_READ_SIZE) :
    Layout (updates.foldl Registry.applyUnwind r) ∧
      SameSizes (updates.foldl updateObject objects)
        (updates.foldl Registry.applyUnwind r).objects := by
  induction updates generalizing r objects with
  | nil => exact ⟨h, hsizes⟩
  | cons update updates ih =>
    apply ih (h.applyUnwind (hbounds update (.head _)))
    · rw [(applyUnwind_eq r update).2]
      exact hsizes.updateObject update
    · exact fun other hother => hbounds other (.tail _ hother)

theorem settled_layout (h : Layout r)
    (hchecks : Accounted r snapshot candidate.checks []) :
    Layout (settled r poll snapshot candidate.checks) ∧
      SameSizes (planned r snapshot candidate.checks)
        (settled r poll snapshot candidate.checks).objects := by
  have hretired := h.retire snapshot.entries candidate.checks.invalidated
  have hstart : Layout ((r.retire snapshot.entries candidate.checks.invalidated).settleFailures
      snapshot.entries candidate.checks.checked) := hretired.congr rfl rfl
  obtain ⟨hlayout, hsizes⟩ := foldl_noteFailed poll hstart candidate.checks.failedChecks
  exact foldl_applyUnwind hlayout hsizes hchecks.sizes

/-- A pending registration, before the order is made. -/
theorem pendingIds_spec {invalidated : List JitObjectId}
    (h : id ∈ pendingIds poll r snapshot invalidated) :
    r.objects.get id = none ∨ id ∈ invalidated := by
  obtain ⟨entry, -, hsome⟩ := List.mem_filterMap.mp ((mem_sortByKey _).mp h)
  simp only at hsome
  split at hsome
  · next hcond =>
    cases hsome
    exact hcond.1.imp Option.isNone_iff_eq_none.mp id
  · cases hsome

/-- An object to be loaded is not among those that stay. -/
theorem planned_get_of_pending {checks : Checks}
    (hpending : id ∈ pendingIds poll r snapshot checks.invalidated) :
    (planned r snapshot checks).get id = none := by
  apply get_foldl_updateObject_none
  apply Option.eq_none_iff_forall_ne_some.mpr
  intro object hget
  obtain ⟨hobject, hkept⟩ := BTreeMap.get_retain.mp hget
  rcases pendingIds_spec poll hpending with hnone | hinvalidated
  · rw [hobject] at hnone
    cases hnone
  · simp [hinvalidated] at hkept

theorem pendingIds_nodup (r : Registry) (snapshot : JitSnapshot) (invalidated : List JitObjectId) :
    (pendingIds poll r snapshot invalidated).Nodup := by
  unfold pendingIds sortByKey
  rw [(List.perm_insertionSort _ _).nodup_iff]
  refine List.pairwise_filterMap.mpr (snapshot.entries.sorted.imp fun {a b} hlt => ?_)
  -- an identity holds the address of its entry
  intro id hid id' hid' heq
  have haddress : ∀ {e : ℕ × JitCodeEntry} {id : JitObjectId}, (if
      ((r.objects.get (JitObjectId.new e.1 e.2)).isNone = true ∨
          JitObjectId.new e.1 e.2 ∈ invalidated) ∧
        (r.loadFailures.get (JitObjectId.new e.1 e.2)).any
          (fun failure => decide (poll < failure.retryAt)) = false then
      some (JitObjectId.new e.1 e.2) else none) = some id → id.entryAddr = e.1 := by
    intro e id hsome
    split at hsome
    · cases hsome
      rfl
    · cases hsome
  have ha := haddress hid
  have hb := haddress hid'
  rw [heq, hb] at ha
  exact absurd ha hlt.ne'

/-- Candidates that fit into the budget are admitted or left out, one after the other. -/
theorem foldl_adopt (h : Layout r)
    {updates : List (JitObjectId × Except Fault JitObject)}
    (hbudget : r.objects.sum loadedCfiSize + (updates.map updateSize).sum ≤ MAX_JIT_TOTAL_CFI_SIZE)
    (hnew : ∀ id ∈ updates.map Prod.fst, r.objects.get id = none)
    (hnodup : (updates.map Prod.fst).Nodup)
    (hloaded : ∀ id object, (id, Except.ok object) ∈ updates → Loaded object) :
    Layout (updates.foldl (Registry.adopt poll) r) ∧
      (updates.foldl (Registry.adopt poll) r).objects.sum loadedCfiSize ≤
        MAX_JIT_TOTAL_CFI_SIZE := by
  induction updates generalizing r with
  | nil => exact ⟨h, hbudget⟩
  | cons update updates ih =>
    obtain ⟨hfirst, hrest⟩ := List.nodup_cons.mp hnodup
    have hlayout : Layout (Registry.adopt poll r update) := by
      refine h.adopt poll (hnew _ (.head _)) fun object hobject => ?_
      exact hloaded update.1 object (by rw [← hobject]; exact List.mem_cons_self)
    have hobjects : (Registry.adopt poll r update).objects = r.objects ∨
        ∃ object, update.2 = .ok object ∧
          (Registry.adopt poll r update).objects = r.objects.insert update.1 object := by
      unfold Registry.adopt
      split
      · next object hobject =>
        split
        · exact .inl rfl
        · exact .inr ⟨object, hobject, rfl⟩
      · exact .inl rfl
    rw [List.map_cons, List.sum_cons] at hbudget
    apply ih hlayout
    · rcases hobjects with hsame | ⟨object, hobject, hinserted⟩
      · rw [hsame]
        omega
      · have hsum := BTreeMap.sum_insert r.objects loadedCfiSize update.1 object
        have hsize : updateSize update = loadedCfiSize object := by
          unfold updateSize
          rw [hobject]
        rw [hinserted]
        omega
    · intro id hid
      have hold := hnew id (.tail _ hid)
      rcases hobjects with hsame | ⟨object, -, hinserted⟩
      · rw [hsame]
        exact hold
      · rw [hinserted, BTreeMap.get_insert, if_neg ?_]
        · exact hold
        · rintro rfl
          exact hfirst hid
    · exact hrest
    · exact fun id object hmem => hloaded id object (.tail _ hmem)

/-- What `collect` has read fits together. -/
structure Collected (r : Registry) (poll : ℕ) (snapshot : JitSnapshot) (candidate : Candidate) :
    Prop where
  checks : Accounted r snapshot candidate.checks []
  ids : candidate.updates.map Prod.fst =
    pendingIds poll r snapshot candidate.checks.invalidated
  sizes : (candidate.updates.map updateSize).sum ≤ candidate.checks.remaining
  loaded : ∀ id object, (id, Except.ok object) ∈ candidate.updates → Loaded object

/-- Accepting a candidate keeps the layout and the budget. -/
theorem commit_layout (h : Layout r) (hcollected : Collected r poll snapshot candidate) :
    Layout (r.commit poll snapshot candidate) ∧
      (r.commit poll snapshot candidate).objects.sum loadedCfiSize ≤ MAX_JIT_TOTAL_CFI_SIZE := by
  obtain ⟨hlayout, hsizes⟩ := settled_layout poll h hcollected.checks
  have hsum := BTreeMap.sum_congr hsizes
  have hbalance := hcollected.checks.balance
  have hloads := hcollected.sizes
  have hadmitted := foldl_adopt poll hlayout (by omega) ?_ ?_ hcollected.loaded
  · exact ⟨hadmitted.1.congr rfl rfl, hadmitted.2⟩
  · intro id hid
    rw [hcollected.ids] at hid
    exact hsizes.get_none (planned_get_of_pending poll hid)
  · rw [hcollected.ids]
    exact pendingIds_nodup poll r snapshot _

end

/-- The layout of the code, and the budget of the copied unwind sections. -/
structure Consistent (r : Registry) : Prop where
  layout : Layout r
  budget : r.objects.sum loadedCfiSize ≤ MAX_JIT_TOTAL_CFI_SIZE

theorem Consistent.congr (h : Consistent r) (hobjects : r'.objects = r.objects)
    (hranges : r'.codeRanges = r.codeRanges) : Consistent r' :=
  ⟨h.layout.congr hobjects hranges, hobjects ▸ h.budget⟩

theorem consistent_of_empty (hobjects : r.objects = .empty) (hranges : r.codeRanges = .empty) :
    Consistent r := by
  refine ⟨⟨fun start stop id => ?_, hranges ▸ disjoint_empty, ?_, ?_⟩, ?_⟩
  · rw [hobjects, hranges]
    simp
  · rw [hobjects]
    exact fun _ _ h => nomatch h
  · rw [hobjects]
    exact fun _ _ h => nomatch h
  · rw [hobjects]
    exact Nat.zero_le _

/-- A candidate is made of what is read while it is collected. -/
theorem collect_reads (poll : ℕ) (revalidate : Bool) (r : Registry) (snapshot : JitSnapshot) :
    Reads (fun world => collect world poll revalidate r snapshot) fun candidate =>
      Consistent r → Collected r poll snapshot candidate := by
  have hreads : ∀ entries, Reads (fun world => checkObjects world poll revalidate r snapshot
      entries (initialChecks r snapshot)) _ := fun entries => checkObjects_reads _ _ _ _ _ _
  have hcheck : Reads (fun world time => checkObjects world poll revalidate r snapshot
      (world.iteration time r.objects.entries) (initialChecks r snapshot) time)
      fun checks => Consistent r → Accounted r snapshot checks [] := by
    refine ⟨⟨fun world time => (hreads _).le world time,
      fun world memory time => (hreads _).within world memory time⟩, fun world time => ?_⟩
    have hperm := world.iteration_perm time r.objects.entries
    refine ((hreads _).mono fun checks hall h => ?_).ensures world time
    refine hall (initialChecks_accounted h.budget _) ?_ ?_
    · rw [(hperm.map Prod.fst).nodup_iff, List.nodup_iff_pairwise_ne, List.pairwise_map]
      exact r.objects.sorted.imp fun hlt => hlt.ne
    · intro entry hentry
      exact BTreeMap.get_eq_some.mpr (hperm.mem_iff.mp hentry)
  refine hcheck.bind fun checks hchecks => ?_
  refine (loadAll_reads _ _).bind fun updates hupdates => .pure fun h => ?_
  exact ⟨hchecks h, hupdates.1, hupdates.2.1, hupdates.2.2⟩

end StackPulse.JitConsistency
