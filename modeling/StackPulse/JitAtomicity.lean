import StackPulse.JitRuns

/-!
What a refresh publishes is bracketed by two equal snapshots of the registrations. The
images and unwind sections that a candidate is made of are read after the first and
before the second; if the second cannot be read or differs, nothing is published.
-/
namespace StackPulse.JitAtomicity

open OrderedMap IntervalMap Attempts JitProtocol JitObjects JitReads JitRegistry JitBudget
  JitConsistency JitRuns

variable {start stop : ℕ}

/-- The parts of the registry that consumers get to see, now or with the next drain. -/
def published (r : Registry) : BTreeMap JitObjectId JitObject × BTreeMap ℕ (ℕ × JitObjectId) ×
    List String × BTreeMap JitObjectId RetryBackoff × Bool :=
  (r.objects, r.codeRanges, r.stalePaths, r.loadFailures, r.updatesPending)

/-- Two equal snapshots, the second read after `closed`, with a computation in between that
is made of the reads from `opened` on and before `closed`. -/
structure Bracket {α : Type} (world : World) (r : Registry) (m : World → Access α) (a : α)
    (snapshot : JitSnapshot) (start opened closed stop : ℕ) : Prop where
  first : readRegistry world.toMemory r.descriptors start = (.ok snapshot, opened)
  between : m world opened = (.ok a, closed)
  alone : ∀ memory, Agree world.toMemory memory opened closed →
    m (withMemory world memory) opened = (.ok a, closed)
  second : readRegistry world.toMemory r.descriptors closed = (.ok snapshot, stop)
  ordered : start ≤ opened ∧ opened ≤ closed ∧ closed ≤ stop

theorem bracket_of_timely {α : Type} {world : World} {r : Registry} {m : World → Access α} {a : α}
    {snapshot : JitSnapshot} {opened closed : ℕ} (hm : Timely m)
    (hfirst : readRegistry world.toMemory r.descriptors start = (.ok snapshot, opened))
    (hbetween : m world opened = (.ok a, closed))
    (hsecond : readRegistry world.toMemory r.descriptors closed = (.ok snapshot, stop)) :
    Bracket world r m a snapshot start opened closed stop := by
  have hopened := (readRegistry_reads r.descriptors).le world start
  have hclosed := hm.le world opened
  have hstop := (readRegistry_reads r.descriptors).le world closed
  rw [hfirst] at hopened
  rw [hbetween] at hclosed
  rw [hsecond] at hstop
  refine ⟨hfirst, hbetween, fun memory hagree => ?_, hsecond, hopened, hclosed, hstop⟩
  rw [hm.within world memory opened (by rw [hbetween]; exact hagree), hbetween]

/-- A refresh accepted a candidate collected between two equal snapshots. -/
def Reconciled (world : World) (poll : ℕ) (r r' : Registry) (start stop : ℕ) : Prop :=
  ∃ snapshot revalidate revalidated candidate opened closed,
    Bracket world r (fun world => collect world poll revalidate r snapshot) candidate snapshot
      start opened closed stop ∧
    r' = ({ r.noteSnapshot snapshot with lastRevalidation := revalidated } : Registry).commit
      poll snapshot candidate

/-- A refresh on demand accepted unwind data read between two equal snapshots. -/
def Demanded (world : World) (r r' : Registry) (start stop : ℕ) : Prop :=
  ∃ snapshot id object budget update remaining now opened closed,
    r.objects.get id = some object ∧
    Bracket world r (fun world => object.inspect world id budget)
      (ObjectChange.unwind update, remaining) snapshot start opened closed stop ∧
    r' = ({ r with lastDemandRefresh := now }).acceptUnwind id object update

/-- One unwind section that could not be read is known not to fit the budget. -/
def Marked (r r' : Registry) : Prop :=
  ∃ id object range, r.objects.get id = some object ∧ object.unwind.cfi = .unreadable range ∧
    r'.objects = r.objects.insert id object.markBudgetLimited

/-- Beside the objects, only the notes on retries, reconciliation, revalidation and warnings
can differ. -/
structure Bookkept (r r' : Registry) : Prop where
  pid : r'.pid = r.pid
  descriptors : r'.descriptors = r.descriptors
  generation : r'.descriptorSearchGeneration = r.descriptorSearchGeneration
  codeRanges : r'.codeRanges = r.codeRanges
  loadFailures : r'.loadFailures = r.loadFailures
  pollCount : r'.pollCount = r.pollCount
  stalePaths : r'.stalePaths = r.stalePaths
  updatesPending : r'.updatesPending = r.updatesPending
  lastPoll : r'.lastPoll = r.lastPoll
  lastDiscovery : r'.lastDiscovery = r.lastDiscovery
  lastDescriptors : r'.lastDescriptors = r.lastDescriptors

/-- What a call leaves that does not publish. -/
structure Withheld (r r' : Registry) : Prop where
  notes : Bookkept r r'
  objects : r'.objects = r.objects ∨ Marked r r'

/-- A call that only took notes. -/
structure Untouched (r r' : Registry) : Prop where
  notes : Bookkept r r'
  published : published r' = published r

theorem Untouched.withheld {r r' : Registry} (h : Untouched r r') : Withheld r r' :=
  ⟨h.notes, .inl (congrArg Prod.fst h.published)⟩

theorem bookkept_rfl (r : Registry) : Bookkept r r :=
  ⟨rfl, rfl, rfl, rfl, rfl, rfl, rfl, rfl, rfl, rfl, rfl⟩

section

variable (world : World) (r : Registry) {r' : Registry} {id : JitObjectId}

/-- A refresh that fails has not changed anything. -/
theorem refreshObjects_outcome (poll : ℕ) :
    Outcome (fun _ s => Reconciled world poll r s.1 start s.2 ∨ Untouched r s.1)
      (fun fault s => Reported fault ∧ s.1 = r) (refreshObjects world poll (r, start)) := by
  have hfails : ∀ {α : Type} {m : World → Access α} {Q : α → Prop} {fault : Fault} {t t' : ℕ},
      Reads m Q → m world t = (.error fault, t') → Reported fault ∧ r = r :=
    fun hm herror => ⟨(hm.ensures world).error herror, rfl⟩
  refine .bind (reading_outcome (fun descriptors t₁ hdescriptors => ?_) fun _ _ =>
    hfails (readDescriptors_reads r.descriptors))
  rw [now_bind, borrow_bind]
  split
  · exact .inr ⟨bookkept_rfl r, rfl⟩
  · refine .bind (reading_outcome (fun snapshot opened hsnapshot => ?_) fun _ _ =>
      hfails (readSnapshot_reads descriptors))
    have hfirst : readRegistry world.toMemory r.descriptors start = (.ok snapshot, opened) :=
      (bind_of_ok hdescriptors).trans hsnapshot
    refine .bind (reading_outcome (fun candidate closed hcollect => ?_) fun _ _ =>
      hfails (collect_reads poll _ r snapshot))
    refine .bind (reading_outcome (fun current stop hcurrent => ?_) fun _ _ =>
      hfails (readRegistry_reads r.descriptors))
    split
    · exact .inr ⟨⟨rfl, rfl, rfl, rfl, rfl, rfl, rfl, rfl, rfl, rfl, rfl⟩, rfl⟩
    · next hsame =>
      rw [not_not.mp hsame] at hcurrent
      rw [change_bind]
      refine .bind (noteRevalidation_outcome world _ fun revalidated => ?_)
      exact .inl ⟨snapshot, _, revalidated, candidate, opened, closed,
        bracket_of_timely (collect_reads poll _ r snapshot).toTimely hfirst hcollect hcurrent, rfl⟩

theorem untouched_refreshFailed (poll : ℕ) (fault : Fault) :
    Untouched r (r.refreshFailed poll fault) := by
  unfold Registry.refreshFailed
  split <;> exact ⟨⟨rfl, rfl, rfl, rfl, rfl, rfl, rfl, rfl, rfl, rfl, rfl⟩, rfl⟩

theorem withheld_notes (demanded revalidated : Option ℕ) (needed : Bool) :
    Withheld r { r with
      lastDemandRefresh := demanded
      lastRevalidation := revalidated
      needsReconciliation := needed } :=
  ⟨⟨rfl, rfl, rfl, rfl, rfl, rfl, rfl, rfl, rfl, rfl, rfl⟩, .inl rfl⟩

theorem withheld_mark (id : JitObjectId) (now : Option ℕ) (limit : Option String) :
    Withheld r (({ r with lastDemandRefresh := now } : Registry).markBudgetLimited id |>.reportLimit
      limit) := by
  unfold Registry.markBudgetLimited
  simp only
  cases hget : r.objects.get id with
  | none => exact ⟨⟨rfl, rfl, rfl, rfl, rfl, rfl, rfl, rfl, rfl, rfl, rfl⟩, .inl rfl⟩
  | some object =>
    refine ⟨⟨rfl, rfl, rfl, rfl, rfl, rfl, rfl, rfl, rfl, rfl, rfl⟩, ?_⟩
    by_cases hunreadable : ∃ range, object.unwind.cfi = .unreadable range
    · obtain ⟨range, hrange⟩ := hunreadable
      exact .inr ⟨id, object, range, hget, hrange, rfl⟩
    · left
      have hmark : object.unwind.cfi.markBudgetLimited = object.unwind.cfi := by
        cases hcfi : object.unwind.cfi with
        | unreadable range => exact absurd ⟨range, hcfi⟩ hunreadable
        | absent => rfl
        | budgetLimited range => rfl
        | loaded range fingerprint => rfl
      have hobject : object.markBudgetLimited = object := by
        unfold JitObject.markBudgetLimited
        rw [hmark]
      show r.objects.insert id object.markBudgetLimited = r.objects
      rw [hobject]
      apply BTreeMap.ext_get
      intro k
      rw [BTreeMap.get_insert]
      split
      · next heq => rw [heq, hget]
      · rfl

/-- What a refresh on demand leaves; it does not fail. -/
abbrev OnDemand (world : World) (r : Registry) (start : ℕ) :
    Except Fault Bool × (Registry × ℕ) → Prop :=
  Outcome (fun changed s => (changed = true ∧ Demanded world r s.1 start s.2) ∨
    (changed = false ∧ Withheld r s.1)) fun _ _ => False

theorem publishUnwind_outcome {object : JitObject} {snapshot : JitSnapshot} {now : Option ℕ}
    {budget remaining opened closed : ℕ} {update : UnwindUpdate}
    (hget : r.objects.get id = some object)
    (hfirst : readRegistry world.toMemory r.descriptors start = (.ok snapshot, opened))
    (hinspect : object.inspect world id budget opened = (.ok (.unwind update, remaining), closed)) :
    OnDemand world r start
      (publishUnwind world id snapshot update ({ r with lastDemandRefresh := now }, closed)) := by
  refine .handle (reading_outcome (fun current stop hsecond => ?_) fun _ _ _ =>
    .inr ⟨rfl, withheld_notes r _ _ _⟩)
  split
  · next hsame =>
    rw [borrow_bind, show ({ r with lastDemandRefresh := now } : Registry).objects.get id =
      some object from hget]
    rw [hsame] at hsecond
    exact .inl ⟨rfl, snapshot, id, object, budget, update, remaining, now, opened, closed, hget,
      bracket_of_timely (inspect_reads object id budget).toTimely hfirst hinspect hsecond, rfl⟩
  · exact .inr ⟨rfl, withheld_notes r _ _ _⟩

theorem demandObject_outcome {object : JitObject} {snapshot : JitSnapshot} {now : Option ℕ}
    {opened : ℕ} (hget : r.objects.get id = some object)
    (hfirst : readRegistry world.toMemory r.descriptors start = (.ok snapshot, opened)) :
    OnDemand world r start
      (demandObject world id object snapshot ({ r with lastDemandRefresh := now }, opened)) := by
  -- the object is one of those that are summed up, so the debit succeeds
  have hpaid : debit (r.objects.sum loadedCfiSize) (loadedCfiSize object) opened =
      (.ok (r.objects.sum loadedCfiSize - loadedCfiSize object), opened) := by
    unfold debit
    rw [if_pos (BTreeMap.le_sum hget)]
    rfl
  refine .bind (reading_outcome (fun others t hdebit => ?_) fun fault t hdebit => ?_)
  · cases hpaid.symm.trans hdebit
    refine .handle (reading_outcome (fun found closed hinspect => ?_) fun fault _ hinspect => ?_)
    · obtain ⟨change, remaining⟩ := found
      cases change with
      | unchanged | image => exact .inr ⟨rfl, withheld_notes r _ _ _⟩
      | unwind update => exact publishUnwind_outcome world r hget hfirst hinspect
    · cases fault with
      | underflow => exact absurd rfl (((inspect_reads object id _).ensures world).error hinspect)
      | read e => exact .inr ⟨rfl, withheld_notes r _ _ _⟩
      | limit text => exact .inr ⟨rfl, withheld_mark r id now (some text)⟩
  · cases hpaid.symm.trans hdebit

theorem demandOwner_outcome (now : ℕ) :
    OnDemand world r start (demandOwner world now id (r, start)) := by
  unfold demandOwner
  rw [borrow_bind]
  cases hget : r.objects.get id with
  | none => exact .inr ⟨rfl, withheld_notes r _ _ _⟩
  | some object =>
    dsimp only
    split
    · exact .inr ⟨rfl, withheld_notes r _ _ _⟩
    · rw [change_bind]
      split
      · exact .inr ⟨rfl, withheld_notes r _ _ _⟩
      · refine .handle (reading_outcome (fun snapshot opened hfirst => ?_) fun _ _ _ =>
          .inr ⟨rfl, withheld_notes r _ _ _⟩)
        split
        · exact .inr ⟨rfl, withheld_notes r _ _ _⟩
        · exact demandObject_outcome world r hget hfirst

theorem refreshForAddress_outcome (address : ℕ) :
    OnDemand world r start (refreshForAddress world address (r, start)) := by
  unfold refreshForAddress
  rw [now_bind, borrow_bind]
  split
  · exact .inr ⟨rfl, withheld_notes r _ _ _⟩
  · cases covering Prod.fst r.codeRanges address with
    | none => exact .inr ⟨rfl, withheld_notes r _ _ _⟩
    | some owner => exact demandOwner_outcome world r _

/-- The loads of the next drain, in some order. -/
def pendingLoads (objects : BTreeMap JitObjectId JitObject) : List Update :=
  objects.entries.filterMap fun e =>
    if JitObject.isPending e.2 = true then some (.loaded e.1.path e.2.pendingModules e.2.symbols)
    else none

/-- Loads do not look at the state of the unwind section. -/
theorem pendingLoads_mark {objects : BTreeMap JitObjectId JitObject} {object : JitObject}
    (hget : objects.get id = some object) :
    pendingLoads (objects.insert id object.markBudgetLimited) = pendingLoads objects := by
  have hmap : (objects.insert id object.markBudgetLimited).mapValues
      (fun o => (o.pendingModules, o.symbols)) =
      objects.mapValues fun o => (o.pendingModules, o.symbols) := by
    apply BTreeMap.ext_get
    intro k
    rw [BTreeMap.get_mapValues, BTreeMap.get_mapValues, BTreeMap.get_insert]
    split
    · next heq =>
      rw [heq, hget]
      rfl
    · rfl
  have hloads : ∀ m : BTreeMap JitObjectId JitObject, pendingLoads m =
      (m.mapValues fun o => (o.pendingModules, o.symbols)).entries.filterMap fun e =>
        if (!e.2.1.isEmpty || e.2.2.isSome) = true then some (.loaded e.1.path e.2.1 e.2.2)
        else none := by
    intro m
    show _ = (m.entries.map _).filterMap _
    rw [List.filterMap_map]
    rfl
  rw [hloads, hloads, hmap]

/-- What is withheld does not show in the next drain. -/
theorem drainUpdates_of_withheld {r : Registry} (h : Withheld r r') (time : ℕ) :
    (drainUpdates world time r').1.Perm (drainUpdates world time r).1 := by
  have hloads : ∀ m : BTreeMap JitObjectId JitObject, ((world.iteration time m.entries).filterMap
      fun e => if JitObject.isPending e.2 = true then
        some (Update.loaded e.1.path e.2.pendingModules e.2.symbols) else none).Perm
      (pendingLoads m) := fun m => (world.iteration_perm time m.entries).filterMap _
  have hobjects : pendingLoads r'.objects = pendingLoads r.objects := by
    rcases h.objects with hsame | ⟨id, object, range, hget, -, hmarked⟩
    · rw [hsame]
    · rw [hmarked]
      exact pendingLoads_mark hget
  unfold drainUpdates
  rw [h.notes.updatesPending, h.notes.stalePaths]
  split
  · exact .refl _
  · refine List.Perm.append_left _ ((hloads r'.objects).trans ?_)
    rw [hobjects]
    exact (hloads r.objects).symm

/-- A refresh and the note how it went. -/
theorem attemptRefresh_outcome (poll : ℕ) :
    Outcome (fun _ s => (∃ r', Reconciled world poll r r' start s.2 ∧
        s.1 = { r' with refreshBackoff := none }) ∨ Untouched r s.1)
      (fun _ _ => False) (attemptRefresh world poll (r, start)) := by
  refine .handle ((refreshObjects_outcome world r poll).mono (fun _ s hs => ?_)
    fun fault s ⟨hreported, hsame⟩ => ?_)
  · rcases hs with hreconciled | hsame
    · exact .inl ⟨s.1, hreconciled, rfl⟩
    · obtain ⟨⟨h1, h2, h3, h4, h5, h6, h7, h8, h9, h10, h11⟩, hpublished⟩ := hsame
      exact .inr ⟨⟨h1, h2, h3, h4, h5, h6, h7, h8, h9, h10, h11⟩, hpublished⟩
  · obtain ⟨r', stop⟩ := s
    obtain rfl : r' = r := hsame
    cases fault with
    | underflow => exact absurd rfl hreported
    | read e => exact .inr (untouched_refreshFailed r' poll (.read e))
    | limit text => exact .inr (untouched_refreshFailed r' poll (.limit text))

/-- The next drain hands out the same. -/
def SameUpdates (world : World) (r r' : Registry) : Prop :=
  ∀ time, (drainUpdates world time r').1.Perm (drainUpdates world time r).1

/-- A refresh changes what is published only by accepting a candidate that was read between
two equal snapshots of the registrations, and so does a refresh on demand, which can also
mark one unwind section as too large. Otherwise only notes are taken and the next drain
hands out the same. A refresh that fails to read the registrations leaves the registry as
it was, and its caller then takes a note. -/
theorem publication_is_atomic (poll address start : ℕ) :
    Outcome (fun _ (r', stop) => Reconciled world poll r r' start stop ∨
        (Untouched r r' ∧ SameUpdates world r r'))
      (fun _ (r', _) => r' = r) (refreshObjects world poll (r, start)) ∧
    Outcome (fun _ (r', stop) => (∃ committed, Reconciled world poll r committed start stop ∧
          r' = { committed with refreshBackoff := none }) ∨
        (Untouched r r' ∧ SameUpdates world r r'))
      (fun _ _ => False) (attemptRefresh world poll (r, start)) ∧
    Outcome (fun changed (r', stop) => (changed = true ∧ Demanded world r r' start stop) ∨
        (changed = false ∧ Withheld r r' ∧ SameUpdates world r r'))
      (fun _ _ => False) (refreshForAddress world address (r, start)) := by
  have hsame : ∀ {r' : Registry}, Untouched r r' → Untouched r r' ∧ SameUpdates world r r' :=
    fun h => ⟨h, drainUpdates_of_withheld world h.withheld⟩
  refine ⟨(refreshObjects_outcome world r poll).mono (fun _ s hs => hs.imp_right hsame)
      fun _ _ hs => hs.2,
    (attemptRefresh_outcome world r poll).mono (fun _ s hs => hs.imp_right hsame)
      fun _ _ hs => hs,
    (refreshForAddress_outcome world r address).mono (fun _ s hs => hs.imp_right ?_)
      fun _ _ hs => hs⟩
  exact fun ⟨hchanged, hwithheld⟩ =>
    ⟨hchanged, hwithheld, drainUpdates_of_withheld world hwithheld⟩

end

/-- A registry that knows where the descriptor is. -/
def watching : Registry := { Registry.new 7 with descriptors := [⟨4096, "/lib", none, none⟩] }

/-- The image is loaded in four reads. It is published if its registration is the same in
the next two, withheld if the registration is gone, and if it cannot be read nothing has
changed. -/
theorem publication_is_atomic_torn :
    (refreshObjects (process 6 6) 0 (watching, 0)).2.1.objects.len = 1 ∧
      (refreshObjects (process 4 6) 0 (watching, 0)).1.toOption.isSome = true ∧
      (refreshObjects (process 4 6) 0 (watching, 0)).2.1.objects.len = 0 ∧
      ∃ fault time', refreshObjects (process 6 5) 0 (watching, 0) =
        (.error fault, (watching, time')) := by
  refine ⟨by decide +kernel, by decide +kernel, by decide +kernel, ?_⟩
  rcases hrefresh : refreshObjects (process 6 5) 0 (watching, 0) with ⟨fault | _, r', time'⟩
  · obtain rfl : r' = watching :=
      (publication_is_atomic (process 6 5) watching 0 0 0).1.error hrefresh
    exact ⟨fault, time', rfl⟩
  · have hfails : (refreshObjects (process 6 5) 0 (watching, 0)).1.toOption.isSome = false := by
      decide +kernel
    rw [hrefresh] at hfails
    cases hfails

end StackPulse.JitAtomicity
