import StackPulse.Attempts
import StackPulse.EventOrder

/-!
Rounds over the rings keep the order of the sorter. A round reads the rings in
ascending order, so the rings still to be read are above all that were; a completed
round has read them all, and a round cut short starts again from the lowest ring.
-/
namespace StackPulse.EventRounds

open Attempts OrderedMap Sorter EventOrder

variable {G E C : Type} [LinearOrder G] {sink : DrainSink G E C} {perf : PerfGroup G}
  {done : G → Prop} {current : Option G} {fd : G} {item : Item G E} {lower : ℕ}

section

variable {perf' : PerfGroup G} {done' : G → Prop}

/-- The dates only ask that unread records stay as late as they were. -/
theorem Dated.of_later (hd : Dated perf done sink)
    (hnow : perf.now ≤ perf'.now)
    (hlower : ∀ h l, perf'.outputs.get h = some l → l ≤ perf'.now)
    (hrings : ∀ h l, perf'.outputs.get h = some l → perf.now ≤ l ∨
      (∃ l₀, perf.outputs.get h = some l₀ ∧ l₀ ≤ l) ∧ (done' h → done h)) :
    Dated perf' done' sink := by
  have hlater : ∀ {t : ℕ} {h l}, perf'.outputs.get h = some l → t < perf.now →
      (∀ l₀, perf.outputs.get h = some l₀ → (done' h → done h) → t < l₀) → t < l := by
    intro t h l hget hlt hold
    rcases hrings h l hget with hle | ⟨⟨l₀, hget₀, hle⟩, hdone⟩
    · exact hlt.trans_le hle
    · exact (hold l₀ hget₀ hdone).trans_le hle
  constructor
  · exact hlower
  · exact fun e he => (hd.heap_lt e he).trans_le hnow
  · exact fun a ha => (hd.handed_lt a ha).trans_le hnow
  · exact fun a ha h l hget => hlater hget (hd.handed_lt a ha) fun l₀ hget₀ _ =>
      hd.handed_lt_lower a ha h l₀ hget₀
  · exact hd.round_le
  · exact fun e he hround h l hget => hlater hget (hd.heap_lt e he) fun l₀ hget₀ _ =>
      hd.older e he hround h l₀ hget₀
  · exact fun e he hround h l hget hcase => hlater hget (hd.heap_lt e he) fun l₀ hget₀ hdone =>
      hd.previous e he hround h l₀ hget₀ (hcase.imp_right hdone)
  · exact fun e he hround h l hget hcase hgroup => hlater hget (hd.heap_lt e he)
      fun l₀ hget₀ hdone => hd.current e he hround h l₀ hget₀ (hdone hcase) hgroup

/-- A complete reading that ends now leaves its ring with nothing older than now. -/
theorem Dated.ring_read (hd : Dated perf done sink) (fd : G) :
    Dated { perf with outputs := perf.outputs.insert fd perf.now }
      (fun h => h = fd ∨ done h) sink := by
  refine Dated.of_later hd le_rfl ?_ ?_ <;>
    simp only [BTreeMap.get_insert] <;> intro h l hget <;> split at hget
  · cases hget
    exact le_rfl
  · exact hd.lower_le h l hget
  · cases hget
    exact .inl le_rfl
  · rename_i hne
    exact .inr ⟨⟨l, hget, le_rfl⟩, fun hcase => hcase.resolve_left fun heq => hne (heq ▸ rfl)⟩

theorem Dated.wait (hd : Dated perf done sink) {now : ℕ} (hnow : perf.now ≤ now) :
    Dated { perf with now := now } done sink :=
  Dated.of_later hd hnow (fun h l hget => (hd.lower_le h l hget).trans hnow)
    fun _ l hget => .inr ⟨⟨l, hget, le_rfl⟩, id⟩

end

omit [LinearOrder G] in
theorem Ordered.push (ho : Ordered sink) (hsequence : item.sequence = sink.sorter.nextSequence)
    (hqueued : item.asQueued = item) (hlast : ∀ a ∈ sink.handed, a.key < item.key) :
    Ordered { sink with
      sorter := { sink.sorter with
        heap := insertItem item sink.sorter.heap
        nextSequence := sink.sorter.nextSequence + 1 }
      queued := sink.queued ++ [item] } := by
  refine ⟨?_, ho.handed, ?_, ho.segments, ?_, ?_, ?_⟩
  · exact insertItem_pairwise ho.heap fun b hb => hsequence ▸ ho.unnumbered b hb
  · intro a ha b hb
    rcases mem_insertItem.mp hb with rfl | hb
    · exact .inl (hlast a ha)
    · exact ho.ahead a ha b hb
  · intro b hb
    rcases mem_insertItem.mp hb with rfl | hb
    · exact hsequence ▸ Nat.lt_succ_self _
    · exact (ho.unnumbered b hb).trans (Nat.lt_succ_self _)
  · rw [List.map_append]
    refine ((((insertItem_perm item _).map _).append_left _)).trans ?_
    rw [List.map_cons, hqueued]
    refine List.perm_middle.trans ?_
    rw [← List.map_append]
    exact (ho.accounted.cons item).trans (List.perm_append_singleton _ _).symm
  · rw [List.map_append, ho.numbered, List.map_singleton, hsequence]
    exact List.range_succ.symm

theorem Dated.push (hd : Dated perf done sink) (hround : item.round = sink.sorter.round)
    (hkey : item.key < perf.now)
    (hdone : ∀ h l, perf.outputs.get h = some l → done h → h < item.group) (next : ℕ)
    (queued : List (Item G E)) : Dated perf done { sink with
      sorter := { sink.sorter with
        heap := insertItem item sink.sorter.heap
        nextSequence := next }
      queued := queued } := by
  refine ⟨hd.lower_le, ?_, hd.handed_lt, hd.handed_lt_lower, ?_, ?_, ?_, ?_⟩ <;>
    intro e he <;> rcases mem_insertItem.mp he with rfl | he
  · exact hkey
  · exact hd.heap_lt e he
  · exact hround.le
  · exact hd.round_le e he
  · exact fun hlt => absurd hlt (by rw [hround]; exact Nat.not_succ_lt_self)
  · exact hd.older e he
  · exact fun heq => absurd (hround ▸ heq) (Nat.succ_ne_self _)
  · exact hd.previous e he
  · exact fun _ h l hget hcase hgroup => absurd hgroup (hdone h l hget hcase).not_ge
  · exact hd.current e he

/-- A record the current group's ring could return is queued in its place. -/
theorem Held.queueEvent (hh : Held perf done (some fd) sink)
    (hdone : ∀ h l, perf.outputs.get h = some l → done h → h < fd)
    (hlower : perf.outputs.get fd = some lower) {r : RingRecord E} (hfrom : lower ≤ r.key)
    (hto : r.key < perf.now) :
    ∃ sink', sink.queueEvent r.key (sink.prepareEvent r.event) = .ok sink' ∧
      Held perf done (some fd) sink' := by
  cases hp : sink.prepareEvent r.event with
  | none => exact ⟨sink, rfl, hh⟩
  | some prepared =>
    have hattached : prepared.detached = false := by
      unfold DrainSink.prepareEvent at hp
      split at hp
      · cases hp
      · obtain ⟨event, -, rfl⟩ := Option.map_eq_some_iff.mp hp
        rfl
    have hqueued : (sink.sorter.itemFor fd r.key prepared).asQueued =
        sink.sorter.itemFor fd r.key prepared := by
      cases prepared
      cases hattached
      rfl
    have hlast : ∀ a ∈ sink.handed, a.key < r.key := fun a ha =>
      (hh.dated.handed_lt_lower a ha fd lower hlower).trans_le hfrom
    refine ⟨_, ?_, ⟨Ordered.push hh.ordered rfl hqueued hlast,
      Dated.push hh.dated rfl hto hdone _ _, hh.group⟩⟩
    simp only [DrainSink.queueEvent, EventSorter.pushCurrentGroup, hh.group]
    rfl

theorem Held.drainOutputRing (hh : Held perf done (some fd) sink)
    (hdone : ∀ h l, perf.outputs.get h = some l → done h → h < fd)
    (hlower : perf.outputs.get fd = some lower) {records : List (RingRecord E)}
    (hrecords : ∀ r ∈ records, lower ≤ r.key ∧ r.key < perf.now) :
    ∃ sink', Sorter.drainOutputRing sink records = .ok sink' ∧ Held perf done (some fd) sink' := by
  induction records generalizing sink with
  | nil => exact ⟨sink, rfl, hh⟩
  | cons r records ih =>
    obtain ⟨hfrom, hto⟩ := hrecords r (.head _)
    obtain ⟨next, hnext, hheld⟩ := Held.queueEvent hh hdone hlower hfrom hto
    obtain ⟨sink', hrest, hsink'⟩ := ih hheld fun r hr => hrecords r (.tail _ hr)
    refine ⟨sink', ?_, hsink'⟩
    unfold Sorter.drainOutputRing
    rw [List.foldlM_cons, hnext]
    exact hrest

theorem Held.beginGroup (hh : Held perf done current sink) (hle : ∀ c, current = some c → c ≤ fd) :
    ∃ sorter, sink.sorter.beginGroup fd = .ok sorter ∧
      Held perf done (some fd) { sink with sorter := sorter } := by
  refine ⟨{ sink.sorter with currentGroup := some fd }, ?_, ?_⟩
  · unfold EventSorter.beginGroup
    rw [if_pos]
    rw [hh.group]
    cases hc : current with
    | none => rfl
    | some c =>
      exact decide_eq_true (hle c hc)
  · obtain ⟨ho, hd, -⟩ := hh
    exact ⟨⟨ho.heap, ho.handed, ho.ahead, ho.segments, ho.unnumbered, ho.accounted, ho.numbered⟩,
      ⟨hd.lower_le, hd.heap_lt, hd.handed_lt, hd.handed_lt_lower, hd.round_le, hd.older,
        hd.previous,
        hd.current⟩, rfl⟩

/-- Between rounds no ring counts as read and no group is current. -/
abbrev Settled (w : Recording G E C) : Prop := Held w.perf (fun _ => False) none w.sink

section

variable (hh : Held perf done current sink)

include hh

/-- A completed round has read every ring after the events of the round before. -/
theorem Held.advanceRound (hall : ∀ h l, perf.outputs.get h = some l → done h) :
    Held perf (fun _ => False) none { sink with sorter := sink.sorter.advanceRound } := by
  obtain ⟨ho, hd, -⟩ := hh
  refine ⟨⟨ho.heap, ho.handed, ho.ahead, ho.segments, ho.unnumbered, ho.accounted, ho.numbered⟩,
    ⟨hd.lower_le, hd.heap_lt, hd.handed_lt, hd.handed_lt_lower, ?_, ?_, ?_, ?_⟩, rfl⟩
  · exact fun e he => (hd.round_le e he).trans (Nat.le_succ _)
  · intro e he hround h l hget
    have hround' : e.round + 1 ≤ sink.sorter.round := Nat.lt_succ_iff.mp hround
    rcases hround'.lt_or_eq with hlt | heq
    · exact hd.older e he hlt h l hget
    · exact hd.previous e he heq h l hget (.inr (hall h l hget))
  · intro e he hround h l hget hcase
    have hround' : e.round = sink.sorter.round := Nat.succ.inj hround
    exact hd.current e he hround' h l hget (hall h l hget) (hcase.resolve_right id)
  · exact fun e he hround h l hget hfalse => hfalse.elim

theorem Held.abortRound :
    Held perf (fun _ => False) none { sink with sorter := sink.sorter.abortRound } := by
  obtain ⟨ho, hd, -⟩ := hh
  have hd' : Dated perf (fun _ => False) sink :=
    Dated.of_later hd le_rfl hd.lower_le fun _ l hget => .inr ⟨⟨l, hget, le_rfl⟩, False.elim⟩
  exact ⟨⟨ho.heap, ho.handed, ho.ahead, ho.segments, ho.unnumbered, ho.accounted, ho.numbered⟩,
    ⟨hd'.lower_le, hd'.heap_lt, hd'.handed_lt, hd'.handed_lt_lower, hd'.round_le, hd'.older,
      hd'.previous, hd'.current⟩, rfl⟩

/-- Detaching changes no item's place. -/
theorem Held.detachQueuedEvents : Held perf done current sink.detachQueuedEvents := by
  obtain ⟨ho, hd, hgroup⟩ := hh
  have hheap : sink.detachQueuedEvents.sorter.heap =
    sink.sorter.heap.map fun item => { item with value := item.value.detachRingStorage } := rfl
  refine ⟨⟨List.pairwise_map.mpr ho.heap, ho.handed,
      fun a ha => List.forall_mem_map.mpr (ho.ahead a ha), ho.segments,
      List.forall_mem_map.mpr ho.unnumbered, ?_, ho.numbered⟩,
    ⟨hd.lower_le, List.forall_mem_map.mpr hd.heap_lt, hd.handed_lt, hd.handed_lt_lower,
      List.forall_mem_map.mpr hd.round_le, List.forall_mem_map.mpr hd.older,
      List.forall_mem_map.mpr hd.previous, List.forall_mem_map.mpr hd.current⟩, hgroup⟩
  have hacc := ho.accounted
  rw [List.map_append] at hacc ⊢
  rw [hheap, List.map_map]
  exact hacc

end

/-- The queued events, still with the storage of their rings or not. -/
def detachAll (heap : List (Item G E)) : List (Item G E) :=
  heap.map fun item => { item with value := item.value.detachRingStorage }

/-- A property of the rings, the queued events and the context that every part of a
round keeps, the records read being such as `R` tells. An event popped without force
is older than what is queued and unread. -/
structure Kept (finish : Finish G E C) (R : RingRecord E → Prop)
    (P : PerfGroup G → List (Item G E) → C → Prop) : Prop where
  detached : ∀ {perf heap ctx}, P perf heap ctx → P perf (detachAll heap) ctx
  dropped : ∀ {perf item rest ctx}, P perf (item :: rest) ctx → P perf rest ctx
  popped : ∀ {perf item rest ctx}, P perf (item :: rest) ctx →
    (∀ other ∈ rest, item.Before other) → item.key < perf.now →
    (∀ h l, perf.outputs.get h = some l → item.key < l) →
    P perf rest (finish false ctx item).1
  forced : ∀ {perf item rest ctx}, P perf (item :: rest) ctx →
    P perf rest (finish true ctx item).1
  queued : ∀ {perf heap ctx} {item : Item G E} {r : RingRecord E} {lower : ℕ}, P perf heap ctx →
    perf.outputs.get item.group = some lower → lower ≤ item.key → R r →
    item.key = r.key → r.event = some item.value.event → P perf (insertItem item heap) ctx
  read : ∀ {perf heap ctx fd} {reading : Reading E}, P perf heap ctx →
    perf.publishes fd reading = true → P (perf.afterReading fd reading) heap ctx

/-- The property that says nothing. -/
theorem kept_true (finish : Finish G E C) : Kept finish (fun _ => True) fun _ _ _ => True := by
  constructor <;> intros <;> trivial

section

variable {finish : Finish G E C} {R : RingRecord E → Prop}
  {P : PerfGroup G → List (Item G E) → C → Prop} {round : ℕ} {w : Recording G E C}

/-- The loop pops as long as it can, unless an event fails to finish. -/
theorem drainLoop_exhausts (finish : Finish G E C) (force : Bool) (rounds : ℕ)
    (sink : DrainSink G E C) (hrounds : sink.sorter.heap.length ≤ rounds) :
    (DrainSink.drainLoop finish force rounds sink).failed = true ∨
      DrainSink.popWith force (DrainSink.drainLoop finish force rounds sink).sorter = none := by
  induction rounds generalizing sink with
  | zero =>
    right
    have hheap : sink.sorter.heap = [] := List.eq_nil_of_length_eq_zero (Nat.le_zero.mp hrounds)
    cases force <;>
      simp [DrainSink.drainLoop, DrainSink.popWith, EventSorter.pop, EventSorter.forcePop, hheap]
  | succ rounds ih =>
    unfold DrainSink.drainLoop
    split
    · rename_i hpop
      exact .inr hpop
    · rename_i item sorter hpop
      dsimp only
      split
      · rename_i hfailed
        exact .inl hfailed
      · obtain ⟨-, rest, hheap, rfl⟩ := popWith_eq_some hpop
        refine ih _ ?_
        rw [hheap, List.length_cons] at hrounds
        rw [finishEvent_sorter]
        exact Nat.le_of_succ_le_succ hrounds

theorem finishEvent_kept (hP : Kept finish R P) {rest : List (Item G E)}
    (hbefore : ∀ other ∈ rest, item.Before other) (hnow : item.key < perf.now)
    (hrel : ∀ h l, perf.outputs.get h = some l → item.key < l)
    (hp : P perf (item :: rest) sink.ctx) :
    P perf rest (sink.finishEvent finish false item).ctx := by
  unfold DrainSink.finishEvent
  dsimp only
  split
  · exact hP.dropped hp
  · exact hP.popped hp hbefore hnow hrel

/-- The invariant of a drain together with a property it keeps and the round it is in. -/
structure Holding (P : PerfGroup G → List (Item G E) → C → Prop) (perf : PerfGroup G)
    (done : G → Prop) (current : Option G) (round : ℕ) (sink : DrainSink G E C) : Prop where
  held : Held perf done current sink
  kept : P perf sink.sorter.heap sink.ctx
  round : sink.sorter.round = round

section

variable (hP : Kept finish R P)

include hP

theorem Holding.drainReadyEvents (hh : Holding P perf done current round sink)
    (hreach : Reached perf done current) :
    Holding P perf done current round (sink.drainReadyEvents finish) := by
  refine drainLoop_rule finish false ?_ _ sink hh
  intro sink item sorter hh hpop
  obtain ⟨hrel, rest, hheap, rfl⟩ := popWith_eq_some hpop
  have hitem : item ∈ sink.sorter.heap := hheap ▸ (.head _)
  have hreach' : Reached perf done sink.sorter.currentGroup := hh.held.group ▸ hreach
  have hsorted := hh.held.ordered.heap
  rw [hheap] at hsorted
  refine ⟨⟨hh.held.ordered.pop finish hpop, hh.held.dated.pop finish hreach' hpop, ?_⟩, ?_, ?_⟩
  · rw [finishEvent_sorter]
    exact hh.held.group
  · rw [finishEvent_sorter]
    refine finishEvent_kept hP (List.pairwise_cons.mp hsorted).1
      (hh.held.dated.heap_lt item hitem) ?_ (hheap ▸ hh.kept)
    exact fun h l hget => hh.held.dated.released hreach' hitem (hrel rfl) hget
  · rw [finishEvent_sorter]
    exact hh.round

/-- What a forced flush keeps. -/
theorem flushReadyEvents_kept (hkept : P perf sink.sorter.heap sink.ctx) :
    P perf (sink.flushReadyEvents finish).sorter.heap (sink.flushReadyEvents finish).ctx := by
  have hloop := drainLoop_rule finish true (P := fun s => P perf s.sorter.heap s.ctx)
    (by
      intro s item sorter hs hpop
      obtain ⟨-, rest, hheap, rfl⟩ := popWith_eq_some hpop
      rw [hheap] at hs
      unfold DrainSink.finishEvent
      dsimp only
      split
      · exact hP.dropped hs
      · exact hP.forced hs)
    sink.sorter.heap.length sink hkept
  exact hloop

theorem Holding.queueEvent {sink' : DrainSink G E C} (hgroup : sink.sorter.currentGroup = some fd)
    (hround : sink.sorter.round = round) (hkept : P perf sink.sorter.heap sink.ctx)
    (hlower : perf.outputs.get fd = some lower) {r : RingRecord E} (hr : R r)
    (hfrom : lower ≤ r.key)
    (hqueue : sink.queueEvent r.key (sink.prepareEvent r.event) = .ok sink') :
    P perf sink'.sorter.heap sink'.ctx ∧ sink'.sorter.currentGroup = some fd ∧
      sink'.sorter.round = round := by
  cases hp : sink.prepareEvent r.event with
  | none =>
    rw [hp] at hqueue
    cases hqueue
    exact ⟨hkept, hgroup, hround⟩
  | some prepared =>
    have hevent : r.event = some prepared.event := by
      unfold DrainSink.prepareEvent at hp
      split at hp
      · cases hp
      · obtain ⟨event, hevent, rfl⟩ := Option.map_eq_some_iff.mp hp
        exact hevent
    rw [hp] at hqueue
    simp only [DrainSink.queueEvent, EventSorter.pushCurrentGroup, hgroup] at hqueue
    cases hqueue
    exact ⟨hP.queued hkept hlower hfrom hr rfl hevent, rfl, hround⟩

theorem Holding.drainOutputRing {records : List (RingRecord E)} {sink' : DrainSink G E C}
    (hgroup : sink.sorter.currentGroup = some fd) (hround : sink.sorter.round = round)
    (hkept : P perf sink.sorter.heap sink.ctx) (hlower : perf.outputs.get fd = some lower)
    (hrecords : ∀ r ∈ records, R r ∧ lower ≤ r.key)
    (hdrain : Sorter.drainOutputRing sink records = .ok sink') :
    P perf sink'.sorter.heap sink'.ctx ∧ sink'.sorter.round = round := by
  induction records generalizing sink with
  | nil =>
    cases hdrain
    exact ⟨hkept, hround⟩
  | cons r records ih =>
    obtain ⟨next, hnext, hdrain⟩ := bind_ok.mp hdrain
    obtain ⟨hr, hfrom⟩ := hrecords r (.head _)
    obtain ⟨hkept', hgroup', hround'⟩ :=
      Holding.queueEvent hP hgroup hround hkept hlower hr hfrom hnext
    exact ih hgroup' hround' hkept' (fun r hr => hrecords r (.tail _ hr)) hdrain

end

/-- What a reading the ring could return says. -/
theorem publishes_eq_true {reading : Reading E} (h : perf.publishes fd reading = true) :
    ∃ lower, perf.outputs.get fd = some lower ∧ perf.now ≤ reading.stop ∧
      ∀ r ∈ reading.records, lower ≤ r.key ∧ r.key < reading.stop := by
  unfold PerfGroup.publishes at h
  split at h
  · cases h
  · rename_i lower hget
    simp only [Bool.and_eq_true, decide_eq_true_eq, List.all_eq_true] at h
    exact ⟨lower, hget, h.1, h.2⟩

/-- A reading queues its records and leaves only later ones in its ring. -/
theorem Holding.reading (hP : Kept finish R P)
    (hh : Holding P perf done (some fd) round sink)
    (hdone : ∀ h l, perf.outputs.get h = some l → done h → h < fd) {reading : Reading E}
    (hpub : perf.publishes fd reading = true) (hrecords : ∀ r ∈ reading.records, R r) :
    ∃ sink', Sorter.drainOutputRing sink reading.records = .ok sink' ∧
      Holding P (perf.afterReading fd reading)
        (fun h => (reading.complete = true ∧ h = fd) ∨ done h) (some fd) round sink' := by
  obtain ⟨lower, hlower, hnow, hdated⟩ := publishes_eq_true hpub
  -- the records are dated before the end of the reading, so time passes first
  have hheld : Held { perf with now := reading.stop } done (some fd) sink :=
    ⟨hh.held.ordered, Dated.wait hh.held.dated hnow, hh.held.group⟩
  obtain ⟨sink', hdrain, hheld'⟩ := Held.drainOutputRing hheld hdone hlower hdated
  obtain ⟨hkept, hround⟩ := Holding.drainOutputRing hP hh.held.group hh.round hh.kept hlower
    (fun r hr => ⟨hrecords r hr, (hdated r hr).1⟩) hdrain
  refine ⟨sink', hdrain, ⟨hheld'.ordered, ?_, hheld'.group⟩, hP.read hkept hpub, hround⟩
  unfold PerfGroup.afterReading
  cases hcomplete : reading.complete with
  | false =>
    have hd := hheld'.dated
    exact Dated.of_later hd le_rfl hd.lower_le fun h l hget =>
      .inr ⟨⟨l, hget, le_rfl⟩, fun hcase => hcase.resolve_left fun hc => (by cases hc.1)⟩
  | true =>
    have hd := Dated.ring_read hheld'.dated fd
    exact Dated.of_later hd le_rfl hd.lower_le fun h l hget =>
      .inr ⟨⟨l, hget, le_rfl⟩, fun hcase => hcase.imp_left And.right⟩

theorem mem_of_mem_drainReadyEvents {e : Item G E}
    (he : e ∈ (sink.drainReadyEvents finish).sorter.heap) : e ∈ sink.sorter.heap :=
  mem_of_mem_drainLoop finish
    (show e ∈ (DrainSink.drainLoop finish false _ sink).sorter.heap from he)

/-- The end of the completed round `n`: all that waits was queued in it or before, and
waits because the sorter holds it back. -/
structure Completed (n : ℕ) (sink : DrainSink G E C) : Prop where
  round : sink.sorter.round = n + 1
  queued : ∀ e ∈ sink.sorter.heap, e.round ≤ n
  drained : sink.failed = true ∨ sink.sorter.pop = none

/-- How a round ends: between rounds, with what it keeps, and when it was not cut short,
completed. -/
def RoundEnds (P : PerfGroup G → List (Item G E) → C → Prop) (round : ℕ)
    (r : Except Halt (Recording G E C × Bool)) : Prop :=
  r = .error .unpublished ∨ ∃ w ok, r = .ok (w, ok) ∧ Settled w ∧
    P w.perf w.sink.sorter.heap w.sink.ctx ∧ (ok = true → Completed round w.sink)

theorem reached_none : Reached perf done none := fun _ h => (by cases h)

theorem Holding.complete (hP : Kept finish R P) (hh : Holding P perf done current round sink)
    (hall : ∀ h l, perf.outputs.get h = some l → done h) :
    Holding P perf (fun _ => False) none (round + 1)
        (DrainSink.drainReadyEvents finish { sink with sorter := sink.sorter.advanceRound }) ∧
      Completed round
        (DrainSink.drainReadyEvents finish { sink with sorter := sink.sorter.advanceRound }) := by
  have hadvanced : Holding P perf (fun _ => False) none (round + 1)
      { sink with sorter := sink.sorter.advanceRound } :=
    ⟨Held.advanceRound hh.held hall, hh.kept, congrArg (· + 1) hh.round⟩
  have hready := hadvanced.drainReadyEvents hP reached_none
  refine ⟨hready, hready.round, ?_, ?_⟩
  · intro e he
    have hmem := mem_of_mem_drainReadyEvents he
    exact hh.round ▸ hh.held.dated.round_le e hmem
  · exact drainLoop_exhausts finish false _ _ le_rfl

/-- One round over the rings that are left, the others having been read before them. -/
theorem drainEventRound_ends (hP : Kept finish R P) (fds : List G) (readings : List (Reading E))
    (hrecords : ∀ reading ∈ readings, ∀ r ∈ reading.records, R r) (round : ℕ)
    (w : Recording G E C) (hsorted : fds.Pairwise (· < ·))
    (hbelow : ∀ h l, w.perf.outputs.get h = some l → h ∉ fds → ∀ fd ∈ fds, h < fd)
    (hcurrent : ∀ c, current = some c → ∀ fd ∈ fds, c ≤ fd)
    (hh : Holding P w.perf (· ∉ fds) current round w.sink) :
    RoundEnds P round (drainEventRound finish fds readings w) := by
  induction fds generalizing readings w current with
  | nil =>
    obtain ⟨hholding, hcompleted⟩ := hh.complete hP fun h l _ => List.not_mem_nil
    exact .inr ⟨_, true, rfl, hholding.held, hholding.kept, fun _ => hcompleted⟩
  | cons fd fds ih =>
    cases readings with
    | nil => exact .inl rfl
    | cons reading readings =>
      obtain ⟨hfirst, hsorted'⟩ := List.pairwise_cons.mp hsorted
      obtain ⟨sorter, hbegin, hbegun⟩ :=
        Held.beginGroup hh.held fun c hc => hcurrent c hc fd (.head _)
      have hsorter : sorter.heap = w.sink.sorter.heap ∧ sorter.round = w.sink.sorter.round := by
        unfold EventSorter.beginGroup at hbegin
        split at hbegin
        · cases hbegin
          exact ⟨rfl, rfl⟩
        · cases hbegin
      have hreach : Reached w.perf (· ∉ fd :: fds) (some fd) := by
        intro c hc h l _ hlt
        cases hc
        intro hmem
        rcases List.mem_cons.mp hmem with rfl | hmem
        · exact hlt.false
        · exact (hfirst h hmem).not_gt hlt
      have hready : Holding P w.perf (· ∉ fd :: fds) (some fd) round
          (DrainSink.drainReadyEvents finish { w.sink with sorter := sorter }) :=
        Holding.drainReadyEvents hP ⟨hbegun, hsorter.1 ▸ hh.kept, hsorter.2.trans hh.round⟩ hreach
      unfold drainEventRound
      rw [hbegin]
      simp only [orAssertion, Except.mapError, bind, Except.bind]
      split
      · rename_i hpub
        obtain ⟨sink', hdrain, hread⟩ := hready.reading hP
          (fun h l hget hnot => hbelow h l hget hnot fd (.head _)) hpub
          (hrecords reading (.head _))
        rw [hdrain]
        cases hcomplete : reading.complete with
        | false =>
          exact .inr ⟨_, false, rfl, Held.abortRound (Held.detachQueuedEvents hread.held),
            hP.detached hread.kept, fun h => (by cases h)⟩
        | true =>
          have hget : ∀ h, (w.perf.afterReading fd reading).outputs.get h =
              if h = fd then some reading.stop else w.perf.outputs.get h := by
            intro h
            simp only [PerfGroup.afterReading, hcomplete, if_true, BTreeMap.get_insert]
          have hdone : Holding P (w.perf.afterReading fd reading) (· ∉ fds) (some fd) round
              sink' := by
            refine ⟨⟨hread.held.ordered, ?_, hread.held.group⟩, hread.kept, hread.round⟩
            have hd := hread.held.dated
            refine Dated.of_later hd le_rfl hd.lower_le fun h l hgot =>
              .inr ⟨⟨l, hgot, le_rfl⟩, fun hnot => ?_⟩
            by_cases heq : h = fd
            · exact .inl ⟨hcomplete, heq⟩
            · exact .inr (fun hmem => (List.mem_cons.mp hmem).elim heq hnot)
          have hbelow' : ∀ h l, (w.perf.afterReading fd reading).outputs.get h = some l →
              h ∉ fds → ∀ fd' ∈ fds, h < fd' := by
            intro h l hgot hnot fd' hmem
            rw [hget] at hgot
            split at hgot
            · rename_i heq
              exact heq ▸ hfirst fd' hmem
            · rename_i hne
              exact hbelow h l hgot (fun hin => (List.mem_cons.mp hin).elim hne hnot) fd'
                (.tail _ hmem)
          have hreach' : Reached (w.perf.afterReading fd reading) (· ∉ fds) (some fd) := by
            intro c hc h l _ hlt
            cases hc
            exact fun hmem => (hfirst h hmem).not_gt hlt
          refine ih readings (fun reading hr => hrecords reading (.tail _ hr)) _
            hsorted' hbelow' ?_ (hdone.drainReadyEvents hP hreach')
          intro c hc fd' hmem
          cases hc
          exact (hfirst fd' hmem).le
      · exact .inl rfl

theorem fds_sorted (w : Recording G E C) : w.fds.Pairwise (· < ·) :=
  List.pairwise_map.mpr w.perf.outputs.sorted

theorem mem_fds {h : G} {l : ℕ} (hget : w.perf.outputs.get h = some l) : h ∈ w.fds :=
  List.mem_map.mpr ⟨(h, l), BTreeMap.get_eq_some.mp hget, rfl⟩

/-- A round over all the rings. -/
theorem round_ends (hP : Kept finish R P) {readings : List (Reading E)}
    (hrecords : ∀ reading ∈ readings, ∀ r ∈ reading.records, R r) (hw : Settled w)
    (hkept : P w.perf w.sink.sorter.heap w.sink.ctx) :
    RoundEnds P w.sink.sorter.round (drainEventRound finish w.fds readings w) := by
  have hd : Dated w.perf (· ∉ w.fds) w.sink :=
    Dated.of_later hw.dated le_rfl hw.dated.lower_le fun h l hget =>
      .inr ⟨⟨l, hget, le_rfl⟩, fun hnot => hnot (mem_fds hget)⟩
  exact drainEventRound_ends hP w.fds readings hrecords _ w (fds_sorted w)
    (fun h l hget hnot => absurd (mem_fds hget) hnot) (fun c hc => (by cases hc))
    ⟨⟨hw.ordered, hd, hw.group⟩, hkept, rfl⟩

/-- How a drain ends. -/
def DrainEnds (P : PerfGroup G → List (Item G E) → C → Prop)
    (r : Except Halt (Recording G E C × Bool)) : Prop :=
  r = .error .unpublished ∨
    ∃ w ok, r = .ok (w, ok) ∧ Settled w ∧ P w.perf w.sink.sorter.heap w.sink.ctx

theorem RoundEnds.drainEnds {r : Except Halt (Recording G E C × Bool)} (h : RoundEnds P round r) :
    DrainEnds P r := by
  rcases h with herror | ⟨w, ok, hr, hw, hkept, -⟩
  · exact .inl herror
  · exact .inr ⟨w, ok, hr, hw, hkept⟩

theorem detachIfQueued_ends (hP : Kept finish R P) (hw : Settled w)
    (hkept : P w.perf w.sink.sorter.heap w.sink.ctx) : Settled (detachIfQueued w) ∧
      P (detachIfQueued w).perf (detachIfQueued w).sink.sorter.heap
        (detachIfQueued w).sink.ctx := by
  unfold detachIfQueued
  split
  · exact ⟨Held.detachQueuedEvents hw, hP.detached hkept⟩
  · exact ⟨hw, hkept⟩

theorem consumeEvents_ends (hP : Kept finish R P) {first second : List (Reading E)}
    (hfirst : ∀ reading ∈ first, ∀ r ∈ reading.records, R r)
    (hsecond : ∀ reading ∈ second, ∀ r ∈ reading.records, R r) (hw : Settled w)
    (hkept : P w.perf w.sink.sorter.heap w.sink.ctx) :
    DrainEnds P (consumeEvents finish first second w) := by
  unfold consumeEvents
  rcases round_ends hP hfirst hw hkept with herror | ⟨w₁, ok₁, hround₁, hw₁, hkept₁, -⟩
  · rw [herror]
    exact .inl rfl
  rw [hround₁]
  cases ok₁ with
  | false => exact .inr ⟨w₁, false, rfl, hw₁, hkept₁⟩
  | true =>
    have hsecondEnds : DrainEnds P (secondRound finish second w₁) := by
      unfold secondRound
      split
      · exact (round_ends hP hsecond hw₁ hkept₁).drainEnds
      · exact .inr ⟨w₁, true, rfl, hw₁, hkept₁⟩
    simp only [bind, Except.bind, if_true]
    rcases hsecondEnds with herror | ⟨w₂, ok₂, hround₂, hw₂, hkept₂⟩
    · rw [herror]
      exact .inl rfl
    · rw [hround₂]
      cases ok₂ with
      | false => exact .inr ⟨w₂, false, rfl, hw₂, hkept₂⟩
      | true =>
        obtain ⟨hw', hkept'⟩ := detachIfQueued_ends hP hw₂ hkept₂
        exact .inr ⟨_, true, rfl, hw', hkept'⟩

end

end StackPulse.EventRounds
