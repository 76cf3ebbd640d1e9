import StackPulse.LiveFollowing

/-!
The steps of a recorder and its live reader. The reader stands between two records that
are published, with exactly the records before it handed out; what it has given back lies
behind it. Every step of either party keeps this.
-/
namespace StackPulse.LiveSteps

open Bytes Varint Model Records Scanning OpenSpool TailReader UnreadBytes LiveSpool LiveFollowing

variable {V : IntegerEncoding} {S E : Type}

section

variable {w : Written V} {m stop : ℕ} {tail : Tail} {done rest : List SpoolEntry}

theorem samplesBefore_eq (h : Tailing w m tail done rest) (hle : tail.position ≤ stop) :
    w.samplesBefore stop =
      samplesOf done ++ samplesOf (rest.filter fun entry => decide (entry.stop ≤ stop)) := by
  have hdone : (done.filter fun entry => decide (entry.stop ≤ stop)) = done := by
    apply List.filter_eq_self.mpr
    intro entry hentry
    have hbounds := h.before.entry_bounds (Written.start_mmap w).2 entry hentry
    exact decide_eq_true (hbounds.2.2.trans hle)
  unfold LiveSpool.Written.samplesBefore samplesOf
  rw [h.entries, List.filter_append, hdone, List.filterMap_append]

/-- At the published end, nothing published is left. -/
theorem samplesBefore_all (h : Tailing w m tail done rest) (hle : tail.position ≤ stop)
    (hend : stop ≤ tail.position) : w.samplesBefore stop = samplesOf done := by
  have hvalid : (⟨w.mmap, tail.position⟩ : Cursor).Valid :=
    (extends_full w m tail.position).valid h.valid
  have hrest : (rest.filter fun entry => decide (entry.stop ≤ stop)) = [] := by
    apply List.filter_eq_nil_iff.mpr
    intro entry hentry
    have hbounds := h.ahead.entry_bounds hvalid entry hentry
    have hstart : tail.position ≤ entry.start := hbounds.1
    rw [decide_eq_true_eq]
    omega
  rw [samplesBefore_eq h hle, hrest]
  exact List.append_nil _

end

theorem start_le_boundary (w : Written V) {m : ℕ} (h : m ∈ w.boundaries) :
    w.start.position ≤ m := by
  rcases List.mem_cons.mp h with rfl | hmem
  · exact le_rfl
  · obtain ⟨entry, hentry, rfl⟩ := List.mem_map.mp hmem
    have hbounds := w.reading.scan.run.entry_bounds (Written.start_mmap w).2 entry hentry
    exact hbounds.1.trans hbounds.2.1.le

/-- The reader has been told that the recording is over. -/
structure Over (r : Recording S E) (result : ReadStatus S E) : Prop where
  result : result = r.published.status.result
  read : r.published.stop ≤ r.reader.tail.position
  handed : r.reader.tail.initialSamplesPending = false
  released : r.reader.reclaimPrevious = false
  phase : r.phase ≠ .reading

/-- The end that a reading poll took from under the lock. -/
structure Target (w : Written V) (r : Recording S E) (m e : ℕ) : Prop where
  visibleLen : r.reader.tail.visibleLen = some e
  mapped : m ≤ e
  published : e ≤ r.published.stop
  boundary : e ∈ w.boundaries
  unread : r.reader.tail.initialSamplesPending = true ∨ r.reader.tail.position < e

structure Standing (w : Written V) (pageSize : ℕ) (r : Recording S E) (m : ℕ)
    (done rest : List SpoolEntry) : Prop where
  tailing : Tailing w m r.reader.tail done rest
  mapped : m ≤ r.published.stop
  published : r.published.stop ∈ w.boundaries
  flushed : r.published.stop ≤ r.flushed
  reclaimed : reclaimedBytes r.reader ≤ discardEnd pageSize r.reader.tail
  discarder : r.reader.reclamation = .enabled → r.reader.discarder.isSome = true
  initial : r.reader.tail.initialSamplesPending = true →
    delivered r = [] ∧ r.reader.tail.samples = samplesOf done
  later : r.reader.tail.initialSamplesPending = false → delivered r = samplesOf done
  released : r.phase = .waiting → r.reader.reclaimPrevious = false
  target : r.phase = .reading → ∃ e, Target w r m e
  readable : ∀ result ∈ r.results, ∀ e, result ≠ .readFailed e
  ended : ∀ result ∈ r.results, result.isFinal = true → Over r result
  lasting : r.results.Pairwise fun result later => result.isFinal = true → later = result

/-- The parties stand somewhere. -/
def Sound (w : Written V) (pageSize : ℕ) (r : Recording S E) : Prop :=
  ∃ m done rest, Standing w pageSize r m done rest

section

variable {w : Written V} {pageSize m : ℕ} {r r' : Recording S E} {done rest : List SpoolEntry}

/-- What a step of the recorder leaves. -/
structure Recorded (w : Written V) (r r' : Recording S E) : Prop where
  reader : r'.reader = r.reader
  phase : r'.phase = r.phase
  results : r'.results = r.results
  grown : r.published.stop ≤ r'.published.stop
  published : r'.published.stop ∈ w.boundaries
  flushed : r'.published.stop ≤ r'.flushed
  ended : r.published.status ≠ .unfinished → r'.published = r.published

theorem Standing.recorded (h : Standing w pageSize r m done rest) (hr : Recorded w r r') :
    Standing w pageSize r' m done rest where
  tailing := hr.reader ▸ h.tailing
  mapped := h.mapped.trans hr.grown
  published := hr.published
  flushed := hr.flushed
  reclaimed := hr.reader ▸ h.reclaimed
  discarder := hr.reader ▸ h.discarder
  initial := by
    unfold delivered
    rw [hr.reader, hr.results]
    exact h.initial
  later := by
    unfold delivered
    rw [hr.reader, hr.results]
    exact h.later
  released := by
    rw [hr.phase, hr.reader]
    exact h.released
  target := by
    rw [hr.phase]
    intro hphase
    obtain ⟨e, ht⟩ := h.target hphase
    exact ⟨e, hr.reader ▸ ht.visibleLen, ht.mapped, ht.published.trans hr.grown, ht.boundary,
      hr.reader ▸ ht.unread⟩
  readable := hr.results ▸ h.readable
  ended := by
    rw [hr.results]
    intro result hresult hfinal
    have hover := h.ended result hresult hfinal
    have hended : r.published.status ≠ .unfinished := by
      intro hopen
      have hresult := hover.result
      rw [hopen] at hresult
      rw [hresult] at hfinal
      cases hfinal
    have hpublished := hr.ended hended
    exact ⟨hpublished ▸ hover.result, by rw [hpublished, hr.reader]; exact hover.read,
      hr.reader ▸ hover.handed, hr.reader ▸ hover.released, hr.phase ▸ hover.phase⟩
  lasting := hr.results ▸ h.lasting

theorem publish_cases (p : Published S E) (stop : ℕ) :
    (p.publish stop = p) ∨ (p.status = .unfinished ∧ p.publish stop = { p with stop := stop }) := by
  unfold Published.publish
  cases hstatus : p.status with
  | unfinished =>
    by_cases hne : p.stop = stop
    · exact .inl (if_neg (not_not.mpr hne))
    · exact .inr ⟨rfl, if_pos hne⟩
  | finished summary => exact .inl rfl
  | aborted error => exact .inl rfl

theorem finish_cases (p : Published S E) (stop : ℕ) (summary : S) :
    (p.finish stop summary = p) ∨
      (p.status = .unfinished ∧ p.finish stop summary = ⟨stop, .finished summary⟩) := by
  unfold Published.finish
  cases hstatus : p.status with
  | unfinished => exact .inr ⟨rfl, rfl⟩
  | finished summary => exact .inl rfl
  | aborted error => exact .inl rfl

theorem abort_cases (p : Published S E) (error : Option E) :
    (p.abort error = p) ∨
      (p.status = .unfinished ∧ p.abort error = { p with status := .aborted error }) := by
  unfold Published.abort
  cases hstatus : p.status with
  | unfinished => exact .inr ⟨rfl, rfl⟩
  | finished summary => exact .inl rfl
  | aborted error => exact .inl rfl

theorem mayPublish_iff {stop : ℕ} : r.mayPublish w stop = true ↔
    stop ∈ w.boundaries ∧ r.published.stop ≤ stop ∧ stop ≤ r.flushed := by
  unfold Recording.mayPublish
  rw [Bool.and_eq_true, Bool.and_eq_true, decide_eq_true_eq, decide_eq_true_eq, decide_eq_true_eq,
    and_assoc]

/-- The published end moves only while the recording is on. -/
theorem Standing.publishes (h : Standing w pageSize r m done rest) {p : Published S E}
    (hp : p = r.published ∨ (r.published.status = .unfinished ∧ p.stop ∈ w.boundaries ∧
      r.published.stop ≤ p.stop ∧ p.stop ≤ r.flushed)) :
    Recorded w r { r with published := p } := by
  rcases hp with rfl | ⟨hopen, hboundary, hgrown, hflushed⟩
  · exact ⟨rfl, rfl, rfl, le_rfl, h.published, h.flushed, fun _ => rfl⟩
  · exact ⟨rfl, rfl, rfl, hgrown, hboundary, hflushed, fun hended => absurd hopen hended⟩

/-- A step belongs to the recorder or to the reader. -/
def byRecorder : Step S E → Bool
  | .reclaim _ => false
  | .wake => false
  | .read => false
  | _ => true

theorem Standing.recorder_step (h : Standing w pageSize r m done rest) {s : Step S E}
    (hs : byRecorder s = true) (hstep : step w pageSize r s = some r') : Recorded w r r' := by
  cases s with
  | append appended =>
    obtain ⟨-, ⟨⟩⟩ := Option.ite_none_right_eq_some.mp hstep
    exact ⟨rfl, rfl, rfl, le_rfl, h.published, h.flushed, fun _ => rfl⟩
  | flush flushed =>
    obtain ⟨hle, ⟨⟩⟩ := Option.ite_none_right_eq_some.mp hstep
    exact ⟨rfl, rfl, rfl, le_rfl, h.published, h.flushed.trans hle.1, fun _ => rfl⟩
  | publish stop =>
    obtain ⟨hmay, ⟨⟩⟩ := Option.ite_none_right_eq_some.mp hstep
    apply h.publishes
    rcases publish_cases r.published stop with hsame | ⟨hopen, hnew⟩
    · exact .inl hsame
    · rw [hnew]
      exact .inr ⟨hopen, mayPublish_iff.mp hmay⟩
  | finish stop summary =>
    obtain ⟨hmay, ⟨⟩⟩ := Option.ite_none_right_eq_some.mp hstep
    apply h.publishes
    rcases finish_cases r.published stop summary with hsame | ⟨hopen, hnew⟩
    · exact .inl hsame
    · rw [hnew]
      exact .inr ⟨hopen, mayPublish_iff.mp hmay⟩
  | abort error =>
    cases hstep
    apply h.publishes
    rcases abort_cases r.published error with hsame | ⟨hopen, hnew⟩
    · exact .inl hsame
    · rw [hnew]
      exact .inr ⟨hopen, h.published, le_rfl, h.flushed⟩
  | reclaim answer => cases hs
  | wake => cases hs
  | read => cases hs

theorem discardEnd_le (pageSize : ℕ) (tail : Tail) : discardEnd pageSize tail ≤ tail.position :=
  Nat.sub_le _ _

theorem discardEnd_mono (pageSize : ℕ) {tail tail' : Tail} (h : tail.position ≤ tail'.position) :
    discardEnd pageSize tail ≤ discardEnd pageSize tail' := by
  have hpages : ∀ t : Tail, discardEnd pageSize t = pageSize * (t.position / pageSize) := by
    intro t
    have hsum := Nat.div_add_mod t.position pageSize
    unfold discardEnd
    omega
  rw [hpages, hpages]
  exact Nat.mul_le_mul_left _ (Nat.div_le_div_right h)

/-- What is left of a reader whose pages were given back, or not. -/
structure Released (pageSize : ℕ) (reader reader' : LiveReader) : Prop where
  tail : ∃ mmap, reader'.tail = withMmap reader.tail mmap ∧
    Agrees ⟨mmap, reader.tail.position⟩ reader.tail.cursor
  reclaimed : reclaimedBytes reader ≤ discardEnd pageSize reader.tail →
    reclaimedBytes reader' ≤ discardEnd pageSize reader.tail
  discarder : reader'.discarder.isSome = reader.discarder.isSome
  reclamation : reader'.reclamation = .enabled → reader.reclamation = .enabled

theorem released_same (pageSize : ℕ) (reader : LiveReader) : Released pageSize reader reader :=
  ⟨⟨reader.tail.mmap, rfl, rfl, rfl, rfl⟩, id, rfl, id⟩

theorem discardConsumed_released {answer : Fallocate} {reader reader' : LiveReader}
    (h : discardConsumed pageSize answer reader = .ok reader') :
    Released pageSize reader reader' := by
  unfold discardConsumed at h
  cases hdiscarder : reader.discarder with
  | none =>
    rw [hdiscarder] at h
    cases h
  | some position =>
    simp only [hdiscarder] at h
    split at h
    · cases h
      exact released_same pageSize reader
    · split at h
      · cases h
      · cases answer with
        | done =>
          cases h
          refine ⟨⟨_, rfl, agrees_punch _ (discardEnd_le pageSize reader.tail)⟩,
            fun _ => le_rfl, ?_, id⟩
          rw [hdiscarder]
          rfl
        | unsupported => cases h
        | failed => cases h

/-- The pages of a recording can be given back unless the file system fails. -/
theorem discardConsumed_ne_other (h : Standing w pageSize r m done rest) {answer : Fallocate}
    (henabled : r.reader.reclamation = .enabled) (hanswer : answer ≠ .failed) :
    discardConsumed pageSize answer r.reader ≠ .error .other := by
  obtain ⟨position, hdiscarder⟩ := Option.isSome_iff_exists.mp (h.discarder henabled)
  have hreclaimed : reclaimedBytes r.reader = position := by
    unfold reclaimedBytes
    rw [hdiscarder, Option.getD_some]
  have hbehind := h.reclaimed
  have hend := discardEnd_le pageSize r.reader.tail
  have hwithin := h.tailing.within
  have hlen := Written.boundary_le w h.tailing.boundary
  have hsmall := w.small
  rw [hreclaimed] at hbehind
  have hoffsets :
      ¬ (2 ^ 63 ≤ position ∨ 2 ^ 63 ≤ discardEnd pageSize r.reader.tail - position) := by
    omega
  unfold discardConsumed
  simp only [hdiscarder, if_neg hoffsets]
  split
  · exact fun h => nomatch h
  · cases answer with
    | done => exact fun h => nomatch h
    | unsupported => exact fun h => nomatch h
    | failed => exact absurd rfl hanswer

/-- The start of a poll goes on to wait, or fails and leaves the reader as it is. -/
theorem pollReclaim_cases (pageSize : ℕ) (answer : Fallocate) (r : Recording S E) :
    (∃ reader, pollReclaim pageSize answer r = { r with reader := reader, phase := .waiting } ∧
        Released pageSize r.reader reader ∧ reader.reclaimPrevious = false) ∨
      (pollReclaim pageSize answer r = r.returns .reclaimFailed ∧
        r.reader.reclaimPrevious = true ∧ r.reader.reclamation = .enabled ∧
        discardConsumed pageSize answer r.reader = .error .other) := by
  unfold pollReclaim
  by_cases hdue : r.reader.reclaimPrevious = true ∧ r.reader.reclamation = .enabled
  · simp only [if_pos hdue]
    cases hdiscard : discardConsumed pageSize answer r.reader with
    | ok reader =>
      have hreleased := discardConsumed_released hdiscard
      exact .inl ⟨_, rfl, ⟨hreleased.tail, hreleased.reclaimed, hreleased.discarder,
        hreleased.reclamation⟩, rfl⟩
    | error e =>
      cases e with
      | unsupported =>
        have hsame := released_same pageSize r.reader
        exact .inl ⟨_, rfl, ⟨hsame.tail, hsame.reclaimed, rfl, fun h => (nomatch h)⟩, rfl⟩
      | other => exact .inr ⟨rfl, hdue.1, hdue.2, rfl⟩
  · simp only [if_neg hdue]
    have hsame := released_same pageSize r.reader
    exact .inl ⟨_, rfl, ⟨hsame.tail, hsame.reclaimed, rfl, id⟩, rfl⟩

section

variable (h : Standing w pageSize r m done rest)

include h

/-- A result that ends nothing is added. -/
theorem Standing.returns {result : ReadStatus S E} (hsamples : result.samples = [])
    (hread : ∀ e, result ≠ .readFailed e)
    (hnext : ∀ earlier ∈ r.results, earlier.isFinal = true → result = earlier)
    (hover : result.isFinal = true → Over r result) :
    Standing w pageSize (r.returns result) m done rest := by
  have hdelivered : delivered (r.returns result) = delivered r := by
    show (r.results ++ [result]).flatMap ReadStatus.samples = _
    rw [List.flatMap_append, List.flatMap_singleton, hsamples, List.append_nil]
    rfl
  have hresults : ∀ {other}, other ∈ (r.returns result).results →
      other ∈ r.results ∨ other = result := by
    intro other hother
    rcases List.mem_append.mp hother with hmem | hmem
    · exact .inl hmem
    · exact .inr (List.mem_singleton.mp hmem)
  refine ⟨h.tailing, h.mapped, h.published, h.flushed, h.reclaimed, h.discarder, ?_, ?_,
    fun hw => (nomatch hw), fun hw => (nomatch hw), ?_, ?_, ?_⟩
  · rw [hdelivered]
    exact h.initial
  · rw [hdelivered]
    exact h.later
  · intro other hother
    rcases hresults hother with hmem | rfl
    · exact h.readable other hmem
    · exact hread
  · intro other hother hfinal
    have hsome : Over r other := by
      rcases hresults hother with hmem | rfl
      · exact h.ended other hmem hfinal
      · exact hover hfinal
    exact ⟨hsome.result, hsome.read, hsome.handed, hsome.released, fun hw => nomatch hw⟩
  · refine List.pairwise_append.mpr ⟨h.lasting, List.pairwise_singleton _ _, ?_⟩
    intro earlier hearlier later hlater
    rw [List.mem_singleton.mp hlater]
    exact hnext earlier hearlier

theorem Standing.reclaim (answer : Fallocate) :
    Standing w pageSize (pollReclaim pageSize answer r) m done rest := by
  rcases pollReclaim_cases pageSize answer r with ⟨reader, heq, hreleased, hprevious⟩ |
    ⟨heq, hprevious, -, -⟩
  · rw [heq]
    obtain ⟨⟨mmap, htail, hagrees⟩, hreclaimed, hdiscarder, hreclamation⟩ := hreleased
    have hposition : reader.tail.position = r.reader.tail.position := by rw [htail]; rfl
    have hpending : reader.tail.initialSamplesPending = r.reader.tail.initialSamplesPending := by
      rw [htail]
      rfl
    have ht := h.tailing
    refine ⟨?_, h.mapped, h.published, h.flushed, ?_, ?_, ?_, ?_, fun _ => hprevious,
      fun hw => (nomatch hw), h.readable, ?_, h.lasting⟩
    · show Tailing w m reader.tail done rest
      rw [htail]
      exact ⟨ht.entries, ht.before, ht.ahead, Agrees.trans hagrees ht.mapped, ht.within,
        ht.boundary⟩
    · show reclaimedBytes reader ≤ discardEnd pageSize reader.tail
      rw [htail]
      exact hreclaimed h.reclaimed
    · intro henabled
      exact hdiscarder.trans (h.discarder (hreclamation henabled))
    · intro hinitial
      rw [show reader.tail.samples = r.reader.tail.samples by rw [htail]; rfl]
      exact h.initial (hpending.symm.trans hinitial)
    · intro hlater
      exact h.later (hpending.symm.trans hlater)
    · intro result hresult hfinal
      have hover := h.ended result hresult hfinal
      exact ⟨hover.result, hover.read.trans hposition.ge, hpending.trans hover.handed, hprevious,
        fun hw => nomatch hw⟩
  · rw [heq]
    refine h.returns rfl (fun e hw => nomatch hw) ?_ (fun hw => nomatch hw)
    -- a reader that was told the end has nothing to give back
    intro earlier hearlier hfinal
    have hover := h.ended earlier hearlier hfinal
    rw [hover.released] at hprevious
    cases hprevious

theorem Standing.wake (hphase : r.phase = .waiting) :
    Standing w pageSize (pollWake r) m done rest := by
  unfold pollWake
  by_cases hunread : r.reader.tail.initialSamplesPending = true ∨
      r.reader.tail.position < r.published.stop
  · simp only [if_pos hunread]
    have ht := h.tailing
    refine ⟨⟨ht.entries, ht.before, ht.ahead, ht.mapped, ht.within, ht.boundary⟩, h.mapped,
      h.published, h.flushed, h.reclaimed, h.discarder, h.initial, h.later, fun hw => (nomatch hw),
      fun _ => ⟨r.published.stop, rfl, h.mapped, le_rfl, h.published, hunread⟩, h.readable,
      ?_, h.lasting⟩
    intro result hresult hfinal
    have hover := h.ended result hresult hfinal
    rcases hunread with hpending | hlt
    · rw [hover.handed] at hpending
      cases hpending
    · exact absurd hover.read (Nat.not_le.mpr hlt)
  · simp only [if_neg hunread]
    obtain ⟨hpending, hend⟩ := not_or.mp hunread
    have hover : Over r r.published.status.result :=
      ⟨rfl, Nat.le_of_not_lt hend, Bool.eq_false_of_not_eq_true hpending, h.released hphase,
        by rw [hphase]; exact fun hw => nomatch hw⟩
    refine h.returns ?_ ?_ ?_ (fun _ => hover)
    · cases r.published.status <;> rfl
    · intro e
      cases r.published.status <;> exact fun hw => nomatch hw
    · intro earlier hearlier hfinal
      exact (h.ended earlier hearlier hfinal).result.symm

/-- The file holds what is published and not yet consumed. -/
theorem Standing.holds {e : ℕ} (hpublished : e ≤ r.published.stop) (hboundary : e ∈ w.boundaries) :
    Holds w (r.file w) e r.reader.tail.position := by
  have hflushed : e ≤ r.flushed := hpublished.trans h.flushed
  have hbehind : reclaimedBytes r.reader ≤ r.reader.tail.position :=
    h.reclaimed.trans (discardEnd_le pageSize r.reader.tail)
  have htake : (w.mmap.take r.flushed).take e = w.mmap.take e := by
    apply Mmap.ext_bytes
    show (w.mmap.bytes.take r.flushed).take e = w.mmap.bytes.take e
    rw [List.take_take, Nat.min_eq_left hflushed]
  constructor
  · unfold Recording.file
    rw [len_punch, Mmap.len_take]
    exact Nat.le_min.mpr ⟨hflushed, Written.boundary_le w hboundary⟩
  · have hagrees := agrees_take (agrees_punch (w.mmap.take r.flushed) hbehind) e
    rw [htake] at hagrees
    exact hagrees

/-- A batch is handed out. -/
theorem Standing.hands (hphase : r.phase = .reading) {e : ℕ} {tail : Tail}
    {group rest' : List SpoolEntry} {samples : List SampleRecord} (he : e ≤ r.published.stop)
    (htailing : Tailing w e tail (done ++ group) rest')
    (hle : r.reader.tail.position ≤ tail.position) (hpending : tail.initialSamplesPending = false)
    (hsamples : delivered r ++ samples = samplesOf (done ++ group)) :
    Standing w pageSize (Recording.returns
      { r with reader := { r.reader with tail := tail, reclaimPrevious := true } }
      (.batch samples)) e (done ++ group) rest' := by
  have hresults : ∀ {result}, result ∈ r.results ++ [.batch samples] →
      result ∈ r.results ∨ result = .batch samples := by
    intro result hresult
    rcases List.mem_append.mp hresult with hmem | hmem
    · exact .inl hmem
    · exact .inr (List.mem_singleton.mp hmem)
  have hnone : ∀ result ∈ r.results, result.isFinal ≠ true := by
    intro result hresult hfinal
    exact (h.ended result hresult hfinal).phase hphase
  refine ⟨htailing, he, h.published, h.flushed, h.reclaimed.trans (discardEnd_mono pageSize hle),
    h.discarder, ?_, ?_, fun hw => (nomatch hw), fun hw => (nomatch hw), ?_, ?_, ?_⟩
  · intro hinitial
    have hfalse : tail.initialSamplesPending = true := hinitial
    rw [hpending] at hfalse
    cases hfalse
  · intro _
    show (r.results ++ [ReadStatus.batch samples]).flatMap ReadStatus.samples = _
    rw [List.flatMap_append, List.flatMap_singleton]
    exact hsamples
  · intro result hresult
    rcases hresults hresult with hmem | rfl
    · exact h.readable result hmem
    · exact fun _ hw => nomatch hw
  · intro result hresult hfinal
    rcases hresults hresult with hmem | rfl
    · exact absurd hfinal (hnone result hmem)
    · cases hfinal
  · refine List.pairwise_append.mpr ⟨h.lasting, List.pairwise_singleton _ _, ?_⟩
    intro earlier hearlier later _ hfinal
    exact absurd hfinal (hnone earlier hearlier)

/-- What is still to come for the reader. -/
def unread (r : Recording S E) : ℕ :=
  (r.published.stop - r.reader.tail.position) + r.reader.tail.initialSamplesPending.toNat

/-- Reading hands out a batch and comes closer to the end. -/
theorem Standing.read (hphase : r.phase = .reading) :
    Sound w pageSize (pollRead w r) ∧ unread (pollRead w r) < unread r := by
  obtain ⟨e, htarget⟩ := h.target hphase
  have hfile := h.holds htarget.published htarget.boundary
  unfold pollRead
  cases hpending : r.reader.tail.initialSamplesPending with
  | true =>
    obtain ⟨batch, tail, hpoll, hsamples, htailing, hlater, hposition⟩ :=
      h.tailing.poll_initial htarget.visibleLen hfile htarget.mapped htarget.boundary hpending
    obtain ⟨hnone, hfirst⟩ := h.initial hpending
    rw [hpoll]
    constructor
    · have htailing' : Tailing w e tail (done ++ []) rest := by
        rw [List.append_nil]
        exact htailing
      refine ⟨_, _, _, h.hands hphase htarget.published htailing' hposition.ge hlater ?_⟩
      rw [hnone, List.nil_append, List.append_nil, hsamples, hfirst]
    · show (r.published.stop - tail.position) + tail.initialSamplesPending.toNat < unread r
      unfold unread
      rw [hlater, hpending, hposition]
      exact Nat.lt_succ_self _
  | false =>
    have hlt : r.reader.tail.position < e := by
      rcases htarget.unread with hinitial | hlt
      · rw [hpending] at hinitial
        cases hinitial
      · exact hlt
    obtain ⟨batch, tail, group, rest', hpoll, hsamples, -, htailing, hlater, hprogress⟩ :=
      h.tailing.poll_next htarget.visibleLen hfile htarget.mapped htarget.boundary hpending
    have hadvance := hprogress hlt
    rw [hpoll]
    constructor
    · refine ⟨_, _, _, h.hands hphase htarget.published htailing hadvance.le hlater ?_⟩
      rw [h.later hpending, hsamples]
      exact (List.filterMap_append ..).symm
    · show (r.published.stop - tail.position) + tail.initialSamplesPending.toNat < unread r
      have hpublished := htarget.published
      unfold unread
      rw [hlater, hpending]
      omega

end

end

end StackPulse.LiveSteps
