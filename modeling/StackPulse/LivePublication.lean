import StackPulse.LiveSteps

/-!
Every interleaving of a recorder and its live reader: nothing unpublished is decoded,
nothing is lost or handed out twice, and the end of the recording is reported after all
of it and for good.
-/
namespace StackPulse.LivePublication

open Bytes Varint Records Scanning OpenSpool LiveSpool LiveFollowing LiveSteps

variable {V : IntegerEncoding} {S E : Type}

section

variable {w : Written V} {pageSize : ℕ} {r r' : Recording S E}

theorem pollReclaim_published (pageSize : ℕ) (answer : Fallocate) (r : Recording S E) :
    (pollReclaim pageSize answer r).published = r.published := by
  rcases pollReclaim_cases pageSize answer r with ⟨reader, heq, -, -⟩ | ⟨heq, -⟩
  · rw [heq]
  · rw [heq]
    rfl

theorem pollWake_published (r : Recording S E) : (pollWake r).published = r.published := by
  unfold pollWake
  dsimp only
  split <;> rfl

theorem pollRead_published (w : Written V) (r : Recording S E) :
    (pollRead w r).published = r.published := by
  unfold pollRead
  split <;> rfl

/-- A step keeps the parties standing somewhere, and publishes nothing once the recording
has ended. -/
theorem sound_step (h : Sound w pageSize r) {s : Step S E} (hstep : step w pageSize r s = some r') :
    Sound w pageSize r' ∧ (r.published.status ≠ .unfinished → r'.published = r.published) := by
  obtain ⟨m, done, rest, hs⟩ := h
  cases hparty : byRecorder s with
  | true =>
    have hrecorded := hs.recorder_step hparty hstep
    exact ⟨⟨m, done, rest, hs.recorded hrecorded⟩, hrecorded.ended⟩
  | false =>
    cases s with
    | reclaim answer =>
      obtain ⟨-, ⟨⟩⟩ := Option.ite_none_right_eq_some.mp hstep
      exact ⟨⟨m, done, rest, hs.reclaim answer⟩, fun _ => pollReclaim_published pageSize answer r⟩
    | wake =>
      obtain ⟨hphase, ⟨⟩⟩ := Option.ite_none_right_eq_some.mp hstep
      exact ⟨⟨m, done, rest, hs.wake hphase⟩, fun _ => pollWake_published r⟩
    | read =>
      obtain ⟨hphase, ⟨⟩⟩ := Option.ite_none_right_eq_some.mp hstep
      exact ⟨(hs.read hphase).1, fun _ => pollRead_published w r⟩
    | append appended => cases hparty
    | flush flushed => cases hparty
    | publish stop => cases hparty
    | finish stop summary => cases hparty
    | abort error => cases hparty

theorem sound_run (h : Sound w pageSize r) {steps : List (Step S E)}
    (hrun : run w pageSize r steps = some r') :
    Sound w pageSize r' ∧ (r.published.status ≠ .unfinished → r'.published = r.published) := by
  induction steps generalizing r with
  | nil =>
    cases hrun
    exact ⟨h, fun _ => rfl⟩
  | cons s steps ih =>
    obtain ⟨next, hstep, hrest⟩ := Option.bind_eq_some_iff.mp hrun
    obtain ⟨hnext, hended⟩ := sound_step h hstep
    obtain ⟨hlast, hended'⟩ := ih hnext hrest
    refine ⟨hlast, fun hstatus => ?_⟩
    have hpublished := hended hstatus
    have hstatus' : next.published.status ≠ .unfinished := by
      rw [hpublished]
      exact hstatus
    exact (hended' hstatus').trans hpublished

/-- A recording that has just been given its reader. -/
theorem sound_starts (h : Starts w r) (pageSize : ℕ) : Sound w pageSize r := by
  obtain ⟨disposable, hnew⟩ := h.reader
  obtain ⟨tail, done, rest, hopen, htailing, hpending, -, hsamples⟩ :=
    open_tailing w h.published (start_le_boundary w h.published) h.flushed
  unfold LiveReader.new at hnew
  rw [hopen] at hnew
  have hreader := (Except.ok.inj hnew).symm
  have hdelivered : delivered r = [] := by
    unfold delivered
    rw [h.results]
    rfl
  refine ⟨r.published.stop, done, rest, ?_, le_rfl, h.published, h.flushed, ?_, ?_, ?_, ?_,
    ?_, ?_, ?_, ?_, ?_⟩
  · rw [hreader]
    exact htailing
  · rw [hreader]
    cases disposable <;> exact Nat.zero_le _
  · rw [hreader]
    cases disposable
    · exact fun hw => nomatch hw
    · exact fun _ => rfl
  · rw [hreader]
    exact fun _ => ⟨hdelivered, hsamples⟩
  · rw [hreader]
    intro hlater
    have hfalse : tail.initialSamplesPending = false := hlater
    rw [hpending] at hfalse
    cases hfalse
  · rw [h.phase]
    exact fun hw => nomatch hw
  · rw [h.phase]
    exact fun hw => nomatch hw
  · rw [h.results]
    exact fun result hresult => nomatch hresult
  · rw [h.results]
    exact fun result hresult => nomatch hresult
  · rw [h.results]
    exact List.Pairwise.nil

/-- The samples that are handed out come first among the published ones, and are all of
them when nothing is unread. -/
theorem sound_delivered (h : Sound w pageSize r) :
    delivered r <+: w.samplesBefore r.published.stop ∧
      (unread r = 0 → delivered r = w.samplesBefore r.published.stop) := by
  obtain ⟨m, done, rest, hs⟩ := h
  have hle : r.reader.tail.position ≤ r.published.stop := hs.tailing.within.trans hs.mapped
  cases hpending : r.reader.tail.initialSamplesPending with
  | true =>
    rw [(hs.initial hpending).1]
    refine ⟨List.nil_prefix, fun hunread => ?_⟩
    unfold unread at hunread
    rw [hpending] at hunread
    cases (Nat.add_eq_zero_iff.mp hunread).2
  | false =>
    rw [hs.later hpending]
    refine ⟨⟨_, (samplesBefore_eq hs.tailing hle).symm⟩, fun hunread => ?_⟩
    unfold unread at hunread
    have hend : r.published.stop ≤ r.reader.tail.position := by omega
    exact (samplesBefore_all hs.tailing hle hend).symm

/-- A poll that goes to the end comes closer to the published end, or has reached it. -/
theorem sound_poll (h : Sound w pageSize r) (answer : Fallocate) :
    Sound w pageSize (r.poll w pageSize answer) ∧
      (r.poll w pageSize answer).published = r.published ∧
      unread (r.poll w pageSize answer) ≤ unread r ∧
      (answer ≠ .failed → unread (r.poll w pageSize answer) < unread r ∨
        unread (r.poll w pageSize answer) = 0) := by
  obtain ⟨m, done, rest, hs⟩ := h
  have hreclaimed := hs.reclaim answer
  have hpublished := pollReclaim_published pageSize answer r
  unfold Recording.poll
  rcases pollReclaim_cases pageSize answer r with ⟨reader, heq, ⟨⟨mmap, htail, -⟩, -⟩, -⟩ |
    ⟨heq, -, henabled, hother⟩
  · have hwaiting : (pollReclaim pageSize answer r).phase = .waiting := by rw [heq]
    have hsame : unread (pollReclaim pageSize answer r) = unread r := by
      rw [heq]
      unfold unread
      rw [htail]
      rfl
    generalize pollReclaim pageSize answer r = q at hreclaimed hpublished hwaiting hsame
    have hwoken := hreclaimed.wake hwaiting
    simp only [hwaiting, reduceCtorEq, if_false]
    rw [← hpublished, ← hsame]
    by_cases hunread : q.reader.tail.initialSamplesPending = true ∨
        q.reader.tail.position < q.published.stop
    · have hwake : pollWake q = { q with
          reader := { q.reader with
            tail := { q.reader.tail with visibleLen := some q.published.stop } }
          phase := .reading } := if_pos hunread
      have hphase : (pollWake q).phase = .reading := by rw [hwake]
      have hunreadWoken : unread (pollWake q) = unread q := by
        rw [hwake]
        rfl
      obtain ⟨hsound, hless⟩ := hwoken.read hphase
      have hread := pollRead_published w (pollWake q)
      simp only [hphase, reduceCtorEq, if_false]
      rw [hunreadWoken] at hless
      exact ⟨hsound, hread.trans (pollWake_published q), hless.le, fun _ => .inl hless⟩
    · have hwake : pollWake q = q.returns q.published.status.result := if_neg hunread
      have hphase : (pollWake q).phase = .idle := by
        rw [hwake]
        rfl
      obtain ⟨hpending, hend⟩ := not_or.mp hunread
      have hzero : unread q = 0 := by
        unfold unread
        rw [Bool.eq_false_of_not_eq_true hpending, Bool.toNat_false]
        omega
      have hunreadWoken : unread (pollWake q) = unread q := by
        rw [hwake]
        rfl
      simp only [if_pos hphase]
      exact ⟨⟨m, done, rest, hwoken⟩, pollWake_published q, hunreadWoken.le,
        fun _ => .inr (hunreadWoken.trans hzero)⟩
  · have hphase : (pollReclaim pageSize answer r).phase = .idle := by
      rw [heq]
      rfl
    have hsame : unread (pollReclaim pageSize answer r) = unread r := by
      rw [heq]
      rfl
    simp only [if_pos hphase]
    refine ⟨⟨m, done, rest, hreclaimed⟩, hpublished, hsame.le, fun hanswer => ?_⟩
    exact absurd hother (discardConsumed_ne_other hs henabled hanswer)

/-- Enough polls whose reclamation does not fail hand out everything published. -/
theorem sound_polls (h : Sound w pageSize r) {answers : List Fallocate}
    (hanswers : unread r ≤ answers.countP fun answer => decide (answer ≠ .failed)) :
    delivered (r.polls w pageSize answers) = w.samplesBefore r.published.stop := by
  induction answers generalizing r with
  | nil => exact (sound_delivered h).2 (Nat.le_zero.mp hanswers)
  | cons answer answers ih =>
    obtain ⟨hsound, hpublished, hle, hless⟩ := sound_poll h answer
    rw [← hpublished]
    apply ih hsound
    rw [List.countP_cons] at hanswers
    by_cases hfailed : answer = .failed
    · rw [if_neg (by rw [hfailed]; decide)] at hanswers
      exact hle.trans hanswers
    · rw [if_pos (decide_eq_true hfailed)] at hanswers
      rcases hless hfailed with hlt | hzero
      · omega
      · omega

end

/-- What holds between the recorder and its reader. -/
structure Followed (w : Written V) (pageSize : ℕ) (r : Recording S E) : Prop where
  /-- The reader maps, and so decodes, published bytes only. -/
  mapped : r.reader.tail.mmap.len ≤ r.published.stop
  /-- The published samples are handed out in their order, each once. -/
  in_order : delivered r <+: w.samplesBefore r.published.stop
  /-- Enough polls hand out all of them, with failures to reclaim in between. -/
  handed_out : r.phase = .idle → ∀ answers : List Fallocate,
    r.published.stop + 1 ≤ answers.countP (fun answer => decide (answer ≠ .failed)) →
    delivered (r.polls w pageSize answers) = w.samplesBefore r.published.stop
  /-- No poll fails to read what is published. -/
  readable : ∀ result ∈ r.results, ∀ e, result ≠ .readFailed e
  /-- The end is reported as the recorder reported it, when every published byte is read
  and every published sample handed out. -/
  complete : ∀ result ∈ r.results, result.isFinal = true →
    result = r.published.status.result ∧ r.reader.tail.position = r.published.stop ∧
      r.reader.tail.initialSamplesPending = false ∧
      delivered r = w.samplesBefore r.published.stop
  /-- Once reported, it is the result of every later poll. -/
  lasting : r.results.Pairwise fun result later => result.isFinal = true → later = result
  /-- After the end the recorder publishes nothing. -/
  ended : r.published.status ≠ .unfinished → ∀ steps r', run w pageSize r steps = some r' →
    r'.published = r.published
  /-- A failure to reclaim leaves the reader where it was. -/
  unreclaimed : ∀ answer r', step w pageSize r (.reclaim answer) = some r' →
    (∀ reader, discardConsumed pageSize answer r.reader ≠ .ok reader) →
    r'.reader.tail = r.reader.tail ∧ reclaimedBytes r'.reader = reclaimedBytes r.reader ∧
      delivered r' = delivered r
  /-- Whole consumed pages are given back, and nothing else. -/
  reclaimed : reclaimedBytes r.reader ≤ discardEnd pageSize r.reader.tail

theorem pollReclaim_error {pageSize : ℕ} {answer : Fallocate} {r : Recording S E}
    (h : ∀ reader, discardConsumed pageSize answer r.reader ≠ .ok reader) :
    (pollReclaim pageSize answer r).reader.tail = r.reader.tail ∧
      reclaimedBytes (pollReclaim pageSize answer r).reader = reclaimedBytes r.reader ∧
      delivered (pollReclaim pageSize answer r) = delivered r := by
  unfold pollReclaim
  by_cases hdue : r.reader.reclaimPrevious = true ∧ r.reader.reclamation = .enabled
  · simp only [if_pos hdue]
    cases hdiscard : discardConsumed pageSize answer r.reader with
    | ok reader => exact absurd hdiscard (h reader)
    | error e =>
      cases e with
      | unsupported => exact ⟨rfl, rfl, rfl⟩
      | other =>
        refine ⟨rfl, rfl, ?_⟩
        show (r.results ++ [ReadStatus.reclaimFailed]).flatMap ReadStatus.samples = _
        rw [List.flatMap_append]
        exact List.append_nil _
  · simp only [if_neg hdue]
    exact ⟨trivial, rfl, rfl⟩

/-- However the recorder and its reader interleave, the reader follows the published end:
it decodes nothing beyond, hands out every published sample once and in order, reports the
end after all of them and for good, and gives back only what it has consumed. -/
theorem reader_follows_publication (w : Written V) (pageSize : ℕ) (r r' : Recording S E)
    (steps : List (Step S E)) (hstart : Starts w r) (hrun : run w pageSize r steps = some r') :
    Followed w pageSize r' := by
  have hsound : Sound w pageSize r' := (sound_run (sound_starts hstart pageSize) hrun).1
  have hsound' := hsound
  obtain ⟨m, done, rest, hs⟩ := hsound'
  have hdelivered := sound_delivered hsound
  refine ⟨?_, hdelivered.1, ?_, hs.readable, ?_, hs.lasting, ?_, ?_, hs.reclaimed⟩
  · have hlen : r'.reader.tail.mmap.len = m :=
      hs.tailing.mapped.len.trans (Written.len_take w hs.tailing.boundary)
    exact hlen.le.trans hs.mapped
  · intro _ answers hanswers
    have hunread : unread r' ≤ r'.published.stop + 1 := by
      unfold unread
      have hbit := Bool.toNat_le r'.reader.tail.initialSamplesPending
      omega
    exact sound_polls hsound (hunread.trans hanswers)
  · intro result hresult hfinal
    have hover := hs.ended result hresult hfinal
    have hzero : unread r' = 0 := by
      unfold unread
      rw [hover.handed, Nat.sub_eq_zero_of_le hover.read]
      rfl
    exact ⟨hover.result, le_antisymm (hs.tailing.within.trans hs.mapped) hover.read, hover.handed,
      hdelivered.2 hzero⟩
  · intro hended steps' r'' hrun'
    exact (sound_run hsound hrun').2 hended
  · intro answer r'' hstep hfails
    obtain ⟨-, ⟨⟩⟩ := Option.ite_none_right_eq_some.mp hstep
    exact pollReclaim_error hfails

/-- The records of a file from a place on, at most `fuel`, and where they end. -/
def recordsFrom (V : IntegerEncoding) : ℕ → ReaderState → Cursor →
    List SpoolEntry × ReaderState × Cursor
  | 0, s, c => ([], s, c)
  | fuel + 1, s, c =>
    match (spoolFormat V).next s c with
    | (.ok (record, s'), c') =>
      let (entries, t, d) := recordsFrom V fuel s' c'
      (⟨c.position, c'.position, record, s'⟩ :: entries, t, d)
    | (.error _, _) => ([], s, c)

theorem run_recordsFrom (V : IntegerEncoding) (fuel : ℕ) (s : ReaderState) (c : Cursor) :
    Run (spoolFormat V) s c (recordsFrom V fuel s c).1 (recordsFrom V fuel s c).2.1
      (recordsFrom V fuel s c).2.2 := by
  induction fuel generalizing s c with
  | zero => exact .nil s c
  | succ fuel ih =>
    unfold recordsFrom
    split
    · rename_i hnext
      exact .cons hnext (ih _ _)
    · exact .nil s c

/-- A recording of two samples, with a record behind them. -/
def twoSampleRecording : Written Varint.standard where
  mmap := Safety.twoSampleSpool
  header := ⟨0, 0, none⟩
  start := ⟨Safety.twoSampleSpool, 11⟩
  entries := (recordsFrom Varint.standard 6 .initial ⟨Safety.twoSampleSpool, 11⟩).1
  after := (recordsFrom Varint.standard 6 .initial ⟨Safety.twoSampleSpool, 11⟩).2.1
  stop := (recordsFrom Varint.standard 6 .initial ⟨Safety.twoSampleSpool, 11⟩).2.2
  reading := ⟨by rfl, run_recordsFrom Varint.standard 6 _ _, by
    show _ = _
    decide +kernel⟩
  small := by decide

/-- A recorder that has published its header. -/
def headerOnly (reader : LiveReader) : Recording Unit Unit :=
  ⟨11, 11, ⟨11, .unfinished⟩, reader, .idle, []⟩

/-- Polls between the publications of both samples, during the append of the last record,
before and after its publication, and at the end. Pages of eight bytes are given back. -/
def interleaved : List (Step Unit Unit) :=
  [.reclaim .done, .wake, .read,
   .append 35, .flush 31, .publish 31, .reclaim .done, .wake, .flush 35, .publish 35, .read,
   .reclaim .failed, .append 37, .reclaim .done, .wake, .read,
   .reclaim .done, .wake,
   .flush 37, .finish 37 (), .reclaim .done, .wake, .read,
   .reclaim .done, .wake]

theorem reader_follows_publication_interleaved :
    ∃ r r' : Recording Unit Unit, Starts twoSampleRecording r ∧
      run twoSampleRecording 8 r interleaved = some r' ∧
      r'.results.map (fun result => (result.samples.length, result.isFinal)) =
        [(0, false), (1, false), (0, false), (1, false), (0, false), (0, false), (0, true)] ∧
      reclaimedBytes r'.reader = 32 ∧ r'.reader.tail.position = 37 ∧
      Followed twoSampleRecording 8 r' := by
  have heval : (LiveReader.new Varint.standard (Safety.twoSampleSpool.take 11) true
      11).toOption.bind (fun reader =>
        (run twoSampleRecording 8 (headerOnly reader) interleaved).map fun r' =>
          (r'.results.map (fun result => (result.samples.length, result.isFinal)),
            reclaimedBytes r'.reader, r'.published.stop)) =
      some ([(0, false), (1, false), (0, false), (1, false), (0, false), (0, false), (0, true)],
        32, 37) := by
    decide +kernel
  obtain ⟨reader, hreader, heval⟩ := Option.bind_eq_some_iff.mp heval
  obtain ⟨r', hrun, heval⟩ := Option.map_eq_some_iff.mp heval
  obtain ⟨hresults, hreclaimed, hstop⟩ : _ ∧ _ ∧ _ := by simpa only [Prod.mk.injEq] using heval
  have hstarts : Starts twoSampleRecording (headerOnly reader) :=
    ⟨.head _, le_rfl, le_rfl, .head _, ⟨true, Attempts.eq_ok_of_toOption hreader⟩, rfl, rfl⟩
  have hfollowed := reader_follows_publication _ 8 _ r' interleaved hstarts hrun
  obtain ⟨result, hresult, hfinal⟩ : ∃ result ∈ r'.results, result.isFinal = true := by
    have hlast : (0, true) ∈ r'.results.map fun result =>
        (result.samples.length, result.isFinal) := by
      rw [hresults]
      decide
    obtain ⟨result, hmem, hpair⟩ := List.mem_map.mp hlast
    exact ⟨result, hmem, congrArg Prod.snd hpair⟩
  refine ⟨_, r', hstarts, hrun, hresults, hreclaimed, ?_, hfollowed⟩
  exact (hfollowed.complete result hresult hfinal).2.1.trans hstop

end StackPulse.LivePublication
