import StackPulse.TailRefinement

/-!
Sessions of the incremental reader compared with opening the visible prefix as a
snapshot: what is handed out, when a poll fails, and what a failed poll means for
later ones.
-/
namespace StackPulse.TailEquivalence

open Bytes Varint Model Decode ReaderFacts Records Scanning OpenSpool Safety TailReader TailBatches
  TailRefinement

variable {V : IntegerEncoding} {B : Mmap} {n : ℕ} {tail : Tail} {entries : List SpoolEntry}
  {results : List (Except Stop TailBatch)} {header : SpoolHeader} {snapshot : OpenedSpool}
  {c : Cursor} {e : Stop} {batch : TailBatch}

theorem not_ok_of_fault {storage : SampleStorage} {mmap : Mmap} {d : Cursor} {t : ReaderState}
    (h : Reading V mmap header c entries t d (.fault e)) :
    openSpool V storage mmap ≠ .ok snapshot := by
  intro hopen
  obtain ⟨tag, htag⟩ := h.open_eq storage MAX_REPLAY_SAMPLE_RANGES
  unfold openSpool at hopen
  rw [htag] at hopen
  cases hopen

theorem fault_of_error {storage : SampleStorage} {mmap : Mmap}
    (hheader : readHeader V ⟨mmap, 0⟩ = (.ok header, c))
    (hopen : openSpool V storage mmap = .error e) :
    ∃ entries t d f, Reading V mmap header c entries t d (.fault f) := by
  obtain ⟨entries, t, d, ending, hreading⟩ := Reading.exists_reading hheader
  rcases hending : ending.isFault with _ | _
  · have hok := hreading.open_eq_ok storage MAX_REPLAY_SAMPLE_RANGES hending
    unfold openSpool at hopen
    rw [hok] at hopen
    cases hopen
  · rcases ending with _ | _ | f
    · cases hending
    · cases hending
    · exact ⟨entries, t, d, f, hreading⟩

/-- No record can be decoded where the reader is drained. -/
theorem Drained.decode_ne (h : Drained V tail) (hc : tail.cursor.Valid)
    (hs : Tracked tail.toReaderState tail.cursor) (record : DecodedSpoolRecord) (d : Cursor) :
    decodeSpoolRecord V tail.toReaderState tail.cursor ≠ (.ok (some record), d) := by
  intro hdecode
  obtain ⟨ending, hhalts, hending⟩ := h
  rcases ending with _ | _ | e
  · rw [decode_complete hhalts] at hdecode
    cases hdecode
  · obtain ⟨hlt, e, he, -⟩ := hhalts
    obtain ⟨d', hd', -⟩ := decode_of_error hc hs hlt he
    rw [hd'] at hdecode
    cases hdecode
  · cases hending

theorem samples_of_batches {batches : List TailBatch} {groups : List (List SpoolEntry)}
    (h : List.Forall₂ IsBatch batches groups) :
    batches.flatMap TailBatch.samples = groups.flatten.filterMap (·.record.sample?) := by
  induction h with
  | nil => rfl
  | cons hbatch _ ih =>
    rw [List.flatMap_cons, List.flatten_cons, List.filterMap_append, hbatch.samples, ih]

/-- A batch without more behind it leaves the reader drained. -/
theorem drained_of_poll {tail' : Tail} (h : Condition V B n tail results)
    (hpoll : poll V (B.take n) tail = (.ok batch, tail')) (hmore : batch.hasMore = false) :
    Drained V tail' ∧ tail'.mmap = B.take n := by
  rcases h with ⟨hfollows, hpending, _, hdrained⟩ | ⟨hfollows, hpending, _⟩ |
    ⟨hfollows, hpending, _, hstuck, _⟩
  · rw [poll_pending hfollows hpending] at hpoll
    cases hpoll
    obtain ⟨hnone, hgrown⟩ := Bool.or_eq_false_iff.mp hmore
    obtain ⟨m, hm, hmmap⟩ := hfollows.mapped
    have hlen : (B.take n).len ≤ tail.mmap.len := Nat.not_lt.mp (of_decide_eq_false hgrown)
    have hsame : tail.mmap = B.take n := by
      rw [hmmap] at hlen ⊢
      exact take_eq_of_len hm hlen
    refine ⟨?_, rfl⟩
    obtain ⟨ending, hhalts, hending⟩ := hdrained hnone
    refine ⟨ending, ?_, hending⟩
    show Halts (spoolFormat V) tail.toReaderState ⟨B.take n, tail.position⟩ ending
    rw [← hsame]
    exact hhalts
  · obtain ⟨group, -, -, hmmap, -, hpolled⟩ := poll_live hfollows hpending
    rw [hpoll] at hmmap hpolled
    rcases hpolled with ⟨_, _, hdrained⟩
    exact ⟨hdrained (.inl hmore), hmmap⟩
  · obtain ⟨e, herror, -⟩ := poll_stuck hfollows hpending hstuck
    rw [hpoll] at herror
    cases herror

/-- The batches of a session that ends with a successful poll. -/
theorem live_of_ok (h : Condition V B n tail (results ++ [.ok batch])) :
    ∃ batches groups, results = batches.map .ok ∧ Follows V B n tail groups.flatten ∧
      List.Forall₂ IsBatch (batches ++ [batch]) groups := by
  generalize hresults : results ++ [.ok batch] = all at h
  rcases h with _ | @⟨batches, groups, hfollows, _, hbatches⟩ |
    @⟨batches, groups, rest, errors, _, _, _, _, herrors⟩
  · exact absurd hresults (List.append_ne_nil_of_right_ne_nil _ (List.cons_ne_nil _ _))
  · obtain ⟨first, last, rfl, hfirst, hlast⟩ := List.map_eq_append_iff.mp hresults.symm
    obtain ⟨batch', rfl, hbatch⟩ := List.map_eq_singleton_iff.mp hlast
    cases hbatch
    exact ⟨first, groups, hfirst.symm, hfollows, hbatches⟩
  · rcases List.eq_nil_or_concat errors with hnil | ⟨front, e, hfront⟩
    · exact absurd hnil herrors
    · rw [hfront, List.concat_eq_append, List.map_append, ← List.append_assoc] at hresults
      have hlast := (List.append_inj' hresults rfl).2
      cases hlast

/-- Poll the same file several times. -/
def pollTimes (V : IntegerEncoding) (file : Mmap) : ℕ → Tail → Tail
  | 0, tail => tail
  | k + 1, tail => pollTimes V file k (poll V file tail).2

/-- Polls work through the records in front of a wrong one and then report it. -/
theorem error_of_fault {d : Cursor} {all : List SpoolEntry} {t : ReaderState} {f : Stop}
    (hreading : Reading V (B.take n) header c all t d (.fault f)) (h : Follows V B n tail entries)
    (hpending : tail.initialSamplesPending = false) :
    ∃ k e, (poll V (B.take n) (pollTimes V (B.take n) k tail)).1 = .error e := by
  induction hk : all.length - entries.length using Nat.strong_induction_on
    generalizing tail entries with
  | _ k ih =>
    obtain ⟨group, -, hfollows, hmmap, hpending', hpolled⟩ := poll_live h hpending
    obtain ⟨c', hheader', hrun⟩ := hfollows.run
    have hsame : ((.ok (poll V (B.take n) tail).2.header, c') : Except Stop SpoolHeader × Cursor) =
        (.ok header, c) := by
      rw [hmmap] at hheader'
      exact hheader'.symm.trans hreading.header
    have hc : c' = c := congrArg Prod.snd hsame
    have hvalid := (Reading.header_valid hreading.header).2
    rw [hc] at hrun
    obtain ⟨rest, hall, hrest⟩ := hreading.scan.run.le_of_halts hvalid hreading.scan.halts hrun
    generalize hresult : (poll V (B.take n) tail).1 = result at hpolled
    rcases hpolled with @⟨batch, _, _, hdrained⟩ | @⟨e, _⟩
    · have hne : group ≠ [] := by
        intro hnil
        obtain ⟨ending, hhalts, hending⟩ := hdrained (.inr hnil)
        obtain ⟨_, hstate, hcursor⟩ := hreading.scan.unique hvalid ⟨hrun, hhalts⟩
        have hstuck : Stuck V (poll V (B.take n) tail).2 := by
          refine ⟨f, ?_⟩
          rw [← hstate, ← hcursor]
          exact hreading.scan.halts
        exact Drained.not_stuck ⟨ending, hhalts, hending⟩ hstuck
      have hlt : all.length - (entries ++ group).length < k := by
        have hpos := List.length_pos_of_ne_nil hne
        rw [hall, ← hk, hall]
        simp only [List.length_append]
        omega
      obtain ⟨k', e, herror⟩ := ih _ hlt hfollows hpending' rfl
      exact ⟨k' + 1, e, herror⟩
    · exact ⟨0, e, hresult⟩

/-- What a first pass rejects it rejects on every longer file. -/
theorem open_error_mono (hheader : readHeader V ⟨B.take n, 0⟩ = (.ok header, c))
    (hopen : openTail V (B.take n) = .error e) {n' : ℕ} (hle : n ≤ n') :
    ∃ e', openTail V (B.take n') = .error e' := by
  rcases open_cases hheader with ⟨_, _, hok, -⟩ |
    ⟨_, entries, t, d, f, _, hreading, hcount, hends⟩
  · rw [hopen] at hok
    cases hok
  · -- The longer file holds the same records in front of the same fault.
    obtain ⟨hmmap, hc⟩ := Reading.header_valid hheader
    have hext := take_extends B hle 0
    have hheader' := (readHeader_reads V).stable.done _ _ header (Reading.valid_zero _) hext
      (by rw [hheader])
    rw [hheader] at hheader'
    have hc' : (⟨B.take n', c.position⟩ : Cursor).Valid := (Reading.header_valid hheader').2
    have hext' : c.Extends ⟨B.take n', c.position⟩ := by
      refine ⟨?_, rfl⟩
      rw [hmmap]
      exact hext.bytes
    have hscan := hreading.scan.fault_extends hc hext'
    rcases open_cases hheader' with ⟨tail, group, _, hopened⟩ | ⟨e', _, _, _, _, herror, _⟩
    · exfalso
      obtain ⟨c'', hheader'', hrun⟩ := hopened.follows.run
      rw [hopened.mmap] at hheader''
      have hcursor : c'' = ⟨B.take n', c.position⟩ :=
        congrArg Prod.snd (hheader''.symm.trans hheader')
      rw [hcursor] at hrun
      obtain ⟨rest, hall, -⟩ := hscan.run.le_of_halts hc' hscan.halts hrun
      rcases hopened.stop with ⟨ending, hhalts, hending⟩ | hfull | ⟨entry, hentry, hend⟩
      · obtain ⟨-, hstate, hplace⟩ := hscan.unique hc' ⟨hrun, hhalts⟩
        have hstuck : Stuck V tail := by
          refine ⟨f, ?_⟩
          rw [← hstate, ← hplace]
          exact hscan.halts
        exact Drained.not_stuck ⟨ending, hhalts, hending⟩ hstuck
      · have hsamples : tail.samples = group.filterMap (·.record.sample?) := hopened.batch.samples
        rw [hall, List.filterMap_append, List.length_append, ← hsamples] at hcount
        omega
      · have hfalse := hends entry (by rw [hall]; exact List.mem_append_left _ hentry)
        rw [hend] at hfalse
        cases hfalse
    · exact ⟨e', herror⟩

/-- Following `B` while it grows agrees with opening its visible prefix. -/
structure TailRefines (V : IntegerEncoding) (B : Mmap) : Prop where
  opens : ∀ {n : ℕ} {snapshot : OpenedSpool}, openSpool V .retain (B.take n) = .ok snapshot →
    ∃ tail, openTail V (B.take n) = .ok tail
  polls : ∀ {n : ℕ} {tail : Tail} {results : List (Except Stop TailBatch)}
    {snapshot : OpenedSpool}, Session V B n tail results →
    openSpool V .retain (B.take n) = .ok snapshot →
      (∃ batches : List TailBatch, results = batches.map .ok) ∧
        ∃ batch, (poll V (B.take n) tail).1 = .ok batch
  drained : ∀ {n : ℕ} {tail tail' : Tail} {results : List (Except Stop TailBatch)}
    {batch : TailBatch}, Session V B n tail results →
    poll V (B.take n) tail = (.ok batch, tail') → batch.hasMore = false →
      (∀ record d, decodeSpoolRecord V tail'.toReaderState tail'.cursor ≠ (.ok (some record), d)) ∧
      ∃ (snapshot : OpenedSpool) (batches : List TailBatch),
        openSpool V .retain (B.take n) = .ok snapshot ∧ results = batches.map .ok ∧
        (batches ++ [batch]).flatMap TailBatch.samples = snapshot.samples ∧
        Holds snapshot tail'.toReaderState
  batches : ∀ {n : ℕ} {tail : Tail} {results : List (Except Stop TailBatch)},
    Session V B n tail results → ∃ (batches : List TailBatch) (errors : List Stop)
      (groups : List (List SpoolEntry)) (rest : List SpoolEntry) (c : Cursor),
      results = batches.map .ok ++ errors.map .error ∧ List.Forall₂ IsBatch batches groups ∧
      readHeader V ⟨tail.mmap, 0⟩ = (.ok tail.header, c) ∧
      Run (spoolFormat V) .initial c (groups.flatten ++ rest) tail.toReaderState tail.cursor
  open_rejects : ∀ {n n' : ℕ} {header : SpoolHeader} {c : Cursor} {e : Stop},
    readHeader V ⟨B.take n, 0⟩ = (.ok header, c) → openTail V (B.take n) = .error e → n ≤ n' →
      ∃ e', openTail V (B.take n') = .error e'
  poll_rejects : ∀ {n : ℕ} {tail : Tail} {results : List (Except Stop TailBatch)} {e : Stop},
    Session V B n tail results → openSpool V .retain (B.take n) = .error e →
      ∃ k e', (poll V (B.take n) (pollTimes V (B.take n) k tail)).1 = .error e'

theorem opens_of_ok (h : openSpool V .retain (B.take n) = .ok snapshot) :
    ∃ tail, openTail V (B.take n) = .ok tail := by
  obtain ⟨header, c, _, _, _, _, hreading, _⟩ := Reading.of_open_eq_ok h
  rcases open_cases hreading.header with ⟨tail, _, hopen, _⟩ | ⟨_, _, _, _, _, _, hfault, _⟩
  · exact ⟨tail, hopen⟩
  · exact absurd h (not_ok_of_fault hfault)

theorem polls_of_ok (h : Condition V B n tail results)
    (hopen : openSpool V .retain (B.take n) = .ok snapshot) :
    (∃ batches : List TailBatch, results = batches.map .ok) ∧
      ∃ batch, (poll V (B.take n) tail).1 = .ok batch := by
  rcases h with ⟨hfollows, hpending, _, _⟩ | @⟨batches, groups, hfollows, hpending, _⟩ |
    ⟨hfollows, hpending, _, hstuck, _⟩
  · refine ⟨⟨[], rfl⟩, ?_⟩
    rw [poll_pending hfollows hpending]
    exact ⟨_, rfl⟩
  · refine ⟨⟨batches, rfl⟩, ?_⟩
    obtain ⟨group, -, hfollows', hmmap, -, hpolled⟩ := poll_live hfollows hpending
    generalize (poll V (B.take n) tail).1 = result at hpolled ⊢
    rcases hpolled with @⟨batch, _, _, _⟩ | hstuck
    · exact ⟨batch, rfl⟩
    · obtain ⟨e, hhalts⟩ := hstuck
      obtain ⟨c, hfault⟩ := hfollows'.scan_of_halts hmmap hhalts
      exact absurd hopen (not_ok_of_fault hfault)
  · obtain ⟨e, hhalts⟩ := hstuck.remap hfollows
    obtain ⟨c, hfault⟩ := hfollows.remap.scan_of_halts rfl hhalts
    exact absurd hopen (not_ok_of_fault hfault)

theorem snapshot_of_drained (h : Condition V B n tail (results ++ [.ok batch]))
    (hmmap : tail.mmap = B.take n) (hdrained : Drained V tail) :
    ∃ (snapshot : OpenedSpool) (batches : List TailBatch),
      openSpool V .retain (B.take n) = .ok snapshot ∧ results = batches.map .ok ∧
      (batches ++ [batch]).flatMap TailBatch.samples = snapshot.samples ∧
      Holds snapshot tail.toReaderState := by
  obtain ⟨batches, groups, hresults, hfollows, hbatches⟩ := live_of_ok h
  obtain ⟨ending, hhalts, hending⟩ := hdrained
  obtain ⟨c, hreading⟩ := hfollows.scan_of_halts hmmap hhalts
  refine ⟨_, batches, hreading.open_eq_ok .retain MAX_REPLAY_SAMPLE_RANGES hending, hresults,
    ?_, hreading.finish_holds _ _ _⟩
  rw [samples_of_batches hbatches]
  exact (Reading.final_samples MAX_REPLAY_SAMPLE_RANGES groups.flatten).symm

/-- Whatever the schedule, the incremental reader refines the snapshot reader. -/
theorem tail_refines_snapshot (V : IntegerEncoding) (B : Mmap) : TailRefines V B where
  opens h := opens_of_ok h
  polls hsession hopen := polls_of_ok (condition_of_session hsession) hopen
  drained {n tail tail' results batch} hsession hpoll hmore := by
    obtain ⟨hdrained, hmmap⟩ := drained_of_poll (condition_of_session hsession) hpoll hmore
    have hafter := condition_of_session hsession.poll
    rw [hpoll] at hafter
    obtain ⟨_, _, _, hfollows, _⟩ := live_of_ok hafter
    exact ⟨fun record d => Drained.decode_ne hdrained hfollows.valid hfollows.tracked record d,
      snapshot_of_drained hafter hmmap hdrained⟩
  batches {n tail results} hsession := by
    rcases condition_of_session hsession with @⟨group, hfollows, _, _, _⟩ |
      @⟨batches, groups, hfollows, _, hbatches⟩ |
      @⟨batches, groups, rest, errors, hfollows, _, hbatches, _, _⟩
    · obtain ⟨c, hheader, hrun⟩ := hfollows.run
      exact ⟨[], [], [], group, c, rfl, .nil, hheader, hrun⟩
    · obtain ⟨c, hheader, hrun⟩ := hfollows.run
      refine ⟨batches, [], groups, [], c, (List.append_nil _).symm, hbatches, hheader, ?_⟩
      rw [List.append_nil]
      exact hrun
    · obtain ⟨c, hheader, hrun⟩ := hfollows.run
      exact ⟨batches, errors, groups, rest, c, rfl, hbatches, hheader, hrun⟩
  open_rejects hheader hopen hle := open_error_mono hheader hopen hle
  poll_rejects {n tail results e} hsession hopen := by
    rcases condition_of_session hsession with @⟨group, hfollows, hpending, _, _⟩ |
      ⟨hfollows, hpending, _⟩ | ⟨hfollows, hpending, _, _, _⟩
    · obtain ⟨c, hheader, _⟩ := hfollows.remap.run
      obtain ⟨_, _, _, _, hfault⟩ := fault_of_error hheader hopen
      have hremap := hfollows.remap
      have hpoll := poll_pending hfollows hpending
      have hfollows' : Follows V B n (poll V (B.take n) tail).2 group := by
        rw [hpoll]
        exact ⟨hremap.unbounded, hremap.mapped, hremap.run⟩
      obtain ⟨k, e', herror⟩ := error_of_fault hfault hfollows' (by rw [hpoll])
      exact ⟨k + 1, e', herror⟩
    · obtain ⟨c, hheader, _⟩ := hfollows.remap.run
      obtain ⟨_, _, _, _, hfault⟩ := fault_of_error hheader hopen
      exact error_of_fault hfault hfollows hpending
    · obtain ⟨c, hheader, _⟩ := hfollows.remap.run
      obtain ⟨_, _, _, _, hfault⟩ := fault_of_error hheader hopen
      exact error_of_fault hfault hfollows hpending

/-- A reader opened right behind the header: its first poll finds that the file
has grown, its second one the sample. -/
theorem tail_refines_snapshot_two_polls : ∃ tail first batch tail' snapshot,
    Session Varint.standard oneSampleSpool 31 tail [.ok first] ∧
      poll Varint.standard (oneSampleSpool.take 31) tail = (.ok batch, tail') ∧
      openSpool Varint.standard .retain (oneSampleSpool.take 31) = .ok snapshot ∧
      first.samples ++ batch.samples = snapshot.samples ∧ batch.samples.length = 1 := by
  have heval : ((openTail Varint.standard (oneSampleSpool.take 11)).toOption.bind fun tail =>
      let first := poll Varint.standard (oneSampleSpool.take 31) tail
      (poll Varint.standard (oneSampleSpool.take 31) first.2).1.toOption.map fun batch =>
        (batch.hasMore, batch.samples.length)) = some (false, 1) := by rfl
  rcases hopen : openTail Varint.standard (oneSampleSpool.take 11) with e | tail
  · rw [hopen] at heval
    cases heval
  rw [hopen] at heval
  have hstart := (Session.start hopen).reveal (show 11 ≤ 31 by omega)
  have hpolled := hstart.poll
  rw [List.nil_append] at hpolled
  rcases hfirst : poll Varint.standard (oneSampleSpool.take 31) tail with ⟨result, tail'⟩
  rcases hsecond : poll Varint.standard (oneSampleSpool.take 31) tail' with ⟨e | batch, tail''⟩
  · simp only [Except.toOption, Option.bind_some, hfirst, hsecond] at heval
    cases heval
  simp only [Except.toOption, Option.bind_some, hfirst, hsecond, Option.map_some] at heval
  have hfields := Option.some.inj heval
  rw [hfirst] at hpolled
  obtain ⟨-, snapshot, batches, hsnapshot, hresults, hsamples, -⟩ :=
    (tail_refines_snapshot Varint.standard oneSampleSpool).drained hpolled hsecond
      (congrArg Prod.fst hfields)
  obtain ⟨first, rfl, hok⟩ := List.map_eq_singleton_iff.mp hresults.symm
  rw [← hok] at hpolled
  refine ⟨tail', first, batch, tail'', snapshot, hpolled, hsecond, hsnapshot, ?_,
    congrArg Prod.snd hfields⟩
  simpa using hsamples

/-- What was handed out stays: while any longer prefix is accepted no poll has
failed, and the samples so far are the first ones of that prefix. -/
theorem handed_out_samples_stay (hsession : Session V B n tail results) {m : ℕ} (hle : n ≤ m)
    (hopen : openSpool V .retain (B.take m) = .ok snapshot) :
    ∃ batches : List TailBatch, results = batches.map .ok ∧
      batches.flatMap TailBatch.samples <+: snapshot.samples := by
  rcases condition_of_session (hsession.reveal hle) with _ |
    @⟨batches, groups, hfollows, _, hbatches⟩ | ⟨hfollows, _, _, hstuck, _⟩
  · exact ⟨[], rfl, List.nil_prefix⟩
  · obtain ⟨header, c, entries, t, d, ending, hreading, _, rfl⟩ := Reading.of_open_eq_ok hopen
    obtain ⟨c', hheader, hrun⟩ := hfollows.remap.run
    cases hreading.header.symm.trans hheader
    obtain ⟨rest, rfl, -⟩ := hreading.scan.run.le_of_halts
      (Reading.header_valid hheader).2 hreading.scan.halts hrun
    refine ⟨batches, rfl, ?_⟩
    have hsamples := Reading.final_samples MAX_REPLAY_SAMPLE_RANGES (groups.flatten ++ rest)
    rw [List.filterMap_append, ← samples_of_batches hbatches] at hsamples
    exact ⟨_, hsamples.symm⟩
  · obtain ⟨e, hhalts⟩ := hstuck.remap hfollows
    obtain ⟨c, hfault⟩ := hfollows.remap.scan_of_halts rfl hhalts
    exact absurd hopen (not_ok_of_fault hfault)

/-- A reader that was opened behind the header is polled twice with the first sample in the
file, and once more with the second. -/
def threePolls (tail : Tail) : List (Except Stop TailBatch) :=
  let first := poll Varint.standard (twoSampleSpool.take 31) tail
  let second := poll Varint.standard (twoSampleSpool.take 31) first.2
  [first.1, second.1, (poll Varint.standard (twoSampleSpool.take 35) second.2).1]

theorem handed_out_samples_stay_later : ∃ tail snapshot,
    openTail Varint.standard (twoSampleSpool.take 11) = .ok tail ∧
      openSpool Varint.standard .retain (twoSampleSpool.take 37) = .ok snapshot ∧
      ∃ batches : List TailBatch, threePolls tail = batches.map .ok ∧
        batches.map (·.samples.length) = [0, 1, 1] ∧
        batches.flatMap TailBatch.samples <+: snapshot.samples := by
  have heval : (openTail Varint.standard (twoSampleSpool.take 11)).toOption.map (fun tail =>
      (threePolls tail).map fun result => result.toOption.elim 0 (·.samples.length)) =
      some [0, 1, 1] := by rfl
  have hok : (openSpool Varint.standard .retain (twoSampleSpool.take 37)).toOption.map
      (·.sampleCount) = some 2 := by rfl
  obtain ⟨tail, htail, hlengths⟩ := Attempts.exists_ok_of_toOption heval
  obtain ⟨snapshot, hopen, -⟩ := Attempts.exists_ok_of_toOption hok
  have hsession := ((((Session.start htail).reveal (show 11 ≤ 31 by omega)).poll).poll.reveal
    (show 31 ≤ 35 by omega)).poll
  obtain ⟨batches, hresults, hkept⟩ :=
    handed_out_samples_stay hsession (show 35 ≤ 37 by omega) hopen
  have hpolls : threePolls tail = batches.map .ok := hresults
  rw [hpolls, List.map_map] at hlengths
  exact ⟨tail, snapshot, htail, hopen, batches, hpolls, hlengths, hkept⟩

end StackPulse.TailEquivalence
