import StackPulse.ReplayIndex

/-!
Replay yields the samples that eager reading retains. The iterator walks through
the groups of the index and then through the remaining records, with the
counters that were valid at their first byte.
-/
namespace StackPulse.ReplayEquivalence

open Bytes Bytes.ByteReader Varint Model SpoolCursor Decode DecodeFacts Records Scanning OpenSpool
  Safety ReplayReader ReplayIndex

variable {V : IntegerEncoding} {entries : List SpoolEntry} {s t : ReaderState} {reader : Replay}
  {d c : Cursor} {sample : SampleRecord} {position : ℕ} {record : DecodedSpoolRecord}
  {mode : ReplayMode} {last : UInt64} {entry : SpoolEntry}

theorem readIndexWithin_mono {limit limit' : ℕ} {kind : String} {index : ℕ}
    (h : readIndexWithin V limit kind c = (.ok index, d)) (hle : limit ≤ limit') :
    readIndexWithin V limit' kind c = (.ok index, d) := by
  obtain ⟨raw, c', hread, hcheck⟩ := bind_eq_ok h
  have hd : c' = d := congrArg Prod.snd hcheck
  obtain ⟨heq, hlt⟩ := boundedIndex_ok.mp (congrArg Prod.fst hcheck)
  have hbound : boundedIndex raw limit' kind = .ok index := boundedIndex_ok.mpr ⟨heq, by omega⟩
  refine (bind_of_ok hread).trans ?_
  rw [hbound, hd]
  rfl

theorem readIdWithin_mono {limit limit' : ℕ} {kind : String} {id : UInt32}
    (h : readIdWithin V limit kind c = (.ok id, d)) (hle : limit ≤ limit') :
    readIdWithin V limit' kind c = (.ok id, d) := by
  obtain ⟨raw, c', hread, hcheck⟩ := bind_eq_ok h
  have hd : c' = d := congrArg Prod.snd hcheck
  obtain ⟨heq, hlt⟩ := boundedId_ok.mp (congrArg Prod.fst hcheck)
  have hbound : boundedId raw limit' kind = .ok id := boundedId_ok.mpr ⟨heq, by omega⟩
  refine (bind_of_ok hread).trans ?_
  rw [hbound, hd]
  rfl

/-- A sample does not change when more threads and stacks are known. -/
theorem readSample_mono {threads threads' : List ThreadRecord} {stackCount stackCount' : ℕ}
    (h : readSample V threads stackCount last c = (.ok sample, d))
    (hthreads : threads <+: threads') (hle : stackCount ≤ stackCount') :
    readSample V threads' stackCount' last c = (.ok sample, d) := by
  obtain ⟨delta, c1, hdelta, h1⟩ := bind_eq_ok h
  obtain ⟨timestampNs, c2, hts, h2⟩ := bind_eq_ok h1
  obtain ⟨threadRef, c3, href, h3⟩ := bind_eq_ok h2
  obtain ⟨thread, c4, hthread, h4⟩ := bind_eq_ok h3
  obtain ⟨stackId, c5, hstack, h5⟩ := bind_eq_ok h4
  have hat : threads'[threadRef]? = some thread := by
    obtain ⟨more, rfl⟩ := hthreads
    have hget := threadAt_ok.mp (congrArg Prod.fst hthread)
    rw [List.getElem?_append_left (List.getElem?_eq_some_iff.mp hget).1]
    exact hget
  have hthread' : (ofExcept (threadAt threads' threadRef) : Reader ThreadRecord) c3 =
      (.ok thread, c4) := by
    have hcursor : c3 = c4 := congrArg Prod.snd hthread
    rw [threadAt_ok.mpr hat, hcursor]
    rfl
  refine (bind_of_ok hdelta).trans ?_
  refine (bind_of_ok hts).trans ?_
  refine (bind_of_ok (readIndexWithin_mono href hthreads.length_le)).trans ?_
  refine (bind_of_ok hthread').trans ?_
  exact (bind_of_ok (readIdWithin_mono hstack hle)).trans h5

theorem sliceTo_length {α : Type} {l l' : List α} (h : l <+: l') : sliceTo l' l.length = .ok l := by
  unfold sliceTo
  rw [if_pos h.length_le, List.prefix_iff_eq_take.mp h, List.length_take,
    Nat.min_eq_left h.length_le]

/-- Reading over a record with the definitions of the whole file moves the
counters as committing it did. -/
theorem consume_of_commit {after : ReaderState} {definitions : SpoolDefinitions} {tag : UInt8}
    (hmodules : s.modules <+: definitions.modules)
    (hnodes : s.stackNodes <+: definitions.stackNodes) (htag : tag ≠ REC_SAMPLE)
    (hcommit : s.commit record = .ok after) (h : decodeTagged V s tag c = (.ok record, d)) :
    consumeValidatedRecord V tag definitions (recordCounts s) c =
      (.ok (recordCounts after), d) := by
  revert h htag
  apply decodeTagged_cases V s fun tag m => tag ≠ REC_SAMPLE → m c = (.ok record, d) →
    consumeValidatedRecord V tag definitions (recordCounts s) c = (.ok (recordCounts after), d)
  · intro tag htag _ h
    obtain ⟨module, hread, rfl⟩ := map_eq_ok h
    cases hcommit
    unfold consumeValidatedRecord
    rw [if_pos htag]
    refine (bind_of_ok hread).trans ?_
    simp [recordCounts, ReaderState.pushModule, pure_apply]
  · intro _ h
    obtain ⟨frame, hread, rfl⟩ := map_eq_ok h
    cases hcommit
    change (ofExcept (sliceTo definitions.modules s.modules.length) >>= fun modules =>
      readFrame V modules s.frames.length >>= fun _ => pure _) c = _
    rw [sliceTo_length hmodules]
    refine (bind_of_ok hread).trans ?_
    simp [recordCounts, ReaderState.pushFrame, pure_apply]
  · intro _ h
    obtain ⟨node, hread, rfl⟩ := map_eq_ok h
    cases hcommit
    change (ofExcept (sliceTo definitions.stackNodes s.stackNodes.length) >>= fun nodes =>
      readStackNode V nodes s.frames.length >>= fun _ => pure _) c = _
    rw [sliceTo_length hnodes]
    refine (bind_of_ok hread).trans ?_
    simp [recordCounts, ReaderState.pushStack, pure_apply]
  · intro _ h
    obtain ⟨thread, hread, rfl⟩ := map_eq_ok h
    cases hcommit
    refine (bind_of_ok hread).trans ?_
    simp [recordCounts, ReaderState.pushThread, pure_apply]
  · intro htag
    exact absurd rfl htag
  · intro _ h
    obtain ⟨runtime, hread, rfl⟩ := map_eq_ok h
    cases hcommit
    exact bind_of_ok hread
  iterate 2
    · intro _ h
      obtain ⟨found, hread, rfl⟩ := map_eq_ok h
      obtain ⟨contexts, rfl⟩ := commit_deactivate hcommit (by simp)
      exact bind_of_ok hread
  · intro tag _ _ h
    cases h

/-- The iterator, standing at the record with this baseline, reads this sample. -/
structure ReadsSample (V : IntegerEncoding) (reader : Replay) (last : UInt64)
    (entry : SpoolEntry) (sample : SampleRecord) : Prop where
  start_lt : entry.start < entry.stop
  tag : readTag ⟨reader.mmap, entry.start⟩ =
    (.ok (some REC_SAMPLE), ⟨reader.mmap, entry.start + 1⟩)
  read : readSample V reader.threads reader.definitions.stackNodes.length last
    ⟨reader.mmap, entry.start + 1⟩ = (.ok sample, ⟨reader.mmap, entry.stop⟩)

/-- Every sample among the records can be read again, each with the timestamp of
the sample before it as baseline. -/
def Replayable (V : IntegerEncoding) (reader : Replay) : UInt64 → List SpoolEntry → Prop
  | _, [] => True
  | last, entry :: entries =>
      match entry.record.sample? with
      | none => Replayable V reader last entries
      | some sample =>
          ReadsSample V reader last entry sample ∧
            Replayable V reader sample.timestampNs entries

/-- The reader holds definitions that extend those of the state, over the same bytes. -/
structure Backs (reader : Replay) (s : ReaderState) (mmap : Mmap) : Prop where
  mmap : reader.mmap = mmap
  modules : s.modules <+: reader.definitions.modules
  stackNodes : s.stackNodes <+: reader.definitions.stackNodes
  threads : s.threads <+: reader.threads

theorem Backs.of_grows {mmap : Mmap} (h : Backs reader t mmap) (hgrows : Grows s t) :
    Backs reader s mmap :=
  ⟨h.mmap, hgrows.modules.trans h.modules, hgrows.stackNodes.trans h.stackNodes,
    hgrows.threads.trans h.threads⟩

theorem readsSample_of_next (hc : c.Valid) (hbacks : Backs reader s c.mmap)
    (h : (spoolFormat V).next s c = (.ok (.sample sample, t), d)) :
    ReadsSample V reader s.lastTimestampNs ⟨c.position, d.position, .sample sample, t⟩ sample ∧
      t.lastTimestampNs = sample.timestampNs := by
  have hlt := (spoolFormat V).progress _ _ _ _ hc h
  have hmmap := next_mmap hc h
  obtain ⟨tag, htag, hdecode, hcommit⟩ := next_parts hc h
  have hkind := (sample?_isSome hdecode).mp rfl
  subst hkind
  have hread : readSample V s.threads s.stackNodes.length s.lastTimestampNs (c.advance 1) =
      (.ok sample, d) := by
    obtain ⟨sample', hread, heq⟩ := map_eq_ok hdecode
    cases heq
    exact hread
  have hd : d = ⟨reader.mmap, d.position⟩ := by
    rw [hbacks.mmap, ← hmmap]
  have hc' : c = ⟨reader.mmap, c.position⟩ := by rw [hbacks.mmap]
  cases hcommit
  refine ⟨⟨hlt, ?_, ?_⟩, rfl⟩
  · rw [hc'] at htag
    exact htag
  · have hmono := readSample_mono hread hbacks.threads hbacks.stackNodes.length_le
    rw [hc', hd] at hmono
    exact hmono

/-- Only samples move the baseline of the timestamps. -/
theorem commit_lastTimestampNs (h : s.commit record = .ok t) (hsample : record.sample? = none) :
    t.lastTimestampNs = s.lastTimestampNs := by
  cases record with
  | sample sample => cases hsample
  | deactivateProcess | deactivateModule =>
    obtain ⟨contexts, rfl⟩ := commit_deactivate h (by simp)
    rfl
  | _ =>
    cases h
    rfl

theorem eq_sample_of_sample? (h : record.sample? = some sample) : record = .sample sample := by
  cases record <;> cases h
  rfl

theorem replayable_run (h : Run (spoolFormat V) s c entries t d) (hc : c.Valid)
    (hbacks : Backs reader t c.mmap) : Replayable V reader s.lastTimestampNs entries := by
  induction h with
  | nil s c => trivial
  | @cons s s' t c c' d record entries hnext hrun ih =>
    have hvalid := next_valid hc hnext
    have hmmap := next_mmap hc hnext
    have hgrows := (commit_grows (next_accepts hc hnext).2).trans (grows_run hrun hvalid)
    have hrest := ih hvalid (by rw [hmmap]; exact hbacks)
    unfold Replayable
    rcases hsample : record.sample? with _ | sample
    · rw [commit_lastTimestampNs (next_accepts hc hnext).2 hsample] at hrest
      exact hrest
    · have hrecord := eq_sample_of_sample? hsample
      subst hrecord
      obtain ⟨hreads, hlast⟩ := readsSample_of_next hc (hbacks.of_grows hgrows) hnext
      rw [hlast] at hrest
      exact ⟨hreads, hrest⟩

theorem replayable_of_sample (h : Replayable V reader last (entry :: entries))
    (hsample : entry.record.sample? = some sample) :
    ReadsSample V reader last entry sample ∧ Replayable V reader sample.timestampNs entries := by
  unfold Replayable at h
  rw [hsample] at h
  exact h

theorem replayable_of_other (h : Replayable V reader last (entry :: entries))
    (hsample : entry.record.sample? = none) : Replayable V reader last entries := by
  unfold Replayable at h
  rw [hsample] at h
  exact h

/-- Records other than samples do not matter for replay. -/
theorem Replayable.filter {later : List SpoolEntry}
    (h : Replayable V reader last (entries ++ later)) :
    Replayable V reader last (entries.filter isSample ++ later) := by
  induction entries generalizing last with
  | nil => exact h
  | cons entry entries ih =>
    rcases hsample : entry.record.sample? with _ | sample
    · have hkind : isSample entry = false := by
        unfold isSample
        rw [hsample]
        rfl
      rw [List.filter_cons_of_neg (by rw [hkind]; exact Bool.false_ne_true)]
      exact ih (replayable_of_other h hsample)
    · have hkind : isSample entry = true := by
        unfold isSample
        rw [hsample]
        rfl
      rw [List.filter_cons_of_pos hkind, List.cons_append]
      obtain ⟨hreads, hrest⟩ := replayable_of_sample h hsample
      unfold Replayable
      rw [hsample]
      exact ⟨hreads, ih hrest⟩

/-- The part of the file that is scanned record by record. -/
def Scanned (V : IntegerEncoding) (reader : Replay) (entries : List SpoolEntry) : Prop :=
  (entries = [] ∧ reader.scanStart = none) ∨
    ∃ s t c d, Run (spoolFormat V) s c entries t d ∧ c.Valid ∧ Backs reader t c.mmap ∧
      reader.scanStart = some ⟨c.position, recordCounts s⟩

/-- Where the iterator stands when these records are still to come. -/
inductive Located (V : IntegerEncoding) (reader : Replay) :
    ReplayMode → ℕ → List SpoolEntry → Prop
  | ranges {index position : ℕ} {range : SampleRange} {group later scanned : List SpoolEntry} :
      reader.sampleRanges[index]? = some range → Contiguous position group range.stop →
      Groups (reader.sampleRanges.drop (index + 1)) later →
      (∀ entry ∈ group ++ later, isSample entry = true ∧ entry.start < entry.stop) →
      Scanned V reader scanned →
        Located V reader (.ranges index) position (group ++ (later ++ scanned))
  | records {s t : ReaderState} {c d : Cursor} {entries : List SpoolEntry} :
      Run (spoolFormat V) s c entries t d → c.Valid → Backs reader t c.mmap →
        Located V reader (.records (recordCounts s)) c.position entries

/-- The search stops at the first sample to come. -/
def Finds (V : IntegerEncoding) (reader : Replay) (last : UInt64) (rounds position : ℕ)
    (mode : ReplayMode) (entries : List SpoolEntry) : Prop :=
  ∃ entry sample rest mode', ReadsSample V reader last entry sample ∧
    entries.filterMap (·.record.sample?) = sample :: rest.filterMap (·.record.sample?) ∧
    seek V reader rounds ⟨reader.mmap, position⟩ mode =
      .ok (REC_SAMPLE, ⟨reader.mmap, entry.start + 1⟩, mode') ∧
    Located V reader mode' entry.stop rest ∧
    Replayable V reader sample.timestampNs rest

theorem Finds.of_seek_eq {rounds rounds' position' : ℕ} {mode' : ReplayMode}
    (h : Finds V reader last rounds position mode entries)
    (hseek : seek V reader rounds' ⟨reader.mmap, position'⟩ mode' =
      seek V reader rounds ⟨reader.mmap, position⟩ mode) :
    Finds V reader last rounds' position' mode' entries := by
  obtain ⟨entry, sample, rest, mode'', hreads, hrest, hfound, hlocated, hreplay⟩ := h
  exact ⟨entry, sample, rest, mode'', hreads, hrest, hseek.trans hfound, hlocated, hreplay⟩

theorem finds_records (h : Run (spoolFormat V) s c entries t d) (hc : c.Valid)
    (hbacks : Backs reader t c.mmap) (hreplay : Replayable V reader last entries)
    (hsome : entries.filterMap (·.record.sample?) ≠ []) (rounds : ℕ)
    (hrounds : entries.length ≤ rounds) :
    Finds V reader last rounds c.position (.records (recordCounts s)) entries := by
  induction h generalizing rounds with
  | nil s c => exact absurd rfl hsome
  | @cons s s' t c c' d record entries hnext hrun ih =>
    have hvalid := next_valid hc hnext
    have hmmap := next_mmap hc hnext
    have hbacks' : Backs reader t c'.mmap := by rw [hmmap]; exact hbacks
    have hgrows := (commit_grows (next_accepts hc hnext).2).trans (grows_run hrun hvalid)
    have hbackss := hbacks.of_grows hgrows
    have hcursor : (⟨reader.mmap, c.position⟩ : Cursor) = c := by rw [hbacks.mmap]
    have hcursor' : (⟨reader.mmap, c'.position⟩ : Cursor) = c' := by rw [hbacks'.mmap]
    rw [List.length_cons] at hrounds
    obtain ⟨rounds, rfl⟩ : ∃ n, rounds = n + 1 := ⟨rounds - 1, by omega⟩
    obtain ⟨tag, htag, hdecode, hcommit⟩ := next_parts hc hnext
    rcases hsample : record.sample? with _ | sample
    · have hkind : tag ≠ REC_SAMPLE := by
        intro heq
        have hbad := (sample?_isSome hdecode).mpr heq
        rw [hsample] at hbad
        cases hbad
      have hconsume := consume_of_commit hbackss.modules hbackss.stackNodes hkind hcommit hdecode
      rw [List.filterMap_cons, hsample] at hsome
      obtain ⟨entry, sample, rest, mode', hreads, hrest, hseek, hlocated, hreplay'⟩ :=
        ih hvalid hbacks' (replayable_of_other hreplay hsample) hsome rounds (by omega)
      refine ⟨entry, sample, rest, mode', hreads, ?_, ?_, hlocated, hreplay'⟩
      · rw [List.filterMap_cons, hsample]
        exact hrest
      · rw [hcursor, seek, htag]
        simp only [if_neg hkind, hconsume]
        rw [hcursor'] at hseek
        exact hseek
    · have hrecord := eq_sample_of_sample? hsample
      subst hrecord
      have hkind := (sample?_isSome hdecode).mp rfl
      have hcounts : recordCounts s' = recordCounts s := by
        cases hcommit
        rfl
      obtain ⟨hreads, hreplay'⟩ := replayable_of_sample hreplay hsample
      refine ⟨_, sample, entries, .records (recordCounts s), hreads, ?_, ?_, ?_, hreplay'⟩
      · rw [List.filterMap_cons]
        rfl
      · rw [hcursor, seek, htag]
        simp only [hkind]
        rw [← hcursor]
        rfl
      · rw [← hcounts]
        exact .records hrun hvalid hbacks'

/-- At a sample of the current range the search stops at once. -/
theorem finds_range {index : ℕ} {range : SampleRange} {group later scanned : List SpoolEntry}
    (hrange : reader.sampleRanges[index]? = some range)
    (hcont : Contiguous position (entry :: group) range.stop)
    (hlater : Groups (reader.sampleRanges.drop (index + 1)) later)
    (hsamples : ∀ e ∈ entry :: group ++ later, isSample e = true ∧ e.start < e.stop)
    (hscanned : Scanned V reader scanned)
    (hreplay : Replayable V reader last (entry :: group ++ (later ++ scanned))) (rounds : ℕ) :
    Finds V reader last (rounds + 1) position (.ranges index)
      (entry :: group ++ (later ++ scanned)) := by
  rcases hcont with _ | hgroup
  obtain ⟨hkind, hlt⟩ := hsamples entry (.head _)
  obtain ⟨sample, hsample⟩ := Option.isSome_iff_exists.mp hkind
  obtain ⟨hreads, hrest⟩ := replayable_of_sample hreplay hsample
  have hle := hgroup.le fun e he =>
    (hsamples e (.tail _ (List.mem_append_left _ he))).2
  refine ⟨entry, sample, group ++ (later ++ scanned), .ranges index, hreads, ?_, ?_, ?_, hrest⟩
  · rw [List.cons_append, List.filterMap_cons, hsample]
  · have hne : ¬ entry.start = range.stop := by omega
    rw [seek, hrange]
    simp only [if_neg hne, hreads.tag]
  · exact .ranges hrange hgroup hlater
      (fun e he => hsamples e (.tail _ he)) hscanned

theorem finds_located (h : Located V reader mode position entries)
    (hreplay : Replayable V reader last entries)
    (hsome : entries.filterMap (·.record.sample?) ≠ []) :
    Finds V reader last (seekRounds reader) position mode entries := by
  have hlen : ∀ {s t : ReaderState} {c d : Cursor} {entries : List SpoolEntry},
      Run (spoolFormat V) s c entries t d → c.Valid → Backs reader t c.mmap →
      entries.length ≤ reader.mmap.len := by
    intro s t c d entries hrun hc hbacks
    have hlength := hrun.length_le hc
    obtain ⟨hmmap, hvalid⟩ := hrun.mmap_eq hc
    have hle : d.position ≤ d.mmap.len := hvalid
    rw [hmmap, ← hbacks.mmap] at hle
    omega
  unfold seekRounds
  rcases h with ⟨hrange, hcont, hlater, hsamples, hscanned⟩ | ⟨hrun, hc, hbacks⟩
  · rename_i index range group later scanned
    rcases group with _ | ⟨entry, group⟩
    · rcases hcont with _ | _
      rw [List.nil_append] at hreplay hsome hsamples ⊢
      generalize hdrop : reader.sampleRanges.drop (index + 1) = ranges at hlater
      rcases hlater with _ | ⟨hne, hgroup, hgroups⟩
      · -- The ranges are used up, so the remaining samples are scanned.
        rw [List.nil_append] at hreplay hsome ⊢
        have hnone : reader.sampleRanges[index + 1]? = none :=
          List.getElem?_eq_none (List.drop_eq_nil_iff.mp hdrop)
        rcases hscanned with ⟨rfl, _⟩ | ⟨s, t, c, d, hrun, hc, hbacks, hstart⟩
        · exact absurd rfl hsome
        · have hfinds := finds_records hrun hc hbacks hreplay hsome
            (reader.sampleRanges.length + reader.mmap.len + 1) (by
              have := hlen hrun hc hbacks
              omega)
          apply hfinds.of_seek_eq
          rw [seek, hrange]
          simp only [if_true, hnone, hstart]
          rfl
      · rename_i range' ranges' group later
        have hnext : reader.sampleRanges[index + 1]? = some range' := by
          rw [← List.head?_drop, hdrop]
          rfl
        have hdrop' : reader.sampleRanges.drop (index + 1 + 1) = ranges' := by
          rw [← List.tail_drop, hdrop]
          rfl
        rcases group with _ | ⟨entry, group⟩
        · exact absurd rfl hne
        · rw [← hdrop'] at hgroups
          rw [List.append_assoc] at hreplay hsome ⊢
          have hfinds := finds_range hnext hgroup hgroups hsamples hscanned hreplay
            (reader.sampleRanges.length + reader.mmap.len)
          apply hfinds.of_seek_eq
          rw [seek, hrange]
          simp only [if_true, hnext]
          rfl
    · exact finds_range hrange hcont hlater hsamples hscanned hreplay _
  · have hle := hlen hrun hc hbacks
    exact finds_records hrun hc hbacks hreplay hsome _ (by omega)

theorem next_of_finds {remaining : ℕ}
    (h : Finds V reader last (seekRounds reader) position mode entries) :
    ∃ sample rest mode' position',
      entries.filterMap (·.record.sample?) = sample :: rest.filterMap (·.record.sample?) ∧
      ReplayReader.next V reader ⟨⟨reader.mmap, position⟩, last, remaining + 1, mode⟩ =
        .ok (some sample, ⟨⟨reader.mmap, position'⟩, sample.timestampNs, remaining, mode'⟩) ∧
      Located V reader mode' position' rest ∧ Replayable V reader sample.timestampNs rest := by
  obtain ⟨entry, sample, rest, mode', hreads, hrest, hseek, hlocated, hreplay⟩ := h
  refine ⟨sample, rest, mode', entry.stop, hrest, ?_, hlocated, hreplay⟩
  unfold ReplayReader.next
  rw [if_neg (Nat.succ_ne_zero remaining), hseek]
  simp only [ne_eq, not_true_eq_false, if_false, hreads.read, Nat.add_sub_cancel]

/-- The iterator yields the samples to come, each one once and in order. -/
theorem drain_located
    (h : entries.filterMap (·.record.sample?) = [] ∨ Located V reader mode position entries)
    (hreplay : Replayable V reader last entries) {remaining : ℕ}
    (hremaining : (entries.filterMap (·.record.sample?)).length = remaining) :
    drain V reader (remaining + 1) ⟨⟨reader.mmap, position⟩, last, remaining, mode⟩ =
      .ok (entries.filterMap (·.record.sample?)) := by
  induction remaining generalizing last mode position entries with
  | zero =>
    rw [List.eq_nil_of_length_eq_zero hremaining]
    rfl
  | succ remaining ih =>
    have hsome : entries.filterMap (·.record.sample?) ≠ [] :=
      List.ne_nil_of_length_eq_add_one hremaining
    rcases h with hnone | hlocated
    · exact absurd hnone hsome
    · obtain ⟨sample, rest, mode', position', hrest, hnext, hlocated', hreplay'⟩ :=
        next_of_finds (finds_located hlocated hreplay hsome)
      rw [hrest, List.length_cons] at hremaining
      have hdrain := ih (.inr hlocated') hreplay' (Nat.succ.inj hremaining)
      rw [drain, hnext, hrest]
      change (drain V reader (remaining + 1) _ >>= fun samples => pure (sample :: samples)) = _
      rw [hdrain]
      rfl

/-- A new iterator stands in front of all samples of the index. -/
theorem located_start {indexed scanned : List SpoolEntry}
    (hgroups : Groups reader.sampleRanges indexed)
    (hindexed : ∀ entry ∈ indexed, isSample entry = true ∧ entry.start < entry.stop)
    (hscanned : Scanned V reader scanned) :
    ∃ position mode, replaySamples reader =
        ⟨⟨reader.mmap, position⟩, 0, reader.sampleCount, mode⟩ ∧
      ((indexed ++ scanned).filterMap (·.record.sample?) = [] ∨
        Located V reader mode position (indexed ++ scanned)) := by
  unfold replaySamples
  rcases hranges : reader.sampleRanges with _ | ⟨range, ranges⟩
  · rw [hranges] at hgroups
    rcases hgroups with _ | _
    rcases hscanned with ⟨rfl, hstart⟩ | ⟨s, t, c, d, hrun, hc, hbacks, hstart⟩
    · rw [hstart]
      exact ⟨_, _, rfl, .inl rfl⟩
    · rw [hstart]
      exact ⟨_, _, rfl, .inr (.records hrun hc hbacks)⟩
  · refine ⟨range.start, .ranges 0, rfl, .inr ?_⟩
    have hfirst : reader.sampleRanges[0]? = some range := by rw [hranges]; rfl
    have hrest : reader.sampleRanges.drop (0 + 1) = ranges := by rw [hranges]; rfl
    rw [hranges] at hgroups
    rcases hgroups with _ | ⟨_, hcont, hlater⟩
    rw [← hrest] at hlater
    rw [List.append_assoc]
    exact .ranges hfirst hcont hlater hindexed hscanned

theorem samples_filter (entries : List SpoolEntry) :
    (entries.filter isSample).filterMap (·.record.sample?) =
      entries.filterMap (·.record.sample?) := by
  rw [List.filterMap_filter]
  congr 1
  funext entry
  unfold isSample
  rcases entry.record.sample? with _ | sample <;> rfl

section

variable {mmap : Mmap} {header : SpoolHeader} {ending : Ending Stop}

/-- The reader that opening the file for replay returns. -/
def replayOf (rangeLimit : ℕ) (header : SpoolHeader) (mmap : Mmap) (entries : List SpoolEntry)
    (ending : Ending Stop) : Replay :=
  .fromOpened ((Reading.final .replay rangeLimit entries).finish header mmap ending.isTorn)

section

variable (h : Reading V mmap header c entries t d ending)

include h

theorem replayOf_backs (rangeLimit : ℕ) :
    Backs (replayOf rangeLimit header mmap entries ending) t mmap := by
  have hholds := h.finish_holds .replay rangeLimit ending.isTorn
  refine ⟨rfl, ?_, ?_, ?_⟩
  · exact ⟨[], (List.append_nil _).trans hholds.modules.symm⟩
  · exact ⟨[], (List.append_nil _).trans hholds.stackNodes.symm⟩
  · exact ⟨[], (List.append_nil _).trans hholds.threads.symm⟩

/-- Opening for replay splits the records into an indexed and a scanned part. -/
theorem exists_index (rangeLimit : ℕ) :
    ∃ indexed scanned, entries = indexed ++ scanned ∧
      Groups (replayOf rangeLimit header mmap entries ending).sampleRanges
        (indexed.filter isSample) ∧
      Scanned V (replayOf rangeLimit header mmap entries ending) scanned := by
  obtain ⟨hmmap, hc⟩ := Reading.header_valid h.header
  obtain ⟨ranges, hranges, hcases⟩ := (indexed_final rangeLimit entries).index
  have hsample : (replayOf rangeLimit header mmap entries ending).sampleRanges = ranges := by
    change (Reading.final .replay rangeLimit entries).sampleRanges.getD [] = ranges
    rw [hranges]
    rfl
  rw [hsample]
  rcases hcases with ⟨hscan, hgroups⟩ | ⟨indexed, first, rest, hsplit, hfirst, hgroups, hscan⟩
  · exact ⟨entries, [], (List.append_nil _).symm, hgroups, .inl ⟨rfl, hscan⟩⟩
  · refine ⟨indexed, first :: rest, hsplit, hgroups, .inr ?_⟩
    have hrun := h.scan.run
    rw [hsplit] at hrun
    obtain ⟨s, c', hpre, hpost⟩ := hrun.split
    obtain ⟨hmmap', hc'⟩ := hpre.mmap_eq hc
    refine ⟨s, t, c', d, hpost, hc', ?_, hscan.trans ?_⟩
    · rw [hmmap', hmmap]
      exact replayOf_backs h rangeLimit
    · -- A sample leaves the counters as they were in front of it.
      rcases hpost with _ | ⟨hnext, _⟩
      obtain ⟨sample, hsample⟩ := Option.isSome_iff_exists.mp hfirst
      have hrecord := eq_sample_of_sample? hsample
      dsimp only at hrecord
      subst hrecord
      cases (next_accepts hc' hnext).2
      rfl

theorem collect_eq (rangeLimit : ℕ) :
    collect V (replayOf rangeLimit header mmap entries ending) =
      .ok (entries.filterMap (·.record.sample?)) := by
  obtain ⟨hmmap, hc⟩ := Reading.header_valid h.header
  have hbacks := replayOf_backs h rangeLimit
  have hcount : (replayOf rangeLimit header mmap entries ending).sampleCount =
      (entries.filterMap (·.record.sample?)).length :=
    Reading.final_sampleCount .replay rangeLimit entries
  have hreplay : Replayable V (replayOf rangeLimit header mmap entries ending) 0 entries := by
    apply replayable_run h.scan.run hc
    rw [hmmap]
    exact hbacks
  obtain ⟨indexed, scanned, hsplit, hgroups, hscanned⟩ := exists_index h rangeLimit
  have hindexed : ∀ entry ∈ indexed.filter isSample,
      isSample entry = true ∧ entry.start < entry.stop := by
    intro entry hentry
    obtain ⟨hmem, hsample⟩ := List.mem_filter.mp hentry
    have hbounds := h.scan.run.entry_bounds hc entry (by rw [hsplit]; simp [hmem])
    exact ⟨hsample, hbounds.2.1⟩
  obtain ⟨position, mode, hstart, hlocated⟩ := located_start hgroups hindexed hscanned
  have hsamples : (indexed.filter isSample ++ scanned).filterMap (·.record.sample?) =
      entries.filterMap (·.record.sample?) := by
    rw [hsplit, List.filterMap_append, List.filterMap_append, samples_filter]
  have hfiltered : Replayable V (replayOf rangeLimit header mmap entries ending) 0
      (indexed.filter isSample ++ scanned) := by
    apply Replayable.filter
    rw [← hsplit]
    exact hreplay
  have hdrain := drain_located hlocated hfiltered (by rw [hsamples, ← hcount])
  rw [hsamples] at hdrain
  unfold collect
  rw [hstart]
  exact hdrain

end

end

/-- Replay with any range limit yields the samples eager reading retains, as many
as were counted, and none of its assertions fails. -/
theorem replay_eq_eager {storage : SampleStorage} {limit : ℕ} {mmap : Mmap}
    {accepted : OpenedSpool}
    (h : openSpoolWithRangeLimit V storage limit mmap = .ok accepted) (rangeLimit : ℕ) :
    ∃ opened eager, openSpoolWithRangeLimit V .replay rangeLimit mmap = .ok opened ∧
      openSpool V .retain mmap = .ok eager ∧
      collect V (.fromOpened opened) = .ok eager.samples ∧
      eager.samples.length = opened.sampleCount := by
  obtain ⟨header, c, entries, t, d, ending, hreading, hfault, -⟩ := Reading.of_open_eq_ok h
  have hsamples := Reading.final_samples MAX_REPLAY_SAMPLE_RANGES entries
  have hcount := Reading.final_sampleCount .replay rangeLimit entries
  refine ⟨_, _, hreading.open_eq_ok .replay rangeLimit hfault,
    hreading.open_eq_ok .retain MAX_REPLAY_SAMPLE_RANGES hfault, ?_, ?_⟩
  · refine (collect_eq hreading rangeLimit).trans ?_
    exact congrArg Except.ok hsamples.symm
  · exact (congrArg List.length hsamples).trans hcount.symm

/-- A spool with three samples in two groups and a torn record behind them. -/
def scatteredSpool : Mmap where
  bytes := CURRENT_MAGIC ++ [0, 0, 0] ++ [2, 0, 1, 5] ++ [3, 0, 255, 255, 255, 255, 15, 0] ++
    [4, 0, 2, 1] ++ [5, 14, 0, 0] ++ [4, 1, 2, 3] ++ [5, 2, 1, 0] ++ [5, 3, 0, 0] ++ [2, 1]
  length_lt := by decide

/-- With room for one range, the second group is found by scanning. -/
theorem replay_eq_eager_scattered : ∃ opened eager,
    openSpoolWithRangeLimit Varint.standard .replay 1 scatteredSpool = .ok opened ∧
      openSpool Varint.standard .retain scatteredSpool = .ok eager ∧
      opened.scanStart.isSome = true ∧ opened.sampleRanges.length = 1 ∧
      collect Varint.standard (.fromOpened opened) = .ok eager.samples ∧
      eager.samples.length = 3 := by
  have hopen : (openSpoolWithRangeLimit Varint.standard .replay 1 scatteredSpool).toOption.map
      (fun opened => (opened.scanStart.isSome, opened.sampleRanges.length, opened.sampleCount)) =
        some (true, 1, 3) := by rfl
  rcases haccepted : openSpoolWithRangeLimit Varint.standard .replay 1 scatteredSpool with
    e | accepted
  · rw [haccepted] at hopen
    cases hopen
  · obtain ⟨opened, eager, hreplay, heager, hcollect, hcount⟩ := replay_eq_eager haccepted 1
    rw [haccepted] at hreplay hopen
    cases hreplay
    have hfields := Option.some.inj hopen
    exact ⟨accepted, eager, rfl, heager, congrArg Prod.fst hfields,
      congrArg (·.2.1) hfields, hcollect, hcount.trans (congrArg (·.2.2) hfields)⟩

end StackPulse.ReplayEquivalence
