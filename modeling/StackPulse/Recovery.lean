import StackPulse.WireRuns

/-!
Recovery after a crash. A file cut at any byte behind its header gives back the
records that lie inside it, with the values that they have in the whole file,
and is reported as truncated when the cut falls inside a record.
-/
namespace StackPulse.Recovery

open Attempts Bytes Varint Model Decode Output Encode Records Scanning OpenSpool Sessions WireRuns

variable {V : IntegerEncoding}

/-- The state in which reading some records has left the reader. -/
def stateAfter (entries : List SpoolEntry) : ReaderState :=
  (entries.getLast?.map (·.after)).getD .initial

theorem stateAfter_run {s t : ReaderState} {c d : Cursor} {entries : List SpoolEntry}
    (h : Run (spoolFormat V) s c entries t d) : (entries.getLast?.map (·.after)).getD s = t := by
  induction h with
  | nil s c => rfl
  | @cons s s' t c c' d record entries _ _ ih =>
    rw [← ih, List.getLast?_cons]
    rcases entries.getLast? with _ | entry <;> rfl

/-- What opening the first `n` bytes gives, in terms of records that are read from a longer
part, and of the places of all records. -/
structure Recovers (header : SpoolHeader) (entries : List SpoolEntry) (places : List (ℕ × ℕ))
    (n : ℕ) (opened : OpenedSpool) : Prop where
  definitions : Holds opened (stateAfter (entries.filter fun entry => entry.stop ≤ n))
  samples : opened.samples =
    (entries.filter fun entry => entry.stop ≤ n).filterMap (·.record.sample?)
  startTimestampUs : opened.definitions.startTimestampUs = header.startTimestampUs
  sampleIntervalNs : opened.definitions.sampleIntervalNs = header.sampleIntervalNs
  clockOrigin : opened.definitions.clockOrigin = header.clockOrigin
  truncated : opened.definitions.truncatedTail = true ↔
    ∃ place ∈ places, place.1 < n ∧ n < place.2

section

variable {mmap : Mmap} {header : SpoolHeader} {records : List SpoolRecord}
  (hfile : mmap.bytes = file V header records) {m n : ℕ}

include hfile

theorem header_of_take (hn : (encodeHeader V header).length ≤ n) :
    readHeader V ⟨mmap.take n, 0⟩ =
      (.ok header, ⟨mmap.take n, (encodeHeader V header).length⟩) := by
  have hcut : (mmap.take n).bytes = encodeHeader V header ++
      (encodeAll V records).take (n - (encodeHeader V header).length) := by
    show mmap.bytes.take n = _
    rw [hfile, file, List.take_append, List.take_of_length_le hn]
  exact (header_of_file hcut).1

/-- The first `n` bytes hold the records that end in them, and are torn inside a record. -/
theorem spans_of_cut (hn : n ≤ mmap.len) {entries : List SpoolEntry} {t : ReaderState}
    {d : Cursor} {ending : Ending Stop} (hending : ending.isFault = false)
    (h : Reading V (mmap.take n) header ⟨mmap.take n, (encodeHeader V header).length⟩ entries t d
      ending) :
    entries.map (fun entry => (entry.start, entry.stop)) =
        (spans V (encodeHeader V header).length records).filter (fun place => place.2 ≤ n) ∧
      (ending.isTorn = true ↔ ∃ place ∈ spans V (encodeHeader V header).length records,
        place.1 < n ∧ n < place.2) := by
  have hlen : (mmap.take n).len = n := by
    rw [Mmap.len_take]
    omega
  have hext : Cursor.Extends ⟨mmap.take n, (encodeHeader V header).length⟩
      ⟨mmap, (encodeHeader V header).length⟩ := ⟨mmap.take_bytes n, rfl⟩
  obtain ⟨inside, rest, values, rfl, -, hspans, hle, hhead, htorn⟩ := exists_cut h.scan hending
    (Reading.header_valid h.header).2 hext (header_of_file hfile).2.2
  simp only [hlen] at hspans hle hhead htorn
  have hin : ∀ place ∈ spans V (encodeHeader V header).length inside, place.2 ≤ n :=
    fun place hplace => (spans_bounds hplace).2.2.trans hle
  rw [spans_append, List.filter_append, hspans,
    List.filter_eq_self.mpr fun place hplace => decide_eq_true (hin place hplace), htorn]
  cases rest with
  | nil =>
    have hwhole : mmap.len = (encodeHeader V header).length + (encodeAll V inside).length := by
      rw [Mmap.len, hfile, file, List.append_nil, List.length_append]
    refine ⟨(List.append_nil _).symm, ⟨fun hlt => by omega, ?_⟩⟩
    rintro ⟨place, hplace, -, hlt⟩
    rw [spans, List.append_nil] at hplace
    exact absurd (hin place hplace) (Nat.not_le.mpr hlt)
  | cons record rest =>
    have hfirst := hhead record rfl
    have hlater : ∀ place ∈ spans V ((encodeHeader V header).length +
        (encodeAll V inside).length + (encode V record).length) rest, n < place.1 :=
      fun place hplace => hfirst.trans_le (spans_bounds hplace).1
    constructor
    · rw [List.filter_eq_nil_iff.mpr, List.append_nil]
      intro place hplace
      simp only [decide_eq_true_eq, Nat.not_le]
      rcases List.mem_cons.mp hplace with rfl | hplace
      · exact hfirst
      · exact (hlater place hplace).trans_le (spans_bounds hplace).2.1
    · constructor
      · exact fun hlt => ⟨_, List.mem_append_right _ (.head _), hlt, hfirst⟩
      · rintro ⟨place, hplace, hstart, hstop⟩
        rcases List.mem_append.mp hplace with hplace | hplace
        · exact absurd (hin place hplace) (Nat.not_le.mpr hstop)
        · rcases List.mem_cons.mp hplace with rfl | hplace
          · exact hstart
          · exact absurd (hlater place hplace) (Nat.not_lt.mpr hstart.le)

/-- Opening a part of a part of a file that is read without a fault. -/
theorem recovers_of_reading (hm : m ≤ mmap.len) {entries : List SpoolEntry} {t : ReaderState}
    {d : Cursor} {ending : Ending Stop} (hending : ending.isFault = false)
    (h : Reading V (mmap.take m) header ⟨mmap.take m, (encodeHeader V header).length⟩ entries t d
      ending) (hn : (encodeHeader V header).length ≤ n) (hle : n ≤ m) (rangeLimit : ℕ) :
    ∃ opened, openSpoolWithRangeLimit V .retain rangeLimit (mmap.take n) = .ok opened ∧
      Recovers header entries (spans V (encodeHeader V header).length records) n opened := by
  have hlen : (mmap.take n).len = n := by
    rw [Mmap.len_take]
    omega
  have hheader := header_of_take hfile hn
  have hext : Cursor.Extends ⟨mmap.take n, (encodeHeader V header).length⟩
      ⟨mmap.take m, (encodeHeader V header).length⟩ := by
    refine ⟨?_, rfl⟩
    show mmap.bytes.take n <+: mmap.bytes.take m
    exact List.take_prefix_take_left hle
  have hnofault : ∀ e, ending ≠ .fault e := by
    rintro e rfl
    cases hending
  obtain ⟨kept, rest, u, d', ending', hsplit, hscan, -, hending', hin, hout⟩ :=
    Scan.shorten (Reading.header_valid hheader).2 hext h.scan hnofault
  simp only [hlen] at hin hout
  have hkept : entries.filter (fun entry => entry.stop ≤ n) = kept := by
    have hnone : rest.filter (fun entry => entry.stop ≤ n) = [] := by
      apply List.filter_eq_nil_iff.mpr
      intro entry hentry
      have hlt := hout entry hentry
      simp only [decide_eq_true_eq]
      omega
    have hall : kept.filter (fun entry => entry.stop ≤ n) = kept := by
      apply List.filter_eq_self.mpr
      intro entry hentry
      exact decide_eq_true (hin entry hentry)
    rw [hsplit, List.filter_append, hall, hnone, List.append_nil]
  have hreading : Reading V (mmap.take n) header ⟨mmap.take n, (encodeHeader V header).length⟩
      kept u d' ending' := ⟨hheader, hscan⟩
  have hfault : ending'.isFault = false := by
    rcases ending' with _ | _ | e
    · rfl
    · rfl
    · exact absurd rfl (hending' e)
  refine ⟨_, hreading.open_eq_ok .retain rangeLimit hfault, ?_, ?_, rfl, rfl, rfl, ?_⟩
  · rw [hkept]
    have hstate : stateAfter kept = u := stateAfter_run hscan.run
    rw [hstate]
    exact hreading.finish_holds .retain rangeLimit ending'.isTorn
  · rw [hkept]
    exact Reading.final_samples rangeLimit kept
  · exact (spans_of_cut hfile (hle.trans hm) hfault hreading).2

end

/-- Some bytes of a session behind its header that are accepted, and any cut of them at `n`
behind the header: the reader finds the records that the writer has written as a whole
within the cut, each where the writer has put it and with the value that it has in the
accepted part. The session as a whole need not be accepted. -/
theorem cut_session_recovers (V : IntegerEncoding) (header : SpoolHeader) (ops : List Op)
    (mmap : Mmap)
    (hbytes : mmap.bytes = (session V (⟨[]⟩ : Vec) header ops).2.writer.inner.bytes)
    (m : ℕ) (hheader : (encodeHeader V header).length ≤ m) (hm : m ≤ mmap.len)
    (full : OpenedSpool) (rangeLimit : ℕ)
    (hfull : openSpoolWithRangeLimit V .retain rangeLimit (mmap.take m) = .ok full) :
    ∃ entries t d ending,
      Reading V (mmap.take m) header ⟨mmap.take m, (encodeHeader V header).length⟩ entries t d
        ending ∧
      Holds full t ∧ full.samples = entries.filterMap (·.record.sample?) ∧
      entries.map (fun entry => (entry.start, entry.stop)) =
        (spans V (encodeHeader V header).length (planOps ops .empty).1).filter
          (fun place => place.2 ≤ m) ∧
      ∀ n, (encodeHeader V header).length ≤ n → n ≤ m →
        ∃ opened, openSpoolWithRangeLimit V .retain rangeLimit (mmap.take n) = .ok opened ∧
          Recovers header entries
            (spans V (encodeHeader V header).length (planOps ops .empty).1) n opened := by
  have hfile : mmap.bytes = file V header (planOps ops .empty).1 := by
    rw [hbytes, session_buffered]
    rfl
  obtain ⟨header', c, entries, t, d, ending, hreading, hending, rfl⟩ :=
    Reading.of_open_eq_ok hfull
  cases hreading.header.symm.trans (header_of_take hfile hheader)
  exact ⟨entries, t, d, ending, hreading, hreading.finish_holds .retain rangeLimit _,
    Reading.final_samples rangeLimit entries, (spans_of_cut hfile hm hending hreading).1,
    fun n hn hle => recovers_of_reading hfile hm hending hreading hn hle rangeLimit⟩

/-- A sample and a deactivation. -/
def twoRecordOps : List Op :=
  [.writeSampleFrames 7 1 1 [.truncatedStackMarker], .writeModuleDeactivation 1]

def twoRecordFile : Mmap where
  bytes := CURRENT_MAGIC ++ [0, 0, 0] ++ [2, 0, 5, 0] ++ [3, 0, 255, 255, 255, 255, 15, 0] ++
    [4, 0, 2, 1] ++ [5, 14, 0, 0] ++ [7, 2]
  length_lt := by decide

/-- The sample, and a record with a process id that the reader rejects. -/
def refusedOps : List Op :=
  [.writeSampleFrames 7 1 1 [.truncatedStackMarker], .writePythonRuntime 0 0 true]

def refusedFile : Mmap where
  bytes := twoRecordFile.bytes.take 31 ++ [6, 0, 0, 1]
  length_lt := by decide

/-- The file is not accepted. Cut inside the record that is rejected, it is opened with its
sample and reported as truncated. -/
theorem cut_session_recovers_refused :
    (openSpoolWithRangeLimit Varint.standard .retain 4 refusedFile).toOption.isSome = false ∧
      ∃ opened,
        openSpoolWithRangeLimit Varint.standard .retain 4 (refusedFile.take 32) = .ok opened ∧
          opened.samples.length = 1 ∧ opened.definitions.truncatedTail = true := by
  refine ⟨by decide +kernel, ?_⟩
  have hbytes : refusedFile.bytes =
      (session Varint.standard (⟨[]⟩ : Vec) ⟨0, 0, none⟩ refusedOps).2.writer.inner.bytes := by
    decide +kernel
  have hspans : spans Varint.standard (encodeHeader Varint.standard ⟨0, 0, none⟩).length
      (planOps refusedOps .empty).1 = [(11, 15), (15, 23), (23, 27), (27, 31), (31, 35)] := by
    decide +kernel
  have hlen : (openSpoolWithRangeLimit Varint.standard .retain 4
      (refusedFile.take 33)).toOption.map (·.samples.length) = some 1 := by
    decide +kernel
  obtain ⟨full, hopen, hlen⟩ := exists_ok_of_toOption hlen
  obtain ⟨entries, _, _, _, _, _, hsamples, hlayout, hcut⟩ :=
    cut_session_recovers Varint.standard ⟨0, 0, none⟩ refusedOps refusedFile hbytes 33
      (by decide +kernel) (by decide +kernel) full 4 hopen
  obtain ⟨opened, hopened, hrecovers⟩ := hcut 32 (by decide +kernel) (by decide +kernel)
  rw [hspans] at hlayout hrecovers
  -- no record ends between the two cuts
  have hsame : entries.filter (fun entry => entry.stop ≤ 32) = entries := by
    have hplaces : ∀ place ∈ [(11, 15), (15, 23), (23, 27), (27, 31), (31, 35)].filter
        (fun place => place.2 ≤ 33), place.2 ≤ 32 := by decide
    rw [← hlayout] at hplaces
    exact List.filter_eq_self.mpr fun entry hentry =>
      decide_eq_true (hplaces _ (List.mem_map_of_mem hentry))
  refine ⟨opened, hopened, ?_, hrecovers.truncated.mpr ⟨(31, 35), by decide, by decide⟩⟩
  rw [hrecovers.samples, hsame, ← hsamples, hlen]

def invalidPidFile : Mmap where
  bytes := CURRENT_MAGIC ++ [0, 0, 0] ++ [6, 0, 0, 1]
  length_lt := by decide

/-- The writer writes a process id that the reader rejects: all calls succeed, and
their bytes are not accepted. -/
theorem successful_session_rejected :
    (session Varint.standard (⟨[]⟩ : Vec) ⟨0, 0, none⟩ [.writePythonRuntime 0 0 true]).1 =
        [.ok none] ∧
      invalidPidFile.bytes = (session Varint.standard (⟨[]⟩ : Vec) ⟨0, 0, none⟩
        [.writePythonRuntime 0 0 true]).2.writer.inner.bytes ∧
      openSpoolWithRangeLimit Varint.standard .retain 4 (invalidPidFile.take 15) matches
        .error (.io (.new .invalidData
          "invalid process id 0 (record tag 6 at byte offset 11)")) := by
  refine ⟨?_, ?_, ?_⟩ <;> decide +kernel

end StackPulse.Recovery
