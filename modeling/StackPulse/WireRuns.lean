import StackPulse.WireRecords

/-!
A file that holds a header and encoded records. Reading it goes through the
records one by one, as long as the reader makes something of each; an accepted
file is one where it does.
-/
namespace StackPulse.WireRuns

open Attempts Bytes Varint Model Decode DecodeFacts Encode Records Scanning OpenSpool Sessions
  WireFields WireRecords

variable {records : List SpoolRecord} {header : SpoolHeader} {mmap : Mmap}

/-- The errors of the result do not mark an input cut short. -/
abbrev Definite {α : Type} (r : Except Stop α) : Prop := FailsWith (·.isEof = false) r

theorem definite_of_rejection {α : Type} {r : Except Stop α} (h : FailsWith Rejection r) :
    Definite r := h.mono fun _ => Rejection.isEof

theorem checkSymbols_definite (module : ModuleRecord) (symbols rest : List JitSymbol) :
    Definite (checkSymbols module symbols rest) := by
  induction rest generalizing symbols with
  | nil => exact .ok symbols
  | cons symbol rest ih =>
    refine .bind (.ite (fun _ => .error rfl) fun _ => ?_) fun found _ => ih _
    exact .ite (fun _ => .error rfl) fun _ => .ite (fun _ => .error rfl) fun _ => .ok _

theorem moduleFromWire_definite (expectedId : ℕ) (module : ModuleRecord) :
    Definite (moduleFromWire expectedId module) := by
  refine .bind (definite_of_rejection matchId_error) fun _ _ => ?_
  rcases module.jitSymbols with _ | symbols
  · exact .ok module
  · refine .bind (.ite (fun _ => .error rfl) fun _ => ?_) fun found _ => .ok _
    exact checkSymbols_definite _ _ _

theorem stackNodeFrom_definite (stackNodes : List StackNodeRecord) (parent : Option UInt32)
    (frameId : UInt32) : Definite (stackNodeFrom stackNodes parent frameId) := by
  unfold stackNodeFrom
  split
  · exact .ok _
  · split
    · exact .error rfl
    · rename_i id _ node _
      refine .bind (.ite (fun _ => ?_) fun _ => .error rfl) fun _ _ => .ok _
      by_cases hzero : id + 1 ≠ 0
      · rw [dif_pos hzero]
        exact .ok _
      · rw [dif_neg hzero]
        exact .ok _

theorem threadAt_definite (threads : List ThreadRecord) (index : ℕ) :
    Definite (threadAt threads index) := by
  unfold threadAt
  split
  · exact .ok _
  · exact .error rfl

theorem decoded_definite (s : ReaderState) (record : SpoolRecord) :
    Definite (decoded s record) := by
  cases record with
  | module module => exact (moduleFromWire_definite _ module).map _
  | frame id tag address =>
    exact .map _ (definite_of_rejection (matchId_error.bind fun _ _ => frameFromWire_error))
  | stack id parent frameId =>
    exact .map _ (.bind (definite_of_rejection matchId_error) fun _ _ =>
      .bind (definite_of_rejection stackPrefix_error) fun parent _ =>
        .bind (definite_of_rejection boundedId_error) fun frameId _ =>
          stackNodeFrom_definite _ parent frameId)
  | thread id processId threadId =>
    exact .map _ (definite_of_rejection (matchId_error.bind fun _ _ =>
      pidTryFrom_error.bind fun _ _ => tidTryFrom_error.bind fun _ _ => .ok _))
  | sample delta threadId stackId =>
    exact .map _ (.bind (definite_of_rejection sampleTimestamp_error) fun _ _ =>
      .bind (definite_of_rejection boundedIndex_error) fun _ _ =>
        .bind (threadAt_definite _ _) fun _ _ =>
          .bind (definite_of_rejection boundedId_error) fun _ _ => .ok _)
  | pythonRuntime timestampNs processId isPythonRuntime =>
    exact .map _ (definite_of_rejection (pidTryFrom_error.bind fun _ _ => .ok _))
  | moduleDeactivation processId => exact .map _ (definite_of_rejection pidTryFrom_error)
  | moduleDeactivationOne moduleId => exact .map _ (definite_of_rejection boundedIndex_error)

theorem step_definite (s : ReaderState) (record : SpoolRecord) : Definite (step s record) :=
  (decoded_definite s record).bind fun _ _ => commit_error.bind fun _ _ => .ok _

/-- The reader goes through the records from one state to another. -/
inductive Reads : ReaderState → List SpoolRecord → List DecodedSpoolRecord → ReaderState → Prop
  | nil (s : ReaderState) : Reads s [] [] s
  | cons {s s' t : ReaderState} {record : SpoolRecord} {records : List SpoolRecord}
      {value : DecodedSpoolRecord} {values : List DecodedSpoolRecord} :
      step s record = .ok (value, s') → Reads s' records values t →
        Reads s (record :: records) (value :: values) t

namespace Reads

variable {s t u : ReaderState} {more : List SpoolRecord} {values others : List DecodedSpoolRecord}

theorem append (h : Reads s records values t) (h' : Reads t more others u) :
    Reads s (records ++ more) (values ++ others) u := by
  induction h with
  | nil s => exact h'
  | cons hstep _ ih => exact .cons hstep (ih h')

theorem split (h : Reads s (records ++ more) values u) :
    ∃ t first rest, Reads s records first t ∧ Reads t more rest u ∧ values = first ++ rest := by
  induction records generalizing s values with
  | nil => exact ⟨s, [], values, .nil s, h, rfl⟩
  | cons record records ih =>
    rcases h with _ | ⟨hstep, hrest⟩
    obtain ⟨t, first, rest, hfirst, hmore, rfl⟩ := ih hrest
    exact ⟨t, _ :: first, rest, .cons hstep hfirst, hmore, rfl⟩

theorem unique (h : Reads s records values t) (h' : Reads s records others u) :
    values = others ∧ t = u := by
  induction h generalizing others with
  | nil s =>
    cases h'
    exact ⟨rfl, rfl⟩
  | cons hstep _ ih =>
    rcases h' with _ | ⟨hstep', hrest'⟩
    rw [hstep] at hstep'
    cases hstep'
    obtain ⟨rfl, rfl⟩ := ih hrest'
    exact ⟨rfl, rfl⟩

end Reads

variable {V : IntegerEncoding}

/-- Where the records of a file stand. -/
def spans (V : IntegerEncoding) : ℕ → List SpoolRecord → List (ℕ × ℕ)
  | _, [] => []
  | start, record :: records =>
      (start, start + (encode V record).length) ::
        spans V (start + (encode V record).length) records

theorem spans_append (start : ℕ) (records more : List SpoolRecord) :
    spans V start (records ++ more) =
      spans V start records ++ spans V (start + (encodeAll V records).length) more := by
  induction records generalizing start with
  | nil => rfl
  | cons record records ih =>
    rw [List.cons_append, spans, spans, ih, encodeAll_cons, List.length_append, Nat.add_assoc]
    rfl

theorem spans_bounds {start : ℕ} {span : ℕ × ℕ} (h : span ∈ spans V start records) :
    start ≤ span.1 ∧ span.1 ≤ span.2 ∧ span.2 ≤ start + (encodeAll V records).length := by
  induction records generalizing start with
  | nil => cases h
  | cons record records ih =>
    rw [encodeAll_cons, List.length_append]
    rcases List.mem_cons.mp h with rfl | h
    · dsimp only
      omega
    · have hbounds := ih h
      omega

/-- The records are read from their encodings. -/
theorem Reads.run {s t : ReaderState} {values : List DecodedSpoolRecord}
    (h : Reads s records values t) {c : Cursor} {tail : List UInt8} (hc : c.Valid)
    (hrest : c.rest = encodeAll V records ++ tail) :
    ∃ entries, Run (spoolFormat V) s c entries t (c.advance (encodeAll V records).length) ∧
      entries.map (·.record) = values ∧
      entries.map (fun entry => (entry.start, entry.stop)) = spans V c.position records := by
  induction h generalizing c with
  | nil s => exact ⟨[], .nil s c, rfl, rfl⟩
  | @cons s s' t record records value values hstep _ ih =>
    rw [encodeAll_cons, List.append_assoc] at hrest
    have hparses := next_parses V s record
    rw [hstep] at hparses
    have hnext := hparses.run hc hrest
    obtain ⟨entries, hrun, hvalues, hspans⟩ := ih (hc.advance _ _ hrest)
      (c.rest_advance_append _ _ hrest)
    rw [Cursor.advance_advance, ← List.length_append, ← encodeAll_cons] at hrun
    refine ⟨_, .cons hnext hrun, ?_, ?_⟩
    · rw [List.map_cons, hvalues]
    · rw [List.map_cons, hspans]
      rfl

/-- Bytes inside the shorter of two files stand there too. -/
theorem rest_of_extends {c c' : Cursor} {bs tail : List UInt8} (hc : c.Valid)
    (hext : c.Extends c') (hrest : c'.rest = bs ++ tail)
    (hin : c.position + bs.length ≤ c.mmap.len) : c.rest = bs ++ c.rest.drop bs.length := by
  obtain ⟨more, hmore⟩ := hext.rest_eq hc
  have hlen : bs.length ≤ c.rest.length := by
    rw [Cursor.length_rest]
    omega
  have htake := congrArg (List.take bs.length) (hmore.symm.trans hrest)
  rw [List.take_append_of_le_length hlen, List.take_left] at htake
  conv_lhs => rw [← List.take_append_drop bs.length c.rest, htake]

/-- A scan of a file that is cut, if it meets no fault, goes through the records before the
cut, and is torn if the cut falls into the next one. -/
theorem exists_cut {s t : ReaderState} {c c' d : Cursor} {entries : List SpoolEntry}
    {ending : Ending Stop} (h : Scan (spoolFormat V) s c entries t d ending)
    (hending : ending.isFault = false) (hc : c.Valid) (hext : c.Extends c')
    (hrest : c'.rest = encodeAll V records) :
    ∃ inside rest values, records = inside ++ rest ∧ Reads s inside values t ∧
      entries.map (fun entry => (entry.start, entry.stop)) = spans V c.position inside ∧
      c.position + (encodeAll V inside).length ≤ c.mmap.len ∧
      (∀ record ∈ rest.head?, c.mmap.len <
        c.position + (encodeAll V inside).length + (encode V record).length) ∧
      (ending.isTorn = true ↔ c.position + (encodeAll V inside).length < c.mmap.len) := by
  induction records generalizing s c c' entries with
  | nil =>
    have hend : Halts (spoolFormat V) s c .complete := by
      have hlen : c'.mmap.len - c'.position = 0 := by
        rw [← Cursor.length_rest, hrest]
        rfl
      have hle := hext.len_le
      have hpos := hext.position
      unfold Cursor.Valid at hc
      show c.position = c.mmap.len
      omega
    obtain ⟨rfl, rfl, -, htorn⟩ := h.of_stuck hending fun _ _ => hend.next_ne hc
    exact ⟨[], [], [], rfl, .nil _, rfl, hc, fun _ hrecord => (by cases hrecord), htorn⟩
  | cons record records ih =>
    rw [encodeAll_cons] at hrest
    have hparses := next_parses V s record
    by_cases hin : c.position + (encode V record).length ≤ c.mmap.len
    · have hfirst := rest_of_extends hc hext hrest hin
      rcases hstep : step s record with e | ⟨value, s'⟩
      · -- a whole record is refused for good, never for want of bytes
        rw [hstep] at hparses
        obtain ⟨d', hnext⟩ := hparses.run_error hc hfirst
        have hdefinite : e.isEof = false := step_definite s record e hstep
        obtain ⟨rfl, rfl, rfl, -⟩ := h.of_stuck hending fun x d hok => by
          rw [hnext] at hok
          cases hok
        cases ending with
        | complete =>
          have hend : d.position = d.mmap.len := h.halts
          rw [encode_eq, List.length_append, List.length_singleton] at hin
          omega
        | torn =>
          obtain ⟨-, e', he', heof⟩ := h.halts
          rw [hnext] at he'
          cases he'
          rw [show e.isEof = true from heof] at hdefinite
          cases hdefinite
        | fault e => cases hending
      · rw [hstep] at hparses
        have hnext := hparses.run hc hfirst
        rcases h with ⟨_ | ⟨hnext', hrun⟩, hhalts⟩
        · exact absurd hnext (hhalts.next_ne hc)
        · rw [hnext] at hnext'
          cases hnext'
          have hext' : (c.advance (encode V record).length).Extends
              (c'.advance (encode V record).length) :=
            ⟨hext.bytes, congrArg (· + (encode V record).length) hext.position⟩
          obtain ⟨inside, rest, values, rfl, hreads, hspans, hle, hhead, htorn⟩ :=
            ih ⟨hrun, hhalts⟩ (hc.advance _ _ hfirst) hext' (c'.rest_advance_append _ _ hrest)
          rw [Cursor.advance_mmap, Cursor.advance_position, Nat.add_assoc, ← List.length_append,
            ← encodeAll_cons] at hle hhead htorn
          refine ⟨record :: inside, rest, value :: values, rfl, .cons hstep hreads, ?_, hle, hhead,
            htorn⟩
          rw [List.map_cons, hspans]
          rfl
    · obtain ⟨rfl, rfl, -, htorn⟩ := h.of_stuck hending fun ⟨value, s'⟩ d' hnext => by
        have hlong := next_extends hc hext hnext
        have hvalid : d'.position ≤ d'.mmap.len := next_valid hc hnext
        rw [next_mmap hc hnext] at hvalid
        rcases hstep : step s record with e | ⟨value', s''⟩
        · rw [hstep] at hparses
          obtain ⟨d'', herror⟩ := hparses.run_error (hext.valid hc) hrest
          rw [herror] at hlong
          cases hlong
        · rw [hstep] at hparses
          rw [hparses.run (hext.valid hc) hrest] at hlong
          have hposition := congrArg (fun r => r.2.position) hlong
          have hpos := hext.position
          simp only [Cursor.advance_position, Cursor.moveTo_position] at hposition
          omega
      refine ⟨[], record :: records, [], rfl, .nil _, rfl, hc, fun r hr => ?_, htorn⟩
      cases hr
      exact Nat.lt_of_not_le hin

/-- A scan of a whole file without a fault goes through all records. -/
theorem exists_reads {s t : ReaderState} {c d : Cursor} {entries : List SpoolEntry}
    {ending : Ending Stop} (h : Scan (spoolFormat V) s c entries t d ending)
    (hending : ending.isFault = false) (hc : c.Valid) (hrest : c.rest = encodeAll V records) :
    ∃ values u, Reads s records values u := by
  obtain ⟨inside, rest, values, rfl, hreads, -, -, hhead, -⟩ :=
    exists_cut h hending hc (.refl c) hrest
  have hlen := congrArg List.length hrest
  rw [Cursor.length_rest, encodeAll_append, List.length_append] at hlen
  cases rest with
  | nil => exact ⟨values, t, by rwa [List.append_nil]⟩
  | cons record rest =>
    have hlt := hhead record rfl
    rw [encodeAll_cons, List.length_append] at hlen
    unfold Cursor.Valid at hc
    omega

/-- The bytes of a file: a header and records. -/
def file (V : IntegerEncoding) (header : SpoolHeader) (records : List SpoolRecord) :
    List UInt8 :=
  encodeHeader V header ++ encodeAll V records

theorem header_of_file {tail : List UInt8} (hbytes : mmap.bytes = encodeHeader V header ++ tail) :
    readHeader V ⟨mmap, 0⟩ = (.ok header, ⟨mmap, (encodeHeader V header).length⟩) ∧
      (⟨mmap, (encodeHeader V header).length⟩ : Cursor).Valid ∧
      (⟨mmap, (encodeHeader V header).length⟩ : Cursor).rest = tail := by
  have hrest : (⟨mmap, 0⟩ : Cursor).rest = encodeHeader V header ++ tail := by
    rw [← hbytes]
    rfl
  have hvalid := Reading.valid_zero mmap
  have hcursor : (⟨mmap, 0⟩ : Cursor).advance (encodeHeader V header).length =
      ⟨mmap, (encodeHeader V header).length⟩ := by
    show (⟨mmap, 0 + _⟩ : Cursor) = _
    rw [Nat.zero_add]
  rw [← hcursor]
  exact ⟨(readHeader_parses V header).run hvalid hrest, hvalid.advance _ _ hrest,
    Cursor.rest_advance_append _ _ _ hrest⟩

/-- A file whose records the reader goes through is read to its end. -/
theorem reading_of_reads {values : List DecodedSpoolRecord} {t : ReaderState}
    (hbytes : mmap.bytes = file V header records) (h : Reads .initial records values t) :
    ∃ entries d, Reading V mmap header ⟨mmap, (encodeHeader V header).length⟩ entries t d
        .complete ∧
      entries.map (·.record) = values ∧
      entries.map (fun entry => (entry.start, entry.stop)) =
        spans V (encodeHeader V header).length records := by
  obtain ⟨hheader, hvalid, hrest⟩ := header_of_file hbytes
  rw [← List.append_nil (encodeAll V records)] at hrest
  obtain ⟨entries, hrun, hvalues, hspans⟩ := h.run hvalid hrest
  refine ⟨entries, _, ⟨hheader, hrun, ?_⟩, hvalues, hspans⟩
  show (encodeHeader V header).length + (encodeAll V records).length = mmap.bytes.length
  rw [hbytes, file, List.length_append]

/-- The reader goes through the records of every file that it accepts. -/
theorem reads_of_open {storage : SampleStorage} {rangeLimit : ℕ} {opened : OpenedSpool}
    (hbytes : mmap.bytes = file V header records)
    (hopen : openSpoolWithRangeLimit V storage rangeLimit mmap = .ok opened) :
    ∃ values t, Reads .initial records values t := by
  obtain ⟨hheader, hvalid, hrest⟩ := header_of_file hbytes
  obtain ⟨header', c, entries, t, d, ending, hreading, hending, _⟩ := Reading.of_open_eq_ok hopen
  have hsame := hreading.header
  rw [hheader] at hsame
  cases hsame
  exact exists_reads hreading.scan hending hvalid hrest

end StackPulse.WireRuns
