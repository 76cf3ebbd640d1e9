import StackPulse.LiveSpool
import StackPulse.TailBatches

/-!
The reader of a live spool between two records. Its mapping agrees from the reading
position on with the first published bytes, though the pages before may be gone. A pass
over a mapping that ends between two records meets neither a torn nor a wrong record,
so it comes to the end of the mapping or fills its batch.
-/
namespace StackPulse.LiveFollowing

open Bytes Bytes.ByteReader Varint Model SpoolCursor Decode ReaderFacts Records Scanning OpenSpool
  Safety TailReader TailBatches UnreadBytes LiveSpool

variable {e p : ℕ} {c : Cursor} {file : Mmap}

theorem len_punch (m : Mmap) (n : ℕ) : (punch m n).len = m.len := by
  show (List.replicate (min n m.bytes.length) 0 ++ m.bytes.drop n).length = m.bytes.length
  rw [List.length_append, List.length_replicate, List.length_drop]
  omega

theorem drop_punch (m : Mmap) {n : ℕ} (h : n ≤ p) : (punch m n).bytes.drop p = m.bytes.drop p := by
  show (List.replicate (min n m.bytes.length) 0 ++ m.bytes.drop n).drop p = m.bytes.drop p
  rcases le_total n m.bytes.length with hle | hle
  · obtain ⟨k, rfl⟩ := Nat.exists_eq_add_of_le h
    rw [Nat.min_eq_left hle, ← List.drop_drop, List.drop_left' List.length_replicate,
      List.drop_drop]
  · have hp : m.bytes.length ≤ p := hle.trans h
    rw [Nat.min_eq_right hle, List.drop_of_length_le hle, List.append_nil,
      List.drop_of_length_le (by rw [List.length_replicate]; exact hp), List.drop_of_length_le hp]

/-- Giving back consumed pages changes nothing ahead. -/
theorem agrees_punch (m : Mmap) {n : ℕ} (h : n ≤ p) : Agrees ⟨punch m n, p⟩ ⟨m, p⟩ :=
  ⟨rfl, len_punch m n, drop_punch m h⟩

theorem agrees_take {m m' : Mmap} (h : Agrees ⟨m, p⟩ ⟨m', p⟩) (e : ℕ) :
    Agrees ⟨m.take e, p⟩ ⟨m'.take e, p⟩ := by
  have hlen : m.len = m'.len := h.len
  have hrest : m.bytes.drop p = m'.bytes.drop p := h.rest
  refine ⟨rfl, ?_, ?_⟩
  · show (m.take e).len = (m'.take e).len
    rw [Mmap.len_take, Mmap.len_take, hlen]
  · show (m.bytes.take e).drop p = (m'.bytes.take e).drop p
    rw [List.drop_take, List.drop_take, hrest]

theorem Agrees.trans {c' c'' : Cursor} (h : Agrees c c') (h' : Agrees c' c'') : Agrees c c'' :=
  ⟨h.position.trans h'.position, h.len.trans h'.len, h.rest.trans h'.rest⟩

variable {V : IntegerEncoding}

theorem observeOption_withMmap (tail : Tail) (m : Mmap) (process : Option Pid) :
    (withMmap tail m).observeOption process = withMmap (tail.observeOption process) m := by
  cases process with
  | none => rfl
  | some process =>
    unfold Tail.observeOption Tail.observeProcess withMmap
    dsimp only
    split <;> rfl

/-- Committing a record does not look at the mapping. -/
theorem commitRecord_withMmap (tail : Tail) (m : Mmap) (record : DecodedSpoolRecord) :
    (withMmap tail m).commitRecord record = (tail.commitRecord record).map (withMmap · m) := by
  have hchange : changeOf (withMmap tail m) record = changeOf tail record := by cases record <;> rfl
  rw [commitRecord_eq_change, commitRecord_eq_change, hchange]
  cases changeOf tail record with
  | error e => rfl
  | ok change =>
    have hnoted := observeOption_withMmap { tail with
      toReaderState := change.state
      retiredModules := tail.retiredModules ++ change.retired
      kernelMappingsChanged := tail.kernelMappingsChanged || change.kernel } m change.process
    exact congrArg (fun t : Tail => Except.ok { t with
      samples := t.samples ++ change.samples
      retiredProcesses := t.retiredProcesses ++ change.processes }) hnoted

theorem commitRecord_mmap {tail committed : Tail} {record : DecodedSpoolRecord}
    (h : tail.commitRecord record = .ok committed) : committed.mmap = tail.mmap := by
  have hself := commitRecord_withMmap tail tail.mmap record
  have hsame : withMmap tail tail.mmap = tail := rfl
  rw [hsame, h] at hself
  have hcommitted : committed = withMmap committed tail.mmap := Except.ok.inj hself
  rw [hcommitted]
  rfl

theorem decodeSpoolRecord_mmap {s : ReaderState} (hc : c.Valid) :
    (decodeSpoolRecord V s c).2.mmap = c.mmap ∧ (decodeSpoolRecord V s c).2.Valid := by
  rcases readTag_cases c hc with ⟨-, htag⟩ | ⟨tag, -, hvalid, htag⟩
  · have hdecode : decodeSpoolRecord V s c = (.ok none, c) := bind_of_ok htag
    rw [hdecode]
    exact ⟨rfl, hc⟩
  · have hstable := (decodeTagged_reads V s tag).stable
    have hdecode : decodeSpoolRecord V s c = (some <$> decodeTagged V s tag) (c.advance 1) :=
      bind_of_ok htag
    have hmapped := hstable.map some
    rw [hdecode]
    exact ⟨hmapped.mmap_eq _ hvalid, hmapped.within _ hvalid⟩

/-- A record is read the same way on agreeing mappings. -/
theorem decodeSpoolRecord_agrees (s : ReaderState) {mmap m : Mmap} {position : ℕ}
    (hc : (⟨mmap, position⟩ : Cursor).Valid) (h : Agrees ⟨m, position⟩ ⟨mmap, position⟩) :
    ∃ result p, decodeSpoolRecord V s ⟨mmap, position⟩ = (result, ⟨mmap, p⟩) ∧
      decodeSpoolRecord V s ⟨m, position⟩ = (result, ⟨m, p⟩) ∧ (⟨mmap, p⟩ : Cursor).Valid ∧
      Agrees ⟨m, p⟩ ⟨mmap, p⟩ := by
  have hc' : (⟨m, position⟩ : Cursor).Valid := Nat.le_trans hc h.len.ge
  obtain ⟨hresult, hagrees⟩ := decodeSpoolRecord_ahead V s _ _ h
  obtain ⟨hmmap, hvalid⟩ := decodeSpoolRecord_mmap (V := V) (s := s) hc
  obtain ⟨hmmap', -⟩ := decodeSpoolRecord_mmap (V := V) (s := s) hc'
  rcases hd : decodeSpoolRecord V s ⟨mmap, position⟩ with ⟨result, _, p⟩
  rcases hd' : decodeSpoolRecord V s ⟨m, position⟩ with ⟨result', _, p'⟩
  rw [hd, hd'] at hresult hagrees
  rw [hd] at hmmap hvalid
  rw [hd'] at hmmap'
  cases hmmap
  cases hmmap'
  cases hresult
  obtain rfl : p' = p := hagrees.position
  exact ⟨_, _, rfl, rfl, hvalid, hagrees⟩

/-- A pass gives the same result on agreeing mappings. -/
theorem parseLoop_withMmap {tail : Tail} {m : Mmap} (fuel : ℕ) (hc : tail.cursor.Valid)
    (h : Agrees ⟨m, tail.position⟩ tail.cursor) :
    parseLoop V fuel (withMmap tail m) =
        ((parseLoop V fuel tail).1, withMmap (parseLoop V fuel tail).2 m) ∧
      Agrees ⟨m, (parseLoop V fuel tail).2.position⟩ (parseLoop V fuel tail).2.cursor := by
  induction fuel generalizing tail with
  | zero => exact ⟨rfl, h⟩
  | succ fuel ih =>
    obtain ⟨result, p, (hd : decodeSpoolRecord V tail.toReaderState tail.cursor = _),
      (hd' : decodeSpoolRecord V (withMmap tail m).toReaderState (withMmap tail m).cursor = _),
      hvalid, hagrees⟩ := decodeSpoolRecord_agrees (V := V) tail.toReaderState hc h
    rcases result with e | _ | record
    · have heof : atEof ⟨m, p⟩ = atEof ⟨tail.mmap, p⟩ := by
        unfold atEof
        rw [hagrees.len]
      have hat : (withMmap tail m).mmap.bytes[(withMmap tail m).position]? =
        tail.mmap.bytes[tail.position]? := h.getElem?
      unfold parseLoop
      rw [hd, hd']
      simp only [heof, hat]
      split
      · exact ⟨rfl, h⟩
      · split
        · exact ⟨rfl, h⟩
        · exact ⟨rfl, h⟩
    · unfold parseLoop
      rw [hd, hd']
      exact ⟨rfl, h⟩
    · have hcommitWith := commitRecord_withMmap tail m record
      cases hcommit : tail.commitRecord record with
      | error e =>
        rw [hcommit] at hcommitWith
        unfold parseLoop
        rw [hd, hd']
        simp only [hcommit, hcommitWith, Except.map]
        exact ⟨trivial, h⟩
      | ok committed =>
        rw [hcommit] at hcommitWith
        rw [← commitRecord_mmap hcommit] at hvalid hagrees
        have hlen : m.len = committed.mmap.len := hagrees.len
        rw [parseLoop_next hd hcommit, parseLoop_next hd' hcommitWith]
        by_cases hstop : committed.samples.length = MAX_BATCH_SAMPLES ∨ endsBatch record = true
        · have hstop' : (withMmap committed m).samples.length = MAX_BATCH_SAMPLES ∨
            endsBatch record = true := hstop
          rw [if_pos hstop, if_pos hstop', ← hlen]
          exact ⟨rfl, hagrees⟩
        · have hstop' : ¬ ((withMmap committed m).samples.length = MAX_BATCH_SAMPLES ∨
            endsBatch record = true) := hstop
          rw [if_neg hstop, if_neg hstop']
          exact @ih { committed with position := p } hvalid hagrees

/-- The reader stands between the records `done` and the records `rest`, with a mapping
of the first `m` bytes. -/
structure Tailing (w : Written V) (m : ℕ) (tail : Tail) (done rest : List SpoolEntry) : Prop where
  entries : w.entries = done ++ rest
  before : Run (spoolFormat V) .initial w.start done tail.toReaderState ⟨w.mmap, tail.position⟩
  ahead : Run (spoolFormat V) tail.toReaderState ⟨w.mmap, tail.position⟩ rest w.after w.stop
  mapped : Agrees tail.cursor ⟨w.mmap.take m, tail.position⟩
  within : tail.position ≤ m
  boundary : m ∈ w.boundaries

namespace Written

variable (w : Written V)

theorem start_mmap : w.start.mmap = w.mmap ∧ w.start.Valid := Reading.header_valid w.reading.header

theorem boundary_le {m : ℕ} (h : m ∈ w.boundaries) : m ≤ w.mmap.len := by
  obtain ⟨hmmap, hvalid⟩ := start_mmap w
  obtain ⟨hstop, hstopValid⟩ := w.reading.scan.run.mmap_eq hvalid
  have hstart : w.start.position ≤ w.start.mmap.len := hvalid
  have hend : w.stop.position ≤ w.stop.mmap.len := hstopValid
  rw [hmmap] at hstart
  rw [hstop, hmmap] at hend
  rcases List.mem_cons.mp h with rfl | hmem
  · exact hstart
  · obtain ⟨entry, hentry, rfl⟩ := List.mem_map.mp hmem
    exact ((w.reading.scan.run.entry_bounds hvalid entry hentry).2.2).trans hend

theorem len_take {m : ℕ} (h : m ∈ w.boundaries) : (w.mmap.take m).len = m := by
  rw [Mmap.len_take]
  exact Nat.min_eq_left (boundary_le w h)

end Written

/-- The first record of a run. -/
theorem run_cons {s t : ReaderState} {d : Cursor} {entry : SpoolEntry} {entries : List SpoolEntry}
    (h : Run (spoolFormat V) s c (entry :: entries) t d) :
    ∃ c', (spoolFormat V).next s c = (.ok (entry.record, entry.after), c') ∧
      entry.stop = c'.position ∧ Run (spoolFormat V) entry.after c' entries t d := by
  cases h with
  | cons hnext hrun => exact ⟨_, hnext, rfl, hrun⟩

section

variable {w : Written V} {m : ℕ} {tail : Tail} {done rest : List SpoolEntry}

theorem Tailing.valid (h : Tailing w m tail done rest) :
    (⟨w.mmap.take m, tail.position⟩ : Cursor).Valid := by
  show tail.position ≤ (w.mmap.take m).len
  rw [Written.len_take w h.boundary]
  exact h.within

theorem extends_full (w : Written V) (m position : ℕ) :
    (⟨w.mmap.take m, position⟩ : Cursor).Extends ⟨w.mmap, position⟩ :=
  ⟨w.mmap.take_bytes m, rfl⟩

section

variable (h : Tailing w m tail done rest)

include h

theorem Tailing.tracked : Tracked tail.toReaderState ⟨w.mmap.take m, tail.position⟩ := by
  have htracked := tracked_run h.before (Written.start_mmap w).2
    ⟨wellFormed_initial, Nat.zero_le _⟩
  exact ⟨htracked.wellFormed, htracked.nodes_le⟩

/-- A record that starts inside the mapping ends inside it. -/
theorem Tailing.next_within (hlt : tail.position < m) :
    ∃ entry more, rest = entry :: more ∧ entry.stop ≤ m := by
  have hstart := h.before.position_le (Written.start_mmap w).2
  have hvalid : (⟨w.mmap, tail.position⟩ : Cursor).Valid :=
    (extends_full w m tail.position).valid h.valid
  have hmem := h.boundary
  unfold LiveSpool.Written.boundaries at hmem
  rw [h.entries, List.map_append] at hmem
  rcases List.mem_cons.mp hmem with heq | hmem
  · exact absurd (heq ▸ hstart) (Nat.not_le.mpr hlt)
  rcases List.mem_append.mp hmem with hmem | hmem
  · obtain ⟨entry, hentry, rfl⟩ := List.mem_map.mp hmem
    have hle := (h.before.entry_bounds (Written.start_mmap w).2 entry hentry).2.2
    exact absurd hle (Nat.not_le.mpr hlt)
  · obtain ⟨entry, hentry, rfl⟩ := List.mem_map.mp hmem
    have hahead := h.ahead
    cases rest with
    | nil => cases hentry
    | cons first more =>
      refine ⟨first, more, rfl, ?_⟩
      obtain ⟨c', hnext, hstop, hrun⟩ := run_cons hahead
      rcases List.mem_cons.mp hentry with rfl | hentry
      · exact Nat.le_refl _
      · have hbounds := hrun.entry_bounds (next_valid hvalid hnext) entry hentry
        rw [hstop]
        exact hbounds.1.trans hbounds.2.1.le

/-- Inside the mapping the scan does not stop. -/
theorem Tailing.not_halts (hlt : tail.position < m) {ending : Ending Stop}
    (hhalts : Halts (spoolFormat V) tail.toReaderState ⟨w.mmap.take m, tail.position⟩ ending) :
    False := by
  obtain ⟨entry, more, hrest, hstop⟩ := h.next_within hlt
  have hahead := h.ahead
  rw [hrest] at hahead
  obtain ⟨c', hnext, hend, -⟩ := run_cons hahead
  have hbeyond : (w.mmap.take m).len < c'.position :=
    hhalts.len_lt h.valid (extends_full w m tail.position) hnext
  rw [Written.len_take w h.boundary, ← hend] at hbeyond
  exact absurd hstop (Nat.not_le.mpr hbeyond)

/-- The samples of some records. -/
def samplesOf (entries : List SpoolEntry) : List SampleRecord :=
  entries.filterMap (·.record.sample?)

/-- What a pass leaves of the reader. -/
structure Passed (w : Written V) (m : ℕ) (tail tail' : Tail) (done rest : List SpoolEntry) :
    Prop where
  tailing : Tailing w m tail' done rest
  visibleLen : tail'.visibleLen = tail.visibleLen
  pending : tail'.initialSamplesPending = tail.initialSamplesPending

/-- A pass hands over the next records, at least one when the mapping holds one. -/
theorem Tailing.parse (hsamples : tail.samples.length < MAX_BATCH_SAMPLES) :
    ∃ more tail' group rest', parseAvailable V tail = (.ok more, tail') ∧ rest = group ++ rest' ∧
      Passed w m tail tail' (done ++ group) rest' ∧
      tail'.samples = tail.samples ++ samplesOf group ∧
      (tail.position < m → tail.position < tail'.position) := by
  -- the pass is followed on the mapping that still has all its pages
  have hlen : tail.mmap.len = (w.mmap.take m).len := h.mapped.len
  have hfuel : (w.mmap.take m).len - tail.position < tail.mmap.len + 1 := by omega
  have hghost : withMmap (withMmap tail (w.mmap.take m)) tail.mmap = tail := rfl
  have hvalidGhost : (withMmap tail (w.mmap.take m)).cursor.Valid := h.valid
  obtain ⟨group, hparsed⟩ := parseLoop_spec (V := V) hvalidGhost h.tracked hsamples hfuel
  obtain ⟨hloop, hagrees⟩ :=
    parseLoop_withMmap (V := V) (m := tail.mmap) (tail.mmap.len + 1) hvalidGhost h.mapped
  rw [hghost] at hloop
  generalize hresult : parseLoop V (tail.mmap.len + 1) (withMmap tail (w.mmap.take m)) = result
    at hparsed hloop hagrees
  obtain ⟨outcome, ghost⟩ := result
  have hadvances := hparsed.advances
  have hmmap : ghost.mmap = w.mmap.take m := hadvances.mmap
  have hcursor : ghost.cursor = ⟨w.mmap.take m, ghost.position⟩ := by
    show (⟨ghost.mmap, ghost.position⟩ : Cursor) = _
    rw [hmmap]
  have hrun : Run (spoolFormat V) tail.toReaderState ⟨w.mmap, tail.position⟩ group
      ghost.toReaderState ⟨w.mmap, ghost.position⟩ :=
    hparsed.run.extend h.valid (extends_full w m tail.position)
  have hvalid : (⟨w.mmap, tail.position⟩ : Cursor).Valid :=
    (extends_full w m tail.position).valid h.valid
  obtain ⟨rest', hrest, hahead⟩ := h.ahead.le_of_halts hvalid w.reading.scan.halts hrun
  have hwithin : ghost.position ≤ m := by
    have hle : ghost.cursor.Valid := hparsed.run.valid h.valid
    rw [hcursor] at hle
    have hle' : ghost.position ≤ (w.mmap.take m).len := hle
    rw [Written.len_take w h.boundary] at hle'
    exact hle'
  have htailing : Tailing w m (withMmap ghost tail.mmap) (done ++ group) rest' := by
    refine ⟨?_, h.before.append hrun, hahead, ?_, hwithin, h.boundary⟩
    · rw [h.entries, hrest, List.append_assoc]
    · rw [hcursor] at hagrees
      exact hagrees
  have hnothalts : ∀ ending, Halts (spoolFormat V) ghost.toReaderState ghost.cursor ending →
      ghost.position = m := by
    intro ending hhalts
    rw [hcursor] at hhalts
    rcases hwithin.lt_or_eq with hlt | heq
    · exact (htailing.not_halts hlt hhalts).elim
    · exact heq
  have hprogress : tail.position < m → group ≠ [] ∨ ghost.position = m →
      tail.position < ghost.position := by
    intro hlt hcase
    rcases hcase with hne | heq
    · have hlength := hrun.length_le hvalid
      have hpos : 0 < group.length := List.length_pos_of_ne_nil hne
      have hposition : tail.position + group.length ≤ ghost.position := hlength
      omega
    · omega
  have hpass : Passed w m tail (withMmap ghost tail.mmap) (done ++ group) rest' :=
    ⟨htailing, hadvances.visibleLen, hadvances.pending⟩
  cases hoc : hparsed.outcome with
  | full hne _ _ =>
    exact ⟨_, _, group, rest', hloop, hrest, hpass, hadvances.samples,
      fun hlt => hprogress hlt (.inl hne)⟩
  | drained hhalts _ =>
    exact ⟨_, _, group, rest', hloop, hrest, hpass, hadvances.samples,
      fun hlt => hprogress hlt (.inr (hnothalts _ hhalts))⟩
  | fault hhalts _ =>
    have hend := hnothalts _ hhalts
    have hlt : ghost.position < ghost.mmap.len := hhalts.1
    rw [hmmap, Written.len_take w h.boundary] at hlt
    omega

/-- The file holds the bytes up to `e`, as far as they are still to be read. -/
structure Holds (w : Written V) (file : Mmap) (e position : ℕ) : Prop where
  len : e ≤ file.len
  ahead : Agrees ⟨file.take e, position⟩ ⟨w.mmap.take e, position⟩

/-- Mapping the file up to a later published end. -/
theorem Tailing.remap (hvisible : tail.visibleLen = some e) (hfile : Holds w file e tail.position)
    (hle : m ≤ e) (hboundary : e ∈ w.boundaries) :
    ∃ mapped, remapIfGrown file tail = .ok (withMmap tail mapped) ∧
      Tailing w e (withMmap tail mapped) done rest := by
  have hlen : tail.mmap.len = m := h.mapped.len.trans (Written.len_take w h.boundary)
  have hend : tail.visibleLen.getD file.len = e := by rw [hvisible, Option.getD_some]
  unfold remapIfGrown
  rw [hend, hlen]
  rw [if_neg (Nat.not_lt.mpr hfile.len), if_neg (Nat.not_lt.mpr hle)]
  rcases hle.lt_or_eq with hlt | heq
  · rw [if_pos hlt]
    exact ⟨file.take e, rfl, h.entries, h.before, h.ahead, hfile.ahead, h.within.trans hle,
      hboundary⟩
  · rw [if_neg (heq ▸ Nat.lt_irrefl m)]
    exact ⟨tail.mmap, rfl, h.entries, h.before, h.ahead, heq ▸ h.mapped, h.within.trans hle,
      hboundary⟩

/-- The first poll hands out the records of the opening pass. -/
theorem Tailing.poll_initial (hvisible : tail.visibleLen = some e)
    (hfile : Holds w file e tail.position) (hle : m ≤ e) (hboundary : e ∈ w.boundaries)
    (hpending : tail.initialSamplesPending = true) :
    ∃ batch tail', TailReader.poll V file tail = (.ok batch, tail') ∧
      batch.samples = tail.samples ∧ Tailing w e tail' done rest ∧
      tail'.initialSamplesPending = false ∧ tail'.position = tail.position := by
  obtain ⟨mapped, hremap, htailing⟩ := h.remap hvisible hfile hle hboundary
  unfold TailReader.poll
  rw [hpending]
  simp only [if_true, hremap]
  exact ⟨_, _, rfl, rfl, ⟨htailing.entries, htailing.before, htailing.ahead, htailing.mapped,
    htailing.within, htailing.boundary⟩, rfl, rfl⟩

/-- A later poll hands out the next records, at least one when one is published. -/
theorem Tailing.poll_next (hvisible : tail.visibleLen = some e)
    (hfile : Holds w file e tail.position) (hle : m ≤ e) (hboundary : e ∈ w.boundaries)
    (hpending : tail.initialSamplesPending = false) :
    ∃ batch tail' group rest', TailReader.poll V file tail = (.ok batch, tail') ∧
      batch.samples = samplesOf group ∧ rest = group ++ rest' ∧
      Tailing w e tail' (done ++ group) rest' ∧ tail'.initialSamplesPending = false ∧
      (tail.position < e → tail.position < tail'.position) := by
  have hclear : Tailing w m tail.clearBatch done rest :=
    ⟨h.entries, h.before, h.ahead, h.mapped, h.within, h.boundary⟩
  obtain ⟨mapped, hremap, htailing⟩ := hclear.remap hvisible hfile hle hboundary
  obtain ⟨more, tail', group, rest', hparse, hrest, hpassed, hsamples, hprogress⟩ :=
    htailing.parse (show 0 < MAX_BATCH_SAMPLES by decide)
  have ht := hpassed.tailing
  refine ⟨({ tail' with moreAvailable := more } : Tail).batch tail.modules.length
    tail.frames.length, { tail' with moreAvailable := more }, group, rest', ?_, ?_, hrest,
    ⟨ht.entries, ht.before, ht.ahead, ht.mapped, ht.within, ht.boundary⟩,
    hpassed.pending.trans hpending, hprogress⟩
  · unfold TailReader.poll
    rw [hpending]
    simp only [Bool.false_eq_true, if_false, hremap, hparse]
  · show tail'.samples = samplesOf group
    rw [hsamples]
    exact List.nil_append _

end

end

/-- The header is read from every mapping that holds it. -/
theorem readHeader_take (w : Written V) {m : ℕ} (hm : m ∈ w.boundaries)
    (hstart : w.start.position ≤ m) :
    readHeader V ⟨w.mmap.take m, 0⟩ = (.ok w.header, ⟨w.mmap.take m, w.start.position⟩) := by
  have hstable := (readHeader_reads V).stable
  have hvalid := Reading.valid_zero (w.mmap.take m)
  have hext := extends_full w m 0
  have hfull := w.reading.header
  cases hshort : (readHeader V ⟨w.mmap.take m, 0⟩).1 with
  | error e =>
    cases heof : e.isEof with
    | false =>
      have hfault := hstable.fault _ _ e hvalid hext hshort heof
      rw [hfull] at hfault
      cases hfault
    | true =>
      have hbeyond := hstable.beyond _ _ e w.header hvalid hext hshort heof (by rw [hfull])
      rw [hfull] at hbeyond
      have hlong : (w.mmap.take m).len < w.start.position := hbeyond
      rw [Written.len_take w hm] at hlong
      omega
  | ok header =>
    have hdone := hstable.done _ _ header hvalid hext hshort
    rw [hfull] at hdone
    have hmmap := hstable.mmap_eq _ hvalid
    have hheader : header = w.header := by
      have hfst := congrArg Prod.fst hdone
      exact (Except.ok.inj hfst).symm
    have hposition : (readHeader V ⟨w.mmap.take m, 0⟩).2.position = w.start.position := by
      have hsnd := congrArg (fun r => r.2.position) hdone
      exact hsnd.symm
    rcases hread : readHeader V ⟨w.mmap.take m, 0⟩ with ⟨result, c⟩
    rw [hread] at hshort hmmap hposition
    obtain ⟨mmap, position⟩ := c
    have hresult : result = .ok w.header := hshort.trans (congrArg Except.ok hheader)
    have hcm : mmap = w.mmap.take m := hmmap
    have hcp : position = w.start.position := hposition
    rw [hresult, hcm, hcp]

/-- Opening the reader on a published prefix parses its first batch. -/
theorem open_tailing (w : Written V) {m flushed : ℕ} (hm : m ∈ w.boundaries)
    (hstart : w.start.position ≤ m) (hflushed : m ≤ flushed) :
    ∃ tail done rest, fromFileBounded V (w.mmap.take flushed) (some m) = .ok tail ∧
      Tailing w m tail done rest ∧ tail.initialSamplesPending = true ∧
      tail.visibleLen = some m ∧ tail.samples = samplesOf done := by
  have htake : (w.mmap.take flushed).take m = w.mmap.take m := by
    apply Mmap.ext_bytes
    show (w.mmap.bytes.take flushed).take m = w.mmap.bytes.take m
    rw [List.take_take, Nat.min_eq_left hflushed]
  obtain ⟨hmmap, hvalid⟩ := Written.start_mmap w
  have hcursor : w.start = ⟨w.mmap, w.start.position⟩ := by rw [← hmmap]
  have hrun := w.reading.scan.run
  rw [hcursor] at hrun
  have hopened : Tailing w m (.start (w.mmap.take m) (some m) w.header w.start.position) []
      w.entries := by
    refine ⟨rfl, ?_, hrun, ⟨rfl, rfl, rfl⟩, hstart, hm⟩
    have hnil := Run.nil (F := spoolFormat V) ReaderState.initial w.start
    have hsame : (⟨w.mmap, w.start.position⟩ : Cursor) = w.start := hcursor.symm
    show Run (spoolFormat V) .initial w.start [] .initial ⟨w.mmap, w.start.position⟩
    rw [hsame]
    exact hnil
  obtain ⟨more, tail, group, rest, hparse, hrest, hpassed, hsamples, -⟩ :=
    hopened.parse (show 0 < MAX_BATCH_SAMPLES by decide)
  have ht := hpassed.tailing
  refine ⟨{ tail with moreAvailable := more, kernelMappingsChanged := false }, group, rest, ?_,
    ⟨ht.entries, ht.before, ht.ahead, ht.mapped, ht.within, ht.boundary⟩, hpassed.pending,
    hpassed.visibleLen, ?_⟩
  · unfold fromFileBounded
    simp only [htake, readHeader_take w hm hstart, hparse]
  · show tail.samples = samplesOf group
    rw [hsamples]
    exact List.nil_append _

end StackPulse.LiveFollowing
