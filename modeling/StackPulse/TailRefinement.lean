import StackPulse.TailBatches

/-!
Following a growing file compared with reading it at once. The reader's
definitions are always those of a run of records from the header; polls extend
the run, a longer mapping leaves it as it is, and the batches cut it into groups.
-/
namespace StackPulse.TailRefinement

open Bytes Bytes.ByteReader Varint Model Decode ReaderFacts Records Scanning OpenSpool Safety
  TailReader TailBatches

variable {V : IntegerEncoding}

/-- A session over the file `B`: the reader is opened on a prefix, further bytes
become visible, and polls return batches or errors. -/
inductive Session (V : IntegerEncoding) (B : Mmap) :
    ℕ → Tail → List (Except Stop TailBatch) → Prop
  | start {n : ℕ} {tail : Tail} : openTail V (B.take n) = .ok tail → Session V B n tail []
  | reveal {n n' : ℕ} {tail : Tail} {results : List (Except Stop TailBatch)} :
      Session V B n tail results → n ≤ n' → Session V B n' tail results
  | poll {n : ℕ} {tail : Tail} {results : List (Except Stop TailBatch)} :
      Session V B n tail results →
        Session V B n (poll V (B.take n) tail).2 (results ++ [(poll V (B.take n) tail).1])

/-- A batch hands out the samples of a group of records. At most the last of them
deactivates modules. -/
structure IsBatch (batch : TailBatch) (group : List SpoolEntry) : Prop where
  samples : batch.samples = group.filterMap (·.record.sample?)
  bounded : batch.samples.length ≤ MAX_BATCH_SAMPLES
  ending : ∀ entry ∈ group.dropLast, endsBatch entry.record = false

/-- The reader has committed these records of the visible part of `B`. -/
structure Follows (V : IntegerEncoding) (B : Mmap) (n : ℕ) (tail : Tail)
    (entries : List SpoolEntry) : Prop where
  unbounded : tail.visibleLen = none
  mapped : ∃ m, m ≤ n ∧ tail.mmap = B.take m
  run : ∃ c, readHeader V ⟨tail.mmap, 0⟩ = (.ok tail.header, c) ∧
    Run (spoolFormat V) .initial c entries tail.toReaderState tail.cursor

/-- No complete record follows. -/
def Drained (V : IntegerEncoding) (tail : Tail) : Prop :=
  ∃ ending : Ending Stop, Halts (spoolFormat V) tail.toReaderState tail.cursor ending ∧
    ending.isFault = false

/-- A wrong record follows. -/
def Stuck (V : IntegerEncoding) (tail : Tail) : Prop :=
  ∃ e, Halts (spoolFormat V) tail.toReaderState tail.cursor (.fault e)

variable {B : Mmap} {n : ℕ} {tail : Tail} {entries : List SpoolEntry}

theorem take_extends (B : Mmap) {m : ℕ} (h : m ≤ n) (position : ℕ) :
    (⟨B.take m, position⟩ : Cursor).Extends ⟨B.take n, position⟩ :=
  ⟨List.take_prefix_take_left h, rfl⟩

theorem take_eq_of_len {m : ℕ} (h : m ≤ n) (hlen : (B.take n).len ≤ (B.take m).len) :
    B.take m = B.take n := by
  apply Mmap.ext_bytes
  apply (List.take_prefix_take_left h).eq_of_length
  have hle : (B.take m).len ≤ (B.take n).len := (List.take_prefix_take_left h).length_le
  exact Nat.le_antisymm hle hlen

namespace Follows

section

variable (h : Follows V B n tail entries)

include h

theorem mono {n' : ℕ} (hle : n ≤ n') : Follows V B n' tail entries := by
  obtain ⟨m, hm, hmmap⟩ := h.mapped
  exact ⟨h.unbounded, ⟨m, by omega, hmmap⟩, h.run⟩

theorem valid : tail.cursor.Valid := by
  obtain ⟨c, hheader, hrun⟩ := h.run
  exact hrun.valid (Reading.header_valid hheader).2

theorem tracked : Tracked tail.toReaderState tail.cursor := by
  obtain ⟨c, hheader, hrun⟩ := h.run
  refine tracked_run hrun (Reading.header_valid hheader).2 ⟨wellFormed_initial, ?_⟩
  exact Nat.zero_le _

theorem cursor_extends : tail.cursor.Extends ({ tail with mmap := B.take n } : Tail).cursor := by
  obtain ⟨m, hm, hmmap⟩ := h.mapped
  have hext := take_extends B hm tail.position
  rw [← hmmap] at hext
  exact hext

/-- A longer mapping leaves the committed records as they are. -/
theorem remap : Follows V B n { tail with mmap := B.take n } entries := by
  obtain ⟨m, hm, hmmap⟩ := h.mapped
  obtain ⟨c, hheader, hrun⟩ := h.run
  obtain ⟨hcmmap, hc⟩ := Reading.header_valid hheader
  have hext : (⟨tail.mmap, 0⟩ : Cursor).Extends ⟨B.take n, 0⟩ := by
    rw [hmmap]
    exact take_extends B hm 0
  have hheader' := (readHeader_reads V).stable.done _ _ tail.header
    (Reading.valid_zero tail.mmap) hext
    (by rw [hheader])
  rw [hheader] at hheader'
  refine ⟨h.unbounded, ⟨n, Nat.le_refl n, rfl⟩, ⟨B.take n, c.position⟩, hheader', ?_⟩
  have hext' : c.Extends ⟨B.take n, c.position⟩ := by
    refine ⟨?_, rfl⟩
    rw [hcmmap]
    exact hext.bytes
  exact hrun.extend hc hext'

/-- Mapping the file again finds at least the bytes mapped before. -/
theorem remapIfGrown_eq : remapIfGrown (B.take n) tail = .ok { tail with mmap := B.take n } := by
  obtain ⟨m, hm, hmmap⟩ := h.mapped
  have hle : tail.mmap.len ≤ (B.take n).len := by
    rw [hmmap]
    exact (take_extends B hm 0).len_le
  have htake : (B.take n).take (B.take n).len = B.take n := Mmap.ext_bytes (List.take_length)
  have hfile : tail.visibleLen.getD (B.take n).len = (B.take n).len := by
    rw [h.unbounded]
    rfl
  unfold remapIfGrown
  simp only [hfile]
  rw [if_neg (Nat.lt_irrefl _), if_neg (Nat.not_lt.mpr hle), htake]
  by_cases hgrown : tail.mmap.len < (B.take n).len
  · rw [if_pos hgrown]
  · rw [if_neg hgrown]
    have hsame : tail.mmap = B.take n := by
      rw [hmmap] at hgrown ⊢
      exact take_eq_of_len hm (Nat.not_lt.mp hgrown)
    rw [← hsame]

/-- Where the reader follows, it is on the scan of the visible part. -/
theorem scan_of_halts {ending : Ending Stop} (hmmap : tail.mmap = B.take n)
    (hhalts : Halts (spoolFormat V) tail.toReaderState tail.cursor ending) :
    ∃ c, Reading V (B.take n) tail.header c entries tail.toReaderState tail.cursor ending := by
  obtain ⟨c, hheader, hrun⟩ := h.run
  rw [hmmap] at hheader
  exact ⟨c, hheader, hrun, hhalts⟩

end

end Follows

theorem Stuck.remap (h : Stuck V tail) (hfollows : Follows V B n tail entries) :
    Stuck V { tail with mmap := B.take n } := by
  obtain ⟨e, hhalts⟩ := h
  exact ⟨e, hhalts.fault_extends hfollows.valid hfollows.cursor_extends⟩

theorem Drained.not_stuck (h : Drained V tail) : ¬ Stuck V tail := by
  rintro ⟨e, hstuck⟩
  obtain ⟨ending, hhalts, hending⟩ := h
  rcases ending with _ | _ | e'
  · have hend : tail.position = tail.mmap.len := hhalts
    have hlt : tail.position < tail.mmap.len := hstuck.1
    omega
  · obtain ⟨-, e', he', heof'⟩ := hhalts
    obtain ⟨-, he, heof⟩ := hstuck
    rw [he] at he'
    cases he'
    rw [heof] at heof'
    cases heof'
  · cases hending

theorem parse_follows (h : Follows V B n tail entries)
    (hsamples : tail.samples.length < MAX_BATCH_SAMPLES) :
    ∃ group, Parsed V tail (parseAvailable V tail).1 (parseAvailable V tail).2 group ∧
      Follows V B n (parseAvailable V tail).2 (entries ++ group) := by
  have hfuel : tail.mmap.len - tail.position < tail.mmap.len + 1 := by omega
  obtain ⟨group, hparsed⟩ := parseLoop_spec (V := V) h.valid h.tracked hsamples hfuel
  obtain ⟨m, hm, hmmap⟩ := h.mapped
  obtain ⟨c, hheader, hrun⟩ := h.run
  have hadvances := hparsed.advances
  refine ⟨group, hparsed, hadvances.visibleLen.trans h.unbounded,
    ⟨m, hm, hadvances.mmap.trans hmmap⟩, c, ?_, hrun.append hparsed.run⟩
  show readHeader V ⟨(parseLoop V (tail.mmap.len + 1) tail).2.mmap, 0⟩ =
    (.ok (parseLoop V (tail.mmap.len + 1) tail).2.header, c)
  rw [hadvances.mmap, hadvances.header]
  exact hheader

/-- A pass that leaves nothing behind has seen every complete record. -/
theorem drained_of_outcome {group : List SpoolEntry} {more : Bool} (hc : tail.cursor.Valid)
    (h : Outcome V tail group (.ok more)) (hnone : more = false ∨ group = []) : Drained V tail := by
  rcases h with ⟨hne, _, hmore⟩ | ⟨hhalts, hfault⟩
  · rcases hnone with hfalse | hnil
    · have hend : ¬ tail.position < tail.mmap.len :=
        of_decide_eq_false (hmore.symm.trans hfalse)
      have hle : tail.position ≤ tail.mmap.len := hc
      have hcomplete : Halts (spoolFormat V) tail.toReaderState tail.cursor .complete := by
        show tail.position = tail.mmap.len
        omega
      exact ⟨.complete, hcomplete, rfl⟩
    · exact absurd hnil hne
  · exact ⟨_, hhalts, hfault⟩

/-- What a poll does once the records of the opening pass are handed out. -/
inductive Polled (V : IntegerEncoding) (tail : Tail) (group : List SpoolEntry) :
    Except Stop TailBatch → Prop
  | batch {batch : TailBatch} :
      batch.tail = tail → IsBatch batch group →
      (batch.hasMore = false ∨ group = [] → Drained V tail) → Polled V tail group (.ok batch)
  | error {e : Stop} : Stuck V tail → Polled V tail group (.error e)

theorem poll_live (h : Follows V B n tail entries)
    (hpending : tail.initialSamplesPending = false) :
    ∃ group, Run (spoolFormat V) tail.toReaderState ⟨B.take n, tail.position⟩ group
        (poll V (B.take n) tail).2.toReaderState (poll V (B.take n) tail).2.cursor ∧
      Follows V B n (poll V (B.take n) tail).2 (entries ++ group) ∧
      (poll V (B.take n) tail).2.mmap = B.take n ∧
      (poll V (B.take n) tail).2.initialSamplesPending = false ∧
      Polled V (poll V (B.take n) tail).2 group (poll V (B.take n) tail).1 := by
  have hclear : Follows V B n tail.clearBatch entries := ⟨h.unbounded, h.mapped, h.run⟩
  obtain ⟨group, hparsed, hfollows⟩ :=
    parse_follows hclear.remap (by show 0 < MAX_BATCH_SAMPLES; decide)
  rcases hresult : parseAvailable V { tail.clearBatch with mmap := B.take n } with
    ⟨e | more, parsed⟩
  · have hpoll : poll V (B.take n) tail = (.error e, parsed) := by
      unfold poll
      rw [hpending]
      simp only [Bool.false_eq_true, if_false, hclear.remapIfGrown_eq, hresult]
    rw [hresult] at hparsed hfollows
    rw [hpoll]
    refine ⟨group, hparsed.run, hfollows, hparsed.advances.mmap,
      hparsed.advances.pending.trans hpending, ?_⟩
    rcases hparsed.outcome with _ | _ | ⟨hhalts, _⟩
    exact .error ⟨_, hhalts⟩
  · have hpoll : poll V (B.take n) tail =
        (.ok (({ parsed with moreAvailable := more } : Tail).batch tail.modules.length
          tail.frames.length), { parsed with moreAvailable := more }) := by
      unfold poll
      rw [hpending]
      simp only [Bool.false_eq_true, if_false, hclear.remapIfGrown_eq, hresult]
    rw [hresult] at hparsed hfollows
    rw [hpoll]
    refine ⟨group, hparsed.run, ⟨hfollows.unbounded, hfollows.mapped, hfollows.run⟩,
      hparsed.advances.mmap, hparsed.advances.pending.trans hpending, .batch rfl ?_ ?_⟩
    · exact ⟨hparsed.advances.samples, hparsed.bounded, hparsed.ending⟩
    · intro hnone
      have hdrained : Drained V parsed := drained_of_outcome hfollows.valid hparsed.outcome hnone
      exact hdrained

/-- The first poll hands out the records of the opening pass. -/
theorem poll_pending (h : Follows V B n tail entries)
    (hpending : tail.initialSamplesPending = true) :
    poll V (B.take n) tail =
      (.ok (({ tail with
          mmap := B.take n
          moreAvailable := tail.moreAvailable || decide (tail.mmap.len < (B.take n).len)
          initialSamplesPending := false } : Tail).batch tail.modules.length tail.frames.length),
        { tail with
          mmap := B.take n
          moreAvailable := tail.moreAvailable || decide (tail.mmap.len < (B.take n).len)
          initialSamplesPending := false }) := by
  unfold poll
  rw [hpending]
  simp only [if_true, h.remapIfGrown_eq]

/-- The states of a session: nothing handed out yet, batches so far, or errors
ever since a wrong record was reached. -/
inductive Condition (V : IntegerEncoding) (B : Mmap) (n : ℕ) (tail : Tail) :
    List (Except Stop TailBatch) → Prop
  | pending {group : List SpoolEntry} :
      Follows V B n tail group → tail.initialSamplesPending = true →
      IsBatch (tail.batch 0 0) group → (tail.moreAvailable = false → Drained V tail) →
        Condition V B n tail []
  | live {batches : List TailBatch} {groups : List (List SpoolEntry)} :
      Follows V B n tail groups.flatten → tail.initialSamplesPending = false →
      List.Forall₂ IsBatch batches groups → Condition V B n tail (batches.map .ok)
  | stuck {batches : List TailBatch} {groups : List (List SpoolEntry)}
      {rest : List SpoolEntry} {errors : List Stop} :
      Follows V B n tail (groups.flatten ++ rest) → tail.initialSamplesPending = false →
      List.Forall₂ IsBatch batches groups → Stuck V tail → errors ≠ [] →
        Condition V B n tail (batches.map .ok ++ errors.map .error)

/-- A reader in front of a wrong record reports it again. -/
theorem poll_stuck (h : Follows V B n tail entries)
    (hpending : tail.initialSamplesPending = false) (hstuck : Stuck V tail) :
    ∃ e, (poll V (B.take n) tail).1 = .error e ∧
      Follows V B n (poll V (B.take n) tail).2 entries ∧
      (poll V (B.take n) tail).2.initialSamplesPending = false ∧
      Stuck V (poll V (B.take n) tail).2 := by
  obtain ⟨group, hrun, hfollows, hmmap, hpending', hpolled⟩ := poll_live h hpending
  obtain ⟨e, hhalts⟩ := hstuck.remap h
  obtain ⟨hnil, hstate, hcursor⟩ := hrun.of_halts h.remap.valid hhalts
  rw [hnil, List.append_nil] at hfollows
  have hstuck' : Stuck V (poll V (B.take n) tail).2 := by
    unfold Stuck
    rw [hstate, hcursor]
    exact ⟨e, hhalts⟩
  generalize (poll V (B.take n) tail).1 = result at hpolled
  rcases hpolled with ⟨_, _, hdrained⟩ | _
  · exact absurd hstuck' (hdrained (.inr hnil)).not_stuck
  · exact ⟨_, rfl, hfollows, hpending', hstuck'⟩

/-- A reader right after it was opened: it has parsed its first batch. -/
structure Opened (V : IntegerEncoding) (B : Mmap) (n : ℕ) (tail : Tail)
    (group : List SpoolEntry) : Prop where
  follows : Follows V B n tail group
  mmap : tail.mmap = B.take n
  pending : tail.initialSamplesPending = true
  batch : IsBatch (tail.batch 0 0) group
  drained : tail.moreAvailable = false → Drained V tail
  stop : Drained V tail ∨ Full tail group

/-- Behind the header nothing is committed yet. -/
theorem follows_start {header : SpoolHeader} {c : Cursor}
    (hheader : readHeader V ⟨B.take n, 0⟩ = (.ok header, c)) :
    Follows V B n (.start (B.take n) none header c.position) [] := by
  refine ⟨rfl, ⟨n, Nat.le_refl n, rfl⟩, c, hheader, ?_⟩
  have hcursor : (Tail.start (B.take n) none header c.position).cursor = c := by
    show (⟨B.take n, c.position⟩ : Cursor) = c
    rw [← (Reading.header_valid hheader).1]
  rw [hcursor]
  exact .nil _ _

/-- Opening parses a first batch, or meets a wrong record. -/
theorem open_cases {header : SpoolHeader} {c : Cursor}
    (hheader : readHeader V ⟨B.take n, 0⟩ = (.ok header, c)) :
    (∃ tail group, openTail V (B.take n) = .ok tail ∧ Opened V B n tail group) ∨
      ∃ e entries t d f, openTail V (B.take n) = .error e ∧
        Reading V (B.take n) header c entries t d (.fault f) ∧
        (entries.filterMap (·.record.sample?)).length < MAX_BATCH_SAMPLES ∧
        ∀ entry ∈ entries, endsBatch entry.record = false := by
  obtain ⟨group, hparsed, hfollows⟩ :=
    parse_follows (follows_start hheader) (by show 0 < MAX_BATCH_SAMPLES; decide)
  rw [List.nil_append] at hfollows
  rcases hresult : parseAvailable V (.start (B.take n) none header c.position) with
    ⟨e | more, parsed⟩
  · rw [hresult] at hparsed hfollows
    have hopen : openTail V (B.take n) = .error e := by
      unfold openTail fromFileBounded
      simp only [hheader, hresult]
    rcases hparsed.outcome with _ | _ | ⟨hhalts, hopen'⟩
    obtain ⟨c', hreading⟩ := hfollows.scan_of_halts hparsed.advances.mmap hhalts
    have hsame : ((.ok parsed.header, c') : Except Stop SpoolHeader × Cursor) = (.ok header, c) :=
      hreading.header.symm.trans hheader
    cases hsame
    obtain ⟨hcount, hends⟩ := not_or.mp hopen'
    have hsamples : parsed.samples = group.filterMap (·.record.sample?) := hparsed.advances.samples
    have hbounded : parsed.samples.length ≤ MAX_BATCH_SAMPLES := hparsed.bounded
    refine .inr ⟨e, _, _, _, _, hopen, hreading, ?_, ?_⟩
    · rw [← hsamples]
      exact lt_of_le_of_ne hbounded hcount
    · intro entry hentry
      exact Bool.eq_false_iff.mpr fun hend => hends ⟨entry, hentry, hend⟩
  · rw [hresult] at hparsed hfollows
    have hopen : openTail V (B.take n) =
        .ok { parsed with moreAvailable := more, kernelMappingsChanged := false } := by
      unfold openTail fromFileBounded
      simp only [hheader, hresult]
    refine .inl ⟨_, group, hopen, ⟨hfollows.unbounded, hfollows.mapped, hfollows.run⟩,
      hparsed.advances.mmap, hparsed.advances.pending, ?_, ?_, ?_⟩
    · exact ⟨hparsed.advances.samples, hparsed.bounded, hparsed.ending⟩
    · intro hmore
      have hdrained : Drained V parsed :=
        drained_of_outcome hfollows.valid hparsed.outcome (.inl hmore)
      exact hdrained
    · rcases hparsed.outcome with ⟨_, hfull, _⟩ | ⟨hhalts, hfault⟩
      · exact .inr hfull
      · exact .inl ⟨_, hhalts, hfault⟩

/-- A reader can only be opened on a complete header. -/
theorem header_of_open (h : openTail V (B.take n) = .ok tail) :
    ∃ header c, readHeader V ⟨B.take n, 0⟩ = (.ok header, c) := by
  rcases hheader : readHeader V ⟨B.take n, 0⟩ with ⟨e | header, c⟩
  · unfold openTail fromFileBounded at h
    simp only [hheader] at h
    cases h
  · exact ⟨header, c, rfl⟩

theorem condition_pending {group : List SpoolEntry} (hfollows : Follows V B n tail group)
    (hpending : tail.initialSamplesPending = true) (hbatch : IsBatch (tail.batch 0 0) group) :
    Condition V B n (poll V (B.take n) tail).2 [(poll V (B.take n) tail).1] := by
  rw [poll_pending hfollows hpending]
  have hremap := hfollows.remap
  have hgroups : List.Forall₂ IsBatch
      [({ tail with
          mmap := B.take n
          moreAvailable := tail.moreAvailable || decide (tail.mmap.len < (B.take n).len)
          initialSamplesPending := false } : Tail).batch tail.modules.length tail.frames.length]
      [group] := by
    refine .cons ?_ .nil
    exact ⟨hbatch.samples, hbatch.bounded, hbatch.ending⟩
  refine .live ?_ rfl hgroups
  rw [List.flatten_singleton]
  exact ⟨hremap.unbounded, hremap.mapped, hremap.run⟩

theorem condition_live {batches : List TailBatch} {groups : List (List SpoolEntry)}
    (hfollows : Follows V B n tail groups.flatten)
    (hpending : tail.initialSamplesPending = false)
    (hbatches : List.Forall₂ IsBatch batches groups) :
    Condition V B n (poll V (B.take n) tail).2
      (batches.map .ok ++ [(poll V (B.take n) tail).1]) := by
  obtain ⟨group, -, hfollows', -, hpending', hpolled⟩ := poll_live hfollows hpending
  generalize (poll V (B.take n) tail).1 = result at hpolled ⊢
  rcases hpolled with @⟨batch, _, hbatch, _⟩ | @⟨e, hstuck⟩
  · have hall : List.Forall₂ IsBatch (batches ++ [batch]) (groups ++ [group]) :=
      List.rel_append hbatches (.cons hbatch .nil)
    have hflat : (groups ++ [group]).flatten = groups.flatten ++ group := by simp
    rw [← hflat] at hfollows'
    have hlive := Condition.live hfollows' hpending' hall
    rw [List.map_append] at hlive
    exact hlive
  · exact .stuck hfollows' hpending' hbatches hstuck (List.cons_ne_nil e [])

theorem condition_of_session {results : List (Except Stop TailBatch)}
    (h : Session V B n tail results) : Condition V B n tail results := by
  induction h with
  | start hopen =>
    obtain ⟨header, c, hheader⟩ := header_of_open hopen
    rcases open_cases hheader with ⟨tail, group, hopen', hopened⟩ | ⟨e, _, _, _, _, hopen', _⟩
    · rw [hopen] at hopen'
      cases hopen'
      exact .pending hopened.follows hopened.pending hopened.batch hopened.drained
    · rw [hopen] at hopen'
      cases hopen'
  | reveal _ hle ih =>
    rcases ih with ⟨hfollows, hpending, hbatch, hmore⟩ | ⟨hfollows, hpending, hbatches⟩ |
      ⟨hfollows, hpending, hbatches, hstuck, herrors⟩
    · exact .pending (hfollows.mono hle) hpending hbatch hmore
    · exact .live (hfollows.mono hle) hpending hbatches
    · exact .stuck (hfollows.mono hle) hpending hbatches hstuck herrors
  | @poll n tail results hsession ih =>
    rcases ih with ⟨hfollows, hpending, hbatch, _⟩ | ⟨hfollows, hpending, hbatches⟩ |
      @⟨batches, groups, rest, errors, hfollows, hpending, hbatches, hstuck, herrors⟩
    · exact condition_pending hfollows hpending hbatch
    · exact condition_live hfollows hpending hbatches
    · obtain ⟨e, herror, hfollows', hpending', hstuck'⟩ := poll_stuck hfollows hpending hstuck
      have hnext := Condition.stuck hfollows' hpending' hbatches hstuck'
        (List.append_ne_nil_of_left_ne_nil herrors [e])
      rw [List.map_append, ← List.append_assoc] at hnext
      rw [herror]
      exact hnext

end StackPulse.TailRefinement
