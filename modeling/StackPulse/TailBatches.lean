import StackPulse.Safety
import StackPulse.TailReader

/-!
What one pass over the visible records does. It commits a run of records, stops
behind the record that fills or ends the batch or where no complete record
follows, and reports a fault of the file as an error.
-/
namespace StackPulse.TailBatches

open Bytes Bytes.ByteReader Varint Model SpoolCursor ContextFacts ReaderFacts Records Scanning
  OpenSpool Safety TailReader

variable {V : IntegerEncoding} {tail : Tail} {record : DecodedSpoolRecord} {t s : ReaderState}
  {c : Cursor}

/-- `tail'` is `tail` with further records committed and their samples appended. -/
structure Advances (tail tail' : Tail) (samples : List SampleRecord) : Prop where
  samples : tail'.samples = tail.samples ++ samples
  mmap : tail'.mmap = tail.mmap
  visibleLen : tail'.visibleLen = tail.visibleLen
  header : tail'.header = tail.header
  pending : tail'.initialSamplesPending = tail.initialSamplesPending

theorem Advances.trans {tail' tail'' : Tail} {samples samples' : List SampleRecord}
    (h : Advances tail tail' samples) (h' : Advances tail' tail'' samples') :
    Advances tail tail'' (samples ++ samples') where
  samples := by rw [h'.samples, h.samples, List.append_assoc]
  mmap := h'.mmap.trans h.mmap
  visibleLen := h'.visibleLen.trans h.visibleLen
  header := h'.header.trans h.header
  pending := h'.pending.trans h.pending

/-- Noting a process touches the list of processes only. -/
theorem observeProcess_advances (tail : Tail) (process : Pid) :
    (tail.observeProcess process).toReaderState = tail.toReaderState ∧
      Advances tail (tail.observeProcess process) [] := by
  unfold Tail.observeProcess
  split
  · exact ⟨rfl, (List.append_nil _).symm, rfl, rfl, rfl, rfl⟩
  · exact ⟨rfl, (List.append_nil _).symm, rfl, rfl, rfl, rfl⟩

theorem observeOption_advances (tail : Tail) (process : Option Pid) :
    (tail.observeOption process).toReaderState = tail.toReaderState ∧
      Advances tail (tail.observeOption process) [] := by
  rcases process with _ | process
  · exact ⟨rfl, (List.append_nil _).symm, rfl, rfl, rfl, rfl⟩
  · exact observeProcess_advances tail process

theorem mapM_moduleAt (tail : Tail) {indices : List ℕ}
    (h : ∀ index ∈ indices, index < tail.modules.length) :
    ∃ modules, indices.mapM tail.moduleAt = .ok modules := by
  induction indices with
  | nil => exact ⟨[], rfl⟩
  | cons index indices ih =>
    obtain ⟨modules, hmodules⟩ := ih fun i hi => h i (.tail _ hi)
    have hlt := h index (.head _)
    have hat : tail.moduleAt index = .ok tail.modules[index] := by
      unfold Tail.moduleAt
      rw [List.getElem?_eq_getElem hlt]
    refine ⟨tail.modules[index] :: modules, ?_⟩
    rw [List.mapM_cons, hat, hmodules]
    rfl

/-- What a record does to a tail: the definitions after it, what it retires, the process it names
and the sample it carries. -/
structure Change where
  state : ReaderState
  retired : List UInt32 := []
  kernel : Bool := false
  process : Option Pid := none
  samples : List SampleRecord := []
  processes : List Pid := []

def changeOf (tail : Tail) : DecodedSpoolRecord → Except Stop Change
  | .module module =>
      .ok { state := tail.pushModule module, kernel := module.isKernel, process := module.pid }
  | .frame frame => .ok { state := tail.pushFrame frame }
  | .stack node => .ok { state := tail.pushStack node }
  | .thread thread => .ok { state := tail.pushThread thread }
  | .sample sample =>
      .ok { state := { tail.toReaderState with lastTimestampNs := sample.timestampNs }
            process := some sample.processId, samples := [sample] }
  | .pythonRuntime record => .ok { state := tail.toReaderState, process := some record.processId }
  | .deactivateProcess processId => do
      let (deactivated, state) ← tail.toReaderState.deactivateProcess processId
      let retired ← deactivated.mapM tail.moduleAt
      return { state := state, retired := retired.map ModuleRecord.id, process := some processId
               processes := [processId] }
  | .deactivateModule moduleId => do
      let module ← tail.moduleAt moduleId
      let state ← tail.toReaderState.deactivateModule moduleId
      return { state := state, retired := [module.id], kernel := module.isKernel
               process := module.pid }

def applyChange (tail : Tail) (change : Change) : Tail :=
  let noted := { tail with
    toReaderState := change.state
    retiredModules := tail.retiredModules ++ change.retired
    kernelMappingsChanged := tail.kernelMappingsChanged || change.kernel }.observeOption
      change.process
  { noted with
    samples := noted.samples ++ change.samples
    retiredProcesses := noted.retiredProcesses ++ change.processes }

/-- Committing a record is making its change. -/
theorem commitRecord_eq_change (tail : Tail) (record : DecodedSpoolRecord) :
    tail.commitRecord record = (changeOf tail record).map (applyChange tail) := by
  unfold applyChange
  cases record with
  | module module => simp only [changeOf, Except.map, List.append_nil]; rfl
  | deactivateProcess processId =>
    unfold Tail.commitRecord changeOf
    cases hprocess : tail.toReaderState.deactivateProcess processId with
    | error e => simp only [hprocess, bind, Except.bind, Except.map]
    | ok deactivated =>
      cases hretired : deactivated.1.mapM tail.moduleAt with
      | error e => simp only [hprocess, hretired, bind, Except.bind, Except.map]
      | ok retired =>
        simp only [hprocess, hretired, bind, Except.bind, pure, Except.pure, Except.map,
          List.append_nil, Bool.or_false]
        rfl
  | deactivateModule moduleId =>
    unfold Tail.commitRecord changeOf
    cases hat : tail.moduleAt moduleId with
    | error e => simp only [hat, bind, Except.bind, Except.map]
    | ok module =>
      cases hmodule : tail.toReaderState.deactivateModule moduleId with
      | error e => simp only [hat, hmodule, bind, Except.bind, Except.map]
      | ok state =>
        simp only [hat, hmodule, bind, Except.bind, pure, Except.pure, Except.map, List.append_nil]
  | _ =>
    simp only [changeOf, Except.map, List.append_nil, Bool.or_false]
    rfl

theorem applyChange_advances (tail : Tail) (change : Change) :
    (applyChange tail change).toReaderState = change.state ∧
      Advances tail (applyChange tail change) change.samples := by
  obtain ⟨hstate, hadvances⟩ := observeOption_advances { tail with
    toReaderState := change.state
    retiredModules := tail.retiredModules ++ change.retired
    kernelMappingsChanged := tail.kernelMappingsChanged || change.kernel } change.process
  refine ⟨hstate, ?_, hadvances.mmap, hadvances.visibleLen, hadvances.header, hadvances.pending⟩
  have hsamples := hadvances.samples
  rw [List.append_nil] at hsamples
  exact congrArg (· ++ change.samples) hsamples

/-- The change of an accepted record is the one of the format. -/
theorem changeOf_accepted (hs : WellFormed tail.toReaderState)
    (haccept : Accepts tail.toReaderState record) (h : tail.toReaderState.commit record = .ok t) :
    ∃ change, changeOf tail record = .ok change ∧ change.state = t ∧
      change.samples = record.sample?.toList := by
  rcases record with module | frame | node | thread | sample | runtime | processId | moduleId
  iterate 6
    · cases h
      exact ⟨_, rfl, rfl, rfl⟩
  · obtain ⟨deactivated, contexts, hdeactivate, -⟩ :=
      hs.contexts.deactivateOwner (.process processId) tail.frames.length
    have hprocess : tail.toReaderState.deactivateProcess processId =
        .ok (deactivated, { tail.toReaderState with frameContexts := contexts }) := by
      unfold ReaderState.deactivateProcess
      rw [hdeactivate]
      rfl
    obtain ⟨modules, hmodules⟩ := mapM_moduleAt tail fun index hindex => by
      obtain ⟨m, hm, -⟩ := mem_ownedBy.mp (hs.contexts.deactivateOwner_subset hdeactivate hindex)
      exact (List.getElem?_eq_some_iff.mp hm).1
    change (·.2) <$> tail.toReaderState.deactivateProcess processId = .ok t at h
    rw [hprocess] at h
    cases h
    unfold changeOf
    simp only [hprocess, hmodules, bind, Except.bind]
    exact ⟨_, rfl, rfl, rfl⟩
  · obtain ⟨wasActive, contexts, hdeactivate, -⟩ :=
      hs.contexts.deactivateModule tail.frames.length haccept
    have hlt : moduleId < tail.modules.length := haccept
    have hat : tail.moduleAt moduleId = .ok tail.modules[moduleId] := by
      unfold Tail.moduleAt
      rw [List.getElem?_eq_getElem hlt]
    change tail.toReaderState.deactivateModule moduleId = .ok t at h
    unfold changeOf
    simp only [h, hat, bind, Except.bind]
    exact ⟨_, rfl, rfl, rfl⟩

/-- An accepted record is committed as the format says. -/
theorem commitRecord_eq (hs : WellFormed tail.toReaderState)
    (haccept : Accepts tail.toReaderState record) (h : tail.toReaderState.commit record = .ok t) :
    ∃ tail', tail.commitRecord record = .ok tail' ∧ tail'.toReaderState = t ∧
      Advances tail tail' record.sample?.toList := by
  obtain ⟨change, hchange, rfl, hsamples⟩ := changeOf_accepted hs haccept h
  obtain ⟨hstate, hadvances⟩ := applyChange_advances tail change
  rw [commitRecord_eq_change, hchange]
  exact ⟨_, rfl, hstate, hsamples ▸ hadvances⟩

theorem decode_of_next {d : Cursor} (hc : c.Valid)
    (h : (spoolFormat V).next s c = (.ok (record, t), d)) :
    decodeSpoolRecord V s c = (.ok (some record), d) := by
  obtain ⟨tag, htag, hdecode, -⟩ := next_parts hc h
  refine (bind_of_ok htag).trans ?_
  exact bind_of_ok hdecode

theorem decode_complete (h : c.position = c.mmap.len) :
    decodeSpoolRecord V s c = (.ok none, c) := by
  have htag : readTag c = (.ok none, c) := if_pos h
  exact bind_of_ok htag

/-- Committing never fails, so an error of the format is one of the decoder. -/
theorem decode_of_error {e : Stop} (hc : c.Valid) (hs : Tracked s c) (hlt : c.position < c.mmap.len)
    (h : ((spoolFormat V).next s c).1 = .error e) :
    ∃ d, decodeSpoolRecord V s c = (.error e, d) ∧ (e.isEof = true → atEof d = true) := by
  rcases readTag_cases c hc with ⟨hend, _⟩ | ⟨tag, _, hvalid, htag⟩
  · omega
  · rw [next_of_readTag V htag] at h
    rcases hdecode : decodeTagged V s tag (c.advance 1) with ⟨e' | record, d⟩
    · have hnext : commitTagged V s tag (c.advance 1) = (.error e', d) := bind_of_error hdecode
      rw [hnext] at h
      cases h
      refine ⟨d, ?_, ?_⟩
      · refine (bind_of_ok htag).trans ?_
        exact bind_of_error hdecode
      · intro heof
        have hstable := (decodeTagged_reads V s tag).stable
        have hended := hstable.ended (c.advance 1) e hvalid (by rw [hdecode]) heof
        have hmmap := hstable.mmap_eq (c.advance 1) hvalid
        rw [hdecode] at hended hmmap
        unfold atEof
        rw [hended, hmmap]
        exact beq_self_eq_true _
    · have haccept : Accepts s record := ((decodeTagged_triple s tag _ hvalid).1 record d hdecode).1
      obtain ⟨t, hcommit, -⟩ := hs.wellFormed.commit (hs.length_lt hc) haccept
      have hnext : commitTagged V s tag (c.advance 1) = (.ok (record, t), d) := by
        refine (bind_of_ok hdecode).trans ?_
        rw [hcommit]
        rfl
      rw [hnext] at h
      cases h

/-- The batch has reached its bound or a record that ends it. -/
def Full (tail : Tail) (entries : List SpoolEntry) : Prop :=
  tail.samples.length = MAX_BATCH_SAMPLES ∨ ∃ entry ∈ entries, endsBatch entry.record = true

/-- How a pass over the records ends. -/
inductive Outcome (V : IntegerEncoding) (tail : Tail) (entries : List SpoolEntry) :
    Except Stop Bool → Prop
  | full {more : Bool} :
      entries ≠ [] → Full tail entries → more = decide (tail.position < tail.mmap.len) →
        Outcome V tail entries (.ok more)
  | drained {ending : Ending Stop} :
      Halts (spoolFormat V) tail.toReaderState tail.cursor ending → ending.isFault = false →
        Outcome V tail entries (.ok false)
  | fault {e e' : Stop} :
      Halts (spoolFormat V) tail.toReaderState tail.cursor (.fault e) → ¬ Full tail entries →
        Outcome V tail entries (.error e')

/-- The records of one pass, from one state of the reader to another. -/
structure Parsed (V : IntegerEncoding) (tail : Tail) (result : Except Stop Bool) (tail' : Tail)
    (entries : List SpoolEntry) : Prop where
  run : Run (spoolFormat V) tail.toReaderState tail.cursor entries tail'.toReaderState tail'.cursor
  advances : Advances tail tail' (entries.filterMap (·.record.sample?))
  ending : ∀ entry ∈ entries.dropLast, endsBatch entry.record = false
  bounded : tail'.samples.length ≤ MAX_BATCH_SAMPLES
  outcome : Outcome V tail' entries result

theorem parseLoop_next {committed : Tail}
    (hdecode : decodeSpoolRecord V tail.toReaderState tail.cursor = (.ok (some record), c))
    (hcommit : tail.commitRecord record = .ok committed) (fuel : ℕ) : parseLoop V (fuel + 1) tail =
      if committed.samples.length = MAX_BATCH_SAMPLES ∨ endsBatch record = true then
        (.ok (decide (c.position < committed.mmap.len)), { committed with position := c.position })
      else parseLoop V fuel { committed with position := c.position } := by
  rw [parseLoop, hdecode]
  simp only [hcommit]

/-- A pass that can read nothing stops at once. -/
theorem parseLoop_halts {ending : Ending Stop} (hc : tail.cursor.Valid)
    (hs : Tracked tail.toReaderState tail.cursor)
    (hsamples : tail.samples.length < MAX_BATCH_SAMPLES)
    (h : Halts (spoolFormat V) tail.toReaderState tail.cursor ending) (fuel : ℕ) :
    (parseLoop V (fuel + 1) tail).2 = tail ∧ Outcome V tail [] (parseLoop V (fuel + 1) tail).1 := by
  rcases ending with _ | _ | e
  · have hloop : parseLoop V (fuel + 1) tail = (.ok false, tail) := by
      rw [parseLoop, decode_complete h]
    rw [hloop]
    exact ⟨rfl, .drained h rfl⟩
  · obtain ⟨hlt, e, he, heof⟩ := h
    obtain ⟨d, hdecode, hat⟩ := decode_of_error hc hs hlt he
    have heof' : e.isEof = true := heof
    have hloop : parseLoop V (fuel + 1) tail = (.ok false, tail) := by
      rw [parseLoop, hdecode]
      simp only [heof', hat heof', Bool.and_self, if_true]
    have htorn : Halts (spoolFormat V) tail.toReaderState tail.cursor .torn := ⟨hlt, e, he, heof⟩
    rw [hloop]
    exact ⟨rfl, .drained htorn rfl⟩
  · obtain ⟨hlt, he, heof⟩ := h
    obtain ⟨d, hdecode, -⟩ := decode_of_error hc hs hlt he
    have heof' : e.isEof = false := heof
    have htag : tail.mmap.bytes[tail.position]? = some tail.mmap.bytes[tail.position] :=
      List.getElem?_eq_getElem hlt
    have hloop : parseLoop V (fuel + 1) tail =
        (.error (recordError e tail.mmap.bytes[tail.position] tail.position), tail) := by
      rw [parseLoop, hdecode]
      simp only [heof', Bool.false_and, Bool.false_eq_true, if_false, htag]
    have hopen : ¬ Full tail [] := by
      rintro (hfull | ⟨entry, hentry, _⟩)
      · omega
      · cases hentry
    rw [hloop]
    exact ⟨rfl, .fault ⟨hlt, he, heof⟩ hopen⟩

theorem Parsed.cons {tail' tail'' : Tail} {result : Except Stop Bool} {entry : SpoolEntry}
    {entries : List SpoolEntry} (h : Parsed V tail' result tail'' entries)
    (hrun : Run (spoolFormat V) tail.toReaderState tail.cursor [entry] tail'.toReaderState
      tail'.cursor) (hadvances : Advances tail tail' entry.record.sample?.toList)
    (hends : endsBatch entry.record = false) : Parsed V tail result tail'' (entry :: entries) where
  run := hrun.append h.run
  advances := by
    have htrans := hadvances.trans h.advances
    rw [List.filterMap_cons]
    rcases hsample : entry.record.sample? with _ | sample <;> rw [hsample] at htrans <;>
      exact htrans
  ending e he := by
    rcases entries with _ | ⟨next, entries⟩
    · cases he
    · rw [List.dropLast_cons_of_ne_nil (List.cons_ne_nil _ _)] at he
      rcases List.mem_cons.mp he with rfl | hrest
      · exact hends
      · exact h.ending e hrest
  bounded := h.bounded
  outcome := by
    have hfull : Full tail'' (entry :: entries) ↔ Full tail'' entries := by
      unfold Full
      simp only [List.mem_cons, exists_eq_or_imp, hends, Bool.false_eq_true, false_or]
    rcases h.outcome with ⟨_, hbatch, hmore⟩ | ⟨hhalts, hfault⟩ | ⟨hhalts, hopen⟩
    · exact .full (List.cons_ne_nil _ _) (hfull.mpr hbatch) hmore
    · exact .drained hhalts hfault
    · exact .fault hhalts (hopen ∘ hfull.mp)

/-- The tail behind a record that the pass reads. -/
structure ParsedOne (V : IntegerEncoding) (tail : Tail) (record : DecodedSpoolRecord)
    (t : ReaderState)
    (next : Tail) : Prop where
  commit : ∃ committed, tail.commitRecord record = .ok committed ∧
    next = { committed with position := next.position }
  state : next.toReaderState = t
  run : Run (spoolFormat V) tail.toReaderState tail.cursor
    [⟨tail.position, next.position, record, t⟩]
    next.toReaderState next.cursor
  advances : Advances tail next record.sample?.toList
  valid : next.cursor.Valid
  shorter : tail.mmap.len - next.position < tail.mmap.len - tail.position
  loop : ∀ fuel, parseLoop V (fuel + 1) tail =
    if next.samples.length = MAX_BATCH_SAMPLES ∨ endsBatch record = true then
      (.ok (decide (next.position < next.mmap.len)), next)
    else parseLoop V fuel next

theorem parsedOne_of_next {c' : Cursor} (hc : tail.cursor.Valid)
    (hs : Tracked tail.toReaderState tail.cursor)
    (hnext : (spoolFormat V).next tail.toReaderState tail.cursor = (.ok (record, t), c')) :
    ∃ next, ParsedOne V tail record t next := by
  obtain ⟨haccept, hcommit⟩ := next_accepts hc hnext
  obtain ⟨committed, hrecord, hstate, hadvances⟩ := commitRecord_eq hs.wellFormed haccept hcommit
  have hmmap : c'.mmap = committed.mmap := (next_mmap hc hnext).trans hadvances.mmap.symm
  have hvalid := next_valid hc hnext
  have hlt : tail.position < c'.position := (spoolFormat V).progress _ _ _ _ hc hnext
  have hle : c'.position ≤ tail.mmap.len := by
    have hwithin : c'.position ≤ c'.mmap.len := hvalid
    rw [hmmap, hadvances.mmap] at hwithin
    exact hwithin
  have hcursor : ({ committed with position := c'.position } : Tail).cursor = c' := by
    show (⟨committed.mmap, c'.position⟩ : Cursor) = c'
    rw [← hmmap]
  refine ⟨{ committed with position := c'.position }, ⟨committed, hrecord, rfl⟩, hstate, ?_,
    ⟨hadvances.samples, hadvances.mmap, hadvances.visibleLen, hadvances.header, hadvances.pending⟩,
    hcursor ▸ hvalid, ?_, fun fuel => ?_⟩
  · rw [hcursor, hstate]
    exact .cons hnext (.nil _ _)
  · show tail.mmap.len - c'.position < tail.mmap.len - tail.position
    omega
  · exact parseLoop_next (decode_of_next hc hnext) hrecord fuel

/-- A pass that goes on has room for another sample. -/
theorem ParsedOne.short {next : Tail} (h : ParsedOne V tail record t next)
    (hsamples : tail.samples.length < MAX_BATCH_SAMPLES)
    (hgo : next.samples.length ≠ MAX_BATCH_SAMPLES) : next.samples.length < MAX_BATCH_SAMPLES := by
  have hcount := congrArg List.length h.advances.samples
  rw [List.length_append] at hcount
  have hone : record.sample?.toList.length ≤ 1 := by
    rcases record.sample? with _ | sample <;> simp
  omega

theorem parseLoop_spec {fuel : ℕ} (hc : tail.cursor.Valid)
    (hs : Tracked tail.toReaderState tail.cursor)
    (hsamples : tail.samples.length < MAX_BATCH_SAMPLES)
    (hfuel : tail.mmap.len - tail.position < fuel) :
    ∃ entries, Parsed V tail (parseLoop V fuel tail).1 (parseLoop V fuel tail).2 entries := by
  induction fuel generalizing tail with
  | zero => omega
  | succ fuel ih =>
    rcases next_or_halts (F := spoolFormat V) (s := tail.toReaderState) hc with
      ⟨record, t, c', hnext⟩ | ⟨ending, hhalts⟩
    · obtain ⟨next, hone⟩ := parsedOne_of_next hc hs hnext
      rw [hone.loop]
      by_cases hstop : next.samples.length = MAX_BATCH_SAMPLES ∨ endsBatch record = true
      · rw [if_pos hstop]
        have hfull : Full next [⟨tail.position, next.position, record, t⟩] :=
          hstop.imp_right fun hends => ⟨_, List.mem_singleton_self _, hends⟩
        refine ⟨_, hone.run, ?_, ?_, ?_, .full (List.cons_ne_nil _ _) hfull rfl⟩
        · have hadvances := hone.advances
          rw [List.filterMap_cons]
          rcases hsample : record.sample? with _ | sample <;> rw [hsample] at hadvances <;>
            exact hadvances
        · intro entry hentry
          cases hentry
        · by_cases hcount : next.samples.length = MAX_BATCH_SAMPLES
          · exact hcount.le
          · exact (hone.short hsamples hcount).le
      · rw [if_neg hstop]
        obtain ⟨hfull, hends⟩ := not_or.mp hstop
        have hleft : next.mmap.len - next.position < fuel := by
          have hshorter := hone.shorter
          rw [hone.advances.mmap]
          omega
        obtain ⟨entries, hparsed⟩ := ih hone.valid (tracked_run hone.run hc hs)
          (hone.short hsamples hfull) hleft
        exact ⟨_, hparsed.cons hone.run hone.advances (Bool.eq_false_iff.mpr hends)⟩
    · obtain ⟨hstay, houtcome⟩ := parseLoop_halts hc hs hsamples hhalts fuel
      refine ⟨[], ?_⟩
      rw [hstay]
      refine ⟨.nil _ _, ⟨(List.append_nil _).symm, rfl, rfl, rfl, rfl⟩, ?_, ?_, houtcome⟩
      · intro entry hentry
        cases hentry
      · omega

end StackPulse.TailBatches
