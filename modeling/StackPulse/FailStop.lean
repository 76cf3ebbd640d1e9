import StackPulse.Faults

/-!
The output of a session stops at its first failure. On any sink the accepted
bytes are a beginning of what a buffer would hold, the caches note only records
that were accepted as a whole, and after the first failure nothing more is
written or noted.
-/
namespace StackPulse.FailStop

open Varint Model Decode Output Encode Writer Sessions Faults

variable {V : IntegerEncoding} {W : Type} [Write W] {s : PerfSpoolWriter (Logged W)}

theorem runOps_failed (ops : List Op) {failure : IoError}
    (hfailed : s.writer.failure = some failure) (hs : Remembers s) :
    Idle s (runOps V ops s).2 ∧ Remembers (runOps V ops s).2 := by
  induction ops generalizing s with
  | nil => exact ⟨Idle.refl s, hs⟩
  | cons op ops ih =>
    obtain ⟨t, hrun, hidle, hstays, hremembers⟩ := run_failed (V := V) op hfailed
    by_cases hpending : reported failure op s = .error .pending
    · rw [hpending] at hrun
      rw [runOps_cons_pending V hrun]
      exact ⟨hidle, hremembers hs⟩
    · rw [runOps_cons V hrun hpending]
      obtain ⟨hrest, hremembers'⟩ := ih hstays (hremembers hs)
      exact ⟨hidle.trans hrest, hremembers'⟩

/-- The calls of a session, from a sound output on. -/
theorem runOps_sound (ops : List Op) (hsound : s.writer.failure = none) (hs : Remembers s) :
    Advances V s (runOps V ops s).2 (planOps ops s.toCaches).1 ∧ Remembers (runOps V ops s).2 := by
  induction ops generalizing s with
  | nil => exact ⟨(Idle.refl s).completes.advances, hs⟩
  | cons op ops ih =>
    obtain ⟨outcome, t, hrun, hremembers, hadvances, hcases⟩ := run_sound (V := V) op hsound hs
    rw [planOps_cons]
    by_cases hpending : outcome = .error .pending
    · rw [hpending] at hrun
      rw [runOps_cons_pending V hrun]
      exact ⟨hadvances.more _, hremembers⟩
    rw [runOps_cons V hrun hpending]
    rcases hcases with hwait | ⟨failure, hfailed⟩ | ⟨hsound', hcompletes⟩
    · exact absurd hwait hpending
    · -- The output has failed in this call: the later ones leave it alone.
      obtain ⟨hidle, hremembers'⟩ := runOps_failed (V := V) ops hfailed hremembers
      refine ⟨?_, hremembers'⟩
      obtain ⟨taken, noted, htaken, hnoted, hwhole, haccepted, hbytes, hcaches⟩ :=
        (hadvances.more (planOps ops (s.toCaches.absorbAll (op.plan s.toCaches).1)).1).taken
      exact ⟨⟨taken, noted, htaken, hnoted, hwhole, hidle.accepted.trans haccepted,
        hidle.bytes.trans hbytes, hidle.caches.trans hcaches⟩⟩
    · obtain ⟨hrest, hremembers'⟩ := ih hsound' hremembers
      rw [hcompletes.caches] at hrest
      exact ⟨hcompletes.trans hrest, hremembers'⟩

theorem runOps_append (before after : List Op) (s : PerfSpoolWriter W) :
    (runOps V (before ++ after) s).2 = (runOps V before s).2 ∨
      (runOps V (before ++ after) s).2 = (runOps V after (runOps V before s).2).2 := by
  induction before generalizing s with
  | nil => exact .inr rfl
  | cons op before ih =>
    rcases hrun : op.run V s with ⟨outcome, t⟩
    rw [List.cons_append]
    by_cases hpending : outcome = .error .pending
    · rw [hpending] at hrun
      rw [runOps_cons_pending V hrun, runOps_cons_pending V hrun]
      exact .inl rfl
    · rw [runOps_cons V hrun hpending, runOps_cons V hrun hpending]
      exact ih t

/-- Creating a writer writes the header. -/
theorem create_accepts (sink : W) (header : SpoolHeader) :
    ∃ (s : PerfSpoolWriter (Logged W)) (progress : Progress),
      fromWriterWithOrigin V ⟨sink, [], []⟩ header = (progress.result, s) ∧
      Accepts (.new ⟨sink, [], []⟩) s.writer (encodeHeader V header) progress ∧
      Remembers s ∧ s.toCaches = .empty := by
  obtain ⟨out, progress, hwrite, haccepts⟩ :=
    writeChunks_accepts (headerChunks V header) (.new (⟨sink, [], []⟩ : Logged W)) rfl
  have hstart : Remembers (⟨.empty, .new ⟨sink, [], []⟩⟩ : PerfSpoolWriter (Logged W)) := rfl
  have hcreated : Remembers (⟨.empty, out⟩ : PerfSpoolWriter (Logged W)) :=
    hstart.of_accepts rfl haccepts
  refine ⟨⟨.empty, out⟩, progress, ?_, haccepts, hcreated, rfl⟩
  unfold fromWriterWithOrigin onWriter
  rw [writeHeader_eq, hwrite]

/-- The writer after a session on a logged sink. -/
def after (V : IntegerEncoding) (sink : W) (header : SpoolHeader) (ops : List Op) :
    PerfSpoolWriter (Logged W) :=
  (session V (⟨sink, [], []⟩ : Logged W) header ops).2

/-- The accepted bytes are a beginning of what a buffer would hold, the position
counts them, and the caches note only records that were accepted as a whole. -/
structure Standing (V : IntegerEncoding) (header : SpoolHeader) (ops : List Op)
    (s : PerfSpoolWriter (Logged W)) : Prop where
  accepted : s.writer.inner.accepted <+:
    (session V (⟨[]⟩ : Vec) header ops).2.writer.inner.bytes
  position : s.position = s.writer.inner.accepted.length
  caches : ∃ noted, noted <+: (planOps ops .empty).1 ∧
    s.toCaches = Caches.empty.absorbAll noted ∧
    (noted = [] ∨ encodeHeader V header ++ encodeAll V noted <+: s.writer.inner.accepted)

/-- What holds of every session on every sink. -/
structure StopsAtFailure (V : IntegerEncoding) (sink : W) (header : SpoolHeader)
    (ops : List Op) : Prop where
  standing : Standing V header ops (after V sink header ops)
  remembers : Remembers (after V sink header ops)
  stopped : ∀ before later failure, ops = before ++ later →
    (after V sink header before).writer.inner.failures.head? = some failure →
      Idle (after V sink header before) (after V sink header ops)
  reports : ∀ before op later failure, ops = before ++ op :: later →
    (after V sink header before).writer.inner.failures.head? = some failure →
      (op.run V (after V sink header before)).1 = reported failure op (after V sink header before)

theorem after_of_ok {sink : W} {header : SpoolHeader}
    (h : fromWriterWithOrigin V ⟨sink, [], []⟩ header = (.ok (), s)) (ops : List Op) :
    after V sink header ops = (runOps V ops s).2 := by
  unfold after session
  rw [h]

theorem after_of_error {sink : W} {header : SpoolHeader} {e : Stop}
    (h : fromWriterWithOrigin V ⟨sink, [], []⟩ header = (.error e, s)) (ops : List Op) :
    after V sink header ops = s := by
  unfold after session
  rw [h]

theorem after_remembers (sink : W) (header : SpoolHeader) (ops : List Op) :
    Remembers (after V sink header ops) := by
  obtain ⟨s, progress, hcreate, haccepts, hremembers, _⟩ := create_accepts (V := V) sink header
  rcases progress with _ | failure | _
  · rw [after_of_ok hcreate]
    exact (runOps_sound ops haccepts.failure hremembers).2
  · rw [after_of_error hcreate]
    exact hremembers
  · rw [after_of_error hcreate]
    exact hremembers

theorem after_stopped (sink : W) (header : SpoolHeader) (before later : List Op)
    {failure : IoError} (hfailed : (after V sink header before).writer.failure = some failure) :
    Idle (after V sink header before) (after V sink header (before ++ later)) := by
  have hremembers := after_remembers (V := V) sink header before
  obtain ⟨s, progress, hcreate, _⟩ := create_accepts (V := V) sink header
  have hclosed : ∀ e, fromWriterWithOrigin V ⟨sink, [], []⟩ header = (.error e, s) →
      Idle (after V sink header before) (after V sink header (before ++ later)) := by
    intro e he
    rw [after_of_error he, after_of_error he]
    exact Idle.refl s
  rcases progress with _ | f | _
  · rw [after_of_ok hcreate] at hfailed hremembers
    rw [after_of_ok hcreate, after_of_ok hcreate]
    rcases runOps_append (V := V) before later s with hsame | hmore
    · rw [hsame]
      exact Idle.refl _
    · rw [hmore]
      exact (runOps_failed later hfailed hremembers).1
  · exact hclosed _ hcreate
  · exact hclosed _ hcreate

theorem after_standing (sink : W) (header : SpoolHeader) (ops : List Op) :
    Standing V header ops (after V sink header ops) := by
  have hperfect : (session V (⟨[]⟩ : Vec) header ops).2.writer.inner.bytes =
      encodeHeader V header ++ encodeAll V (planOps ops .empty).1 := by
    rw [session_buffered]
    rfl
  obtain ⟨s, progress, hcreate, haccepts, hremembers, hempty⟩ := create_accepts (V := V) sink header
  obtain ⟨taken, htaken, hall, haccepted, hbytes⟩ := haccepts.accepted
  have haccepted' : s.writer.inner.accepted = taken := haccepted
  have hposition : s.writer.bytes = taken.length := hbytes.trans (Nat.zero_add _)
  -- A header that was cut short leaves no writer to go on with.
  have hclosed : Standing V header ops s := by
    refine ⟨?_, ?_, [], List.nil_prefix, hempty, .inl rfl⟩
    · rw [hperfect, haccepted']
      exact htaken.trans (List.prefix_append _ _)
    · rw [haccepted']
      exact hposition
  rcases progress with _ | failure | _
  · have hwhole : taken = encodeHeader V header := hall.mpr rfl
    have hadvances := (runOps_sound (V := V) ops haccepts.failure hremembers).1
    rw [hempty] at hadvances
    obtain ⟨more, noted, hmore, hnoted, hcomplete, hgrown, hcount, hcaches⟩ := hadvances.taken
    rw [haccepted', hwhole] at hgrown
    rw [after_of_ok hcreate]
    refine ⟨?_, ?_, noted, hnoted, ?_, .inr ?_⟩
    · rw [hperfect, hgrown]
      exact (List.prefix_append_right_inj _).mpr hmore
    · show (runOps V ops s).2.writer.bytes = _
      rw [hcount, hgrown, hposition, hwhole, List.length_append]
    · rw [hcaches, hempty]
    · rw [hgrown]
      exact (List.prefix_append_right_inj _).mpr hcomplete
  · rw [after_of_error hcreate]
    exact hclosed
  · rw [after_of_error hcreate]
    exact hclosed

/-- On every sink the accepted bytes are a beginning of what a buffer would hold,
the position counts them, and the caches note only complete records. After the
first failure of the sink nothing more is written, and every call with a record
to write reports that failure. -/
theorem session_stops_at_failure (V : IntegerEncoding) (sink : W) (header : SpoolHeader)
    (ops : List Op) : StopsAtFailure V sink header ops := by
  refine ⟨after_standing sink header ops, after_remembers sink header ops, ?_, ?_⟩
  · intro before later failure hops hfailed
    rw [hops]
    exact after_stopped sink header before later
      ((after_remembers sink header before).trans hfailed)
  · intro before op later failure _ hfailed
    obtain ⟨t, hrun, _⟩ := run_failed (V := V) op
      ((after_remembers (V := V) sink header before).trans hfailed)
    rw [hrun]

/-- Once the script is used up, the sink accepts everything. -/
structure Scripted where
  writes : List (Except IoError ℕ)
  flushes : List (Except IoError Unit)

instance : Write Scripted where
  write w buf :=
    match w.writes with
    | [] => (.ok buf.length, w)
    | .ok n :: writes => (.ok (min n buf.length), { w with writes := writes })
    | .error e :: writes => (.error e, { w with writes := writes })
  flush w :=
    match w.flushes with
    | [] => (.ok (), w)
    | result :: flushes => (result, { w with flushes := flushes })
  patience := 8
  write_le w buf n h := by
    split at h
    · cases h
      exact le_rfl
    · cases h
      exact Nat.min_le_right _ _
    · cases h

def diskFull : IoError := .new (.other 28) "No space left on device"

def flushFailed : IoError := .new (.other 5) "Input/output error"

/-- The sink accepts the header and the first byte of a record. -/
def fullDisk : Scripted where
  writes := [.ok 8, .ok 1, .ok 1, .ok 1, .ok 1, .error diskFull]
  flushes := [.error flushFailed]

/-- After the first failure a flush that fails shows its own error, a sample
without frames succeeds, and a sample out of the range of the deltas is refused. -/
theorem later_calls_differ_from_first_failure :
    (session Varint.standard (⟨fullDisk, [], []⟩ : Logged Scripted) ⟨0, 0, none⟩
      [.writePythonRuntime 0 1 true, .flush, .writeSampleFrames 0 1 1 [],
        .writeSampleFrames 18446744073709551615 1 1 [.truncatedStackMarker],
        .writeModuleDeactivation 1]).1 =
      [.error (.io (.outputFailure diskFull)), .error (.io flushFailed), .ok none,
        .error (invalidInput "sample timestamp delta 18446744073709551615 out of range"),
        .error (.io (.outputFailure diskFull))] := by
  rfl

end StackPulse.FailStop
