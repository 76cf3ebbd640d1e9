import StackPulse.Sessions

/-!
Records and calls on a sink that may fail. On a sound output the sink accepts a
beginning of what is planned, and the caches note the records that were accepted
as a whole; a failed output stays as it is.
-/
namespace StackPulse.Faults

open Varint Model Output Encode Writer Realization Sessions

variable {V : IntegerEncoding} {W : Type} {s t : PerfSpoolWriter (Logged W)}
  {planned : List SpoolRecord}

/-- From `s` to `t` the sink has accepted a beginning of the planned records, and
only records that were accepted as a whole were noted. -/
structure Advances (V : IntegerEncoding) (s t : PerfSpoolWriter (Logged W))
    (planned : List SpoolRecord) : Prop where
  taken : ∃ taken noted, taken <+: encodeAll V planned ∧ noted <+: planned ∧
    encodeAll V noted <+: taken ∧
    t.writer.inner.accepted = s.writer.inner.accepted ++ taken ∧
    t.writer.bytes = s.writer.bytes + taken.length ∧
    t.toCaches = s.toCaches.absorbAll noted

/-- All planned records were accepted and noted. -/
structure Completes (V : IntegerEncoding) (s t : PerfSpoolWriter (Logged W))
    (planned : List SpoolRecord) : Prop where
  accepted : t.writer.inner.accepted = s.writer.inner.accepted ++ encodeAll V planned
  bytes : t.writer.bytes = s.writer.bytes + (encodeAll V planned).length
  caches : t.toCaches = s.toCaches.absorbAll planned

theorem Completes.advances (h : Completes V s t planned) : Advances V s t planned :=
  ⟨⟨_, planned, List.prefix_rfl, List.prefix_rfl, List.prefix_rfl, h.accepted, h.bytes,
    h.caches⟩⟩

theorem Completes.trans {u : PerfSpoolWriter (Logged W)} {more : List SpoolRecord}
    (h : Completes V s t planned) (h' : Advances V t u more) :
    Advances V s u (planned ++ more) := by
  obtain ⟨taken, noted, htaken, hnoted, hwhole, haccepted, hbytes, hcaches⟩ := h'.taken
  refine ⟨⟨encodeAll V planned ++ taken, planned ++ noted, ?_, ?_, ?_, ?_, ?_, ?_⟩⟩
  · rw [encodeAll_append]
    exact (List.prefix_append_right_inj _).mpr htaken
  · exact (List.prefix_append_right_inj _).mpr hnoted
  · rw [encodeAll_append]
    exact (List.prefix_append_right_inj _).mpr hwhole
  · rw [haccepted, h.accepted, List.append_assoc]
  · rw [hbytes, h.bytes, List.length_append, Nat.add_assoc]
  · rw [hcaches, h.caches, Caches.absorbAll_append]

/-- A session that stopped goes on planning, but does not write. -/
theorem Advances.more (h : Advances V s t planned) (more : List SpoolRecord) :
    Advances V s t (planned ++ more) := by
  obtain ⟨taken, noted, htaken, hnoted, hrest⟩ := h.taken
  refine ⟨⟨taken, noted, ?_, hnoted.trans (List.prefix_append _ _), hrest⟩⟩
  rw [encodeAll_append]
  exact htaken.trans (List.prefix_append _ _)

/-- Nothing is written and nothing is noted. -/
structure Idle (s t : PerfSpoolWriter (Logged W)) : Prop where
  accepted : t.writer.inner.accepted = s.writer.inner.accepted
  bytes : t.writer.bytes = s.writer.bytes
  caches : t.toCaches = s.toCaches

theorem Idle.refl (s : PerfSpoolWriter (Logged W)) : Idle s s := ⟨rfl, rfl, rfl⟩

theorem Idle.trans {u : PerfSpoolWriter (Logged W)} (h : Idle s t) (h' : Idle t u) : Idle s u :=
  ⟨h'.accepted.trans h.accepted, h'.bytes.trans h.bytes, h'.caches.trans h.caches⟩

theorem Idle.completes (h : Idle s t) : Completes V s t [] := by
  refine ⟨?_, h.bytes, h.caches⟩
  rw [h.accepted]
  exact (List.append_nil _).symm

/-- The output remembers the first failure of the sink. -/
def Remembers (s : PerfSpoolWriter (Logged W)) : Prop :=
  s.writer.failure = s.writer.inner.failures.head?

theorem Remembers.of_accepts {buf : List UInt8} {progress : Progress} (h : Remembers s)
    (hsound : s.writer.failure = none) (haccepts : Accepts s.writer t.writer buf progress) :
    Remembers t := by
  unfold Remembers at h ⊢
  rw [hsound] at h
  have hnil : s.writer.inner.failures = [] := List.head?_eq_none_iff.mp h.symm
  rw [haccepts.failure, haccepts.failures, hnil, List.nil_append]
  rcases progress with _ | failure | _ <;> rfl

variable [Write W]

theorem writeChunks_accepts (pieces : List (List UInt8)) (out : SpoolOutput (Logged W))
    (hsound : out.failure = none) :
    ∃ out' progress, writeChunks pieces out = (progress.result, out') ∧
      Accepts out out' pieces.flatten progress := by
  induction pieces generalizing out with
  | nil =>
    exact ⟨out, .complete, rfl,
      accepts_nothing (by simp) rfl rfl hsound (List.append_nil _).symm (by simp)⟩
  | cons piece pieces ih =>
    obtain ⟨mid, progress, hfirst, haccepts⟩ := writeAllLoop_accepts _ out hsound piece
    rw [writeChunks_cons, List.flatten_cons]
    rcases progress with _ | failure | _
    · obtain ⟨out', progress, hrest, haccepts'⟩ := ih mid haccepts.failure
      exact ⟨out', progress, (Call.bind_of_ok hfirst).trans hrest, haccepts.trans haccepts'⟩
    · exact ⟨mid, .failed failure, Call.bind_of_error hfirst, haccepts.stop (by simp) _⟩
    · exact ⟨mid, .waiting, Call.bind_of_error hfirst, haccepts.stop (by simp) _⟩

/-- One record on a sound output. -/
theorem emit_accepts (record : SpoolRecord) (s : PerfSpoolWriter (Logged W))
    (hsound : s.writer.failure = none) :
    ∃ t progress, emit V record s = (progress.result, t) ∧
      Accepts s.writer t.writer (encode V record) progress ∧
      t.toCaches = if progress = .complete then s.toCaches.absorb record else s.toCaches := by
  obtain ⟨out, progress, hwrite, haccepts⟩ := writeChunks_accepts (chunks V record) s.writer hsound
  have hon : onWriter (writeChunks (chunks V record)) s =
      (progress.result, { s with writer := out }) := by
    unfold onWriter
    rw [hwrite]
  unfold emit
  rcases progress with _ | failure | _
  · exact ⟨_, .complete, Call.bind_of_ok hon, haccepts, rfl⟩
  · exact ⟨_, .failed failure, Call.bind_of_error hon, haccepts, rfl⟩
  · exact ⟨_, .waiting, Call.bind_of_error hon, haccepts, rfl⟩

/-- Records on a sound output: all of them are accepted, or the output stops
inside one of them. -/
theorem emitAll_accepts (records : List SpoolRecord) (s : PerfSpoolWriter (Logged W))
    (hsound : s.writer.failure = none) (hs : Remembers s) :
    ∃ (t : PerfSpoolWriter (Logged W)) (progress : Progress),
      emitAll V records s = (progress.result, t) ∧
      t.writer.failure = progress.failure ∧ Remembers t ∧ Advances V s t records ∧
      (progress = .complete → Completes V s t records) := by
  induction records generalizing s with
  | nil =>
    have hdone := (Idle.refl s).completes (V := V)
    exact ⟨s, .complete, rfl, hsound, hs, hdone.advances, fun _ => hdone⟩
  | cons record records ih =>
    obtain ⟨mid, progress, hemit, haccepts, hcaches⟩ := emit_accepts (V := V) record s hsound
    have hmid := hs.of_accepts hsound haccepts
    obtain ⟨taken, htaken, hall, haccepted, hbytes⟩ := haccepts.accepted
    rw [emitAll]
    have hstop : progress ≠ .complete → Advances V s mid (record :: records) := by
      intro hne
      rw [if_neg hne] at hcaches
      refine ⟨⟨taken, [], ?_, List.nil_prefix, List.nil_prefix, haccepted, hbytes, hcaches⟩⟩
      rw [encodeAll_cons]
      exact htaken.trans (List.prefix_append _ _)
    rcases progress with _ | failure | _
    · have hwhole : taken = encode V record := hall.mpr rfl
      have hone : encodeAll V [record] = encode V record := by
        rw [encodeAll_cons]
        exact List.append_nil _
      have hfirst : Completes V s mid [record] := by
        rw [hwhole, ← hone] at haccepted hbytes
        exact ⟨haccepted, hbytes, hcaches⟩
      obtain ⟨t, progress, hrest, hfailure, hremembers, hadvances, hcompletes⟩ :=
        ih mid haccepts.failure hmid
      refine ⟨t, progress, (Call.bind_of_ok hemit).trans hrest, hfailure, hremembers,
        hfirst.trans hadvances, fun hprogress => ?_⟩
      have hrest := hcompletes hprogress
      refine ⟨?_, ?_, ?_⟩
      · rw [hrest.accepted, hfirst.accepted, List.append_assoc, ← encodeAll_append]
        rfl
      · rw [hrest.bytes, hfirst.bytes, Nat.add_assoc, ← List.length_append, ← encodeAll_append]
        rfl
      · rw [hrest.caches, hfirst.caches, ← Caches.absorbAll_append]
        rfl
    · exact ⟨mid, .failed failure, Call.bind_of_error hemit, haccepts.failure, hmid,
        hstop (by simp), by simp⟩
    · exact ⟨mid, .waiting, Call.bind_of_error hemit, haccepts.failure, hmid,
        hstop (by simp), by simp⟩

/-- What a flush reports: the sink's own error before a remembered one. -/
def flushReport (result : Except IoError Unit) (failure : Option IoError) : Outcome :=
  match result, failure with
  | .error e, some _ => .error (.io e)
  | .error e, none => .error (.io (.outputFailure e))
  | .ok (), some failure => .error (.io (.outputFailure failure))
  | .ok (), none => .ok none

theorem run_flush (s : PerfSpoolWriter W) :
    Op.flush.run V s = (match s.writer.flush.1 with
      | .ok () => .ok none
      | .error e => .error (.io e), { s with writer := s.writer.flush.2 }) := by
  rcases h : s.writer.flush with ⟨e | u, out⟩
  · refine Call.bind_of_error ?_
    unfold Writer.flush onWriter
    simp only [h]
  · refine (Call.bind_of_ok (a := ()) (t := { s with writer := out }) ?_).trans rfl
    unfold Writer.flush onWriter
    simp only [h]

/-- A flush writes nothing, and keeps the first failure. -/
theorem flush_cases (s : PerfSpoolWriter (Logged W)) :
    ∃ t, Op.flush.run V s =
        (flushReport (Write.flush s.writer.inner.inner).1 s.writer.failure, t) ∧
      Idle s t ∧ (Remembers s → Remembers t) ∧
      (∀ failure, s.writer.failure = some failure → t.writer.failure = some failure) := by
  rw [run_flush]
  rcases s with ⟨c, ⟨⟨inner, accepted, failures⟩, bytes, failure⟩⟩
  rcases hinner : Write.flush inner with ⟨e | u, inner'⟩
  · have hlogged : Write.flush (⟨inner, accepted, failures⟩ : Logged W) =
        (.error e, ⟨inner', accepted, failures ++ [e]⟩) := by simp only [Write.flush, hinner]
    rcases failure with _ | failure
    · have hflush : (⟨⟨inner, accepted, failures⟩, bytes, none⟩ : SpoolOutput (Logged W)).flush =
          (.error (.outputFailure e), ⟨⟨inner', accepted, failures ++ [e]⟩, bytes, some e⟩) := by
        unfold SpoolOutput.flush
        rw [hlogged]
        rfl
      rw [hflush]
      refine ⟨_, rfl, ⟨rfl, rfl, rfl⟩, fun h => ?_, by simp⟩
      have hnil : failures = [] := List.head?_eq_none_iff.mp h.symm
      subst hnil
      rfl
    · have hflush : (⟨⟨inner, accepted, failures⟩, bytes, some failure⟩ :
          SpoolOutput (Logged W)).flush =
          (.error e, ⟨⟨inner', accepted, failures ++ [e]⟩, bytes, some failure⟩) := by
        unfold SpoolOutput.flush
        rw [hlogged]
        rfl
      rw [hflush]
      refine ⟨_, rfl, ⟨rfl, rfl, rfl⟩, fun h => ?_, fun _ hfailed => hfailed⟩
      have hhead : some failure = failures.head? := h
      show some failure = (failures ++ [e]).head?
      rw [List.head?_append, ← hhead]
      rfl
  · have hlogged : Write.flush (⟨inner, accepted, failures⟩ : Logged W) =
        (.ok (), ⟨inner', accepted, failures⟩) := by simp only [Write.flush, hinner]
    refine ⟨⟨c, ⟨⟨inner', accepted, failures⟩, bytes, failure⟩⟩, ?_, ⟨rfl, rfl, rfl⟩,
      fun h => h, fun _ hfailed => hfailed⟩
    unfold SpoolOutput.flush
    rw [hlogged]
    rcases failure with _ | failure <;> rfl

/-- Every record begins with a piece that is not empty. -/
theorem chunks_cons (V : IntegerEncoding) (record : SpoolRecord) :
    ∃ piece pieces, chunks V record = piece :: pieces ∧ piece ≠ [] := by
  cases record <;> exact ⟨_, _, rfl, by simp [recordBytes]⟩

theorem emit_failed {record : SpoolRecord} {s : PerfSpoolWriter W} {failure : IoError}
    (hfailed : s.writer.failure = some failure) :
    emit V record s =
      (.error (if failure.kind = .interrupted then .pending else .io (.outputFailure failure)),
        s) := by
  obtain ⟨piece, pieces, hchunks, hne⟩ := chunks_cons V record
  have hon : onWriter (writeChunks (chunks V record)) s =
      (.error (if failure.kind = .interrupted then .pending else .io (.outputFailure failure)),
        s) := by
    unfold onWriter
    rw [hchunks, writeChunks_cons, Call.bind_of_error (writeAllLoop_failed hfailed hne _)]
  exact Call.bind_of_error hon

/-- What a call on a failed output returns. A call with a record to write reports
the failure; if that is an interruption, it never returns. A call without one
returns what it planned. A flush asks the sink first. -/
def reported (failure : IoError) (op : Op) (s : PerfSpoolWriter (Logged W)) : Outcome :=
  if op = .flush then
    match (Write.flush s.writer.inner.inner).1 with
    | .error e => .error (.io e)
    | .ok () => .error (.io (.outputFailure failure))
  else if (op.plan s.toCaches).1 = [] then (op.plan s.toCaches).2
  else .error (if failure.kind = .interrupted then .pending else .io (.outputFailure failure))

/-- A failed output stays as it is. -/
theorem run_failed (op : Op) {failure : IoError} (hfailed : s.writer.failure = some failure) :
    ∃ t, op.run V s = (reported failure op s, t) ∧ Idle s t ∧
      t.writer.failure = some failure ∧ (Remembers s → Remembers t) := by
  unfold reported
  by_cases hflush : op = .flush
  · subst hflush
    obtain ⟨t, hrun, hidle, hremembers, hstays⟩ := flush_cases (V := V) s
    refine ⟨t, ?_, hidle, hstays failure hfailed, hremembers⟩
    rw [hrun, if_pos rfl, hfailed]
    rcases (Write.flush s.writer.inner.inner).1 with e | u <;> rfl
  · refine ⟨s, ?_, Idle.refl s, hfailed, id⟩
    rw [if_neg hflush, Op.run_realizes s.toCaches hflush s rfl]
    rcases (op.plan s.toCaches).1 with _ | ⟨record, records⟩
    · rfl
    · rw [if_neg (List.cons_ne_nil record records)]
      have hemit : emitAll V (record :: records) s = (.error _, s) :=
        Call.bind_of_error (emit_failed hfailed)
      exact Call.bind_of_error hemit

/-- One call on a sound output. -/
theorem run_sound (op : Op) (hsound : s.writer.failure = none) (hs : Remembers s) :
    ∃ outcome t, op.run V s = (outcome, t) ∧ Remembers t ∧
      Advances V s t (op.plan s.toCaches).1 ∧
      (outcome = .error .pending ∨ (∃ failure, t.writer.failure = some failure) ∨
        t.writer.failure = none ∧ Completes V s t (op.plan s.toCaches).1) := by
  by_cases hflush : op = .flush
  · subst hflush
    obtain ⟨t, hrun, hidle, hremembers, _⟩ := flush_cases (V := V) s
    have hdone : Completes V s t [] := hidle.completes
    refine ⟨_, t, hrun, hremembers hs, hdone.advances, .inr ?_⟩
    rcases hfailure : t.writer.failure with _ | failure
    · exact .inr ⟨rfl, hdone⟩
    · exact .inl ⟨failure, rfl⟩
  · obtain ⟨t, progress, hall, hfailure, hremembers, hadvances, hcompletes⟩ :=
      emitAll_accepts (V := V) (op.plan s.toCaches).1 s hsound hs
    have hrun := Op.run_realizes (V := V) s.toCaches hflush s rfl
    rcases progress with _ | failure | _
    · rw [Call.bind_of_ok hall] at hrun
      exact ⟨_, t, hrun, hremembers, hadvances, .inr (.inr ⟨hfailure, hcompletes rfl⟩)⟩
    · rw [Call.bind_of_error hall] at hrun
      exact ⟨_, t, hrun, hremembers, hadvances, .inr (.inl ⟨failure, hfailure⟩)⟩
    · rw [Call.bind_of_error hall] at hrun
      exact ⟨_, t, hrun, hremembers, hadvances, .inl rfl⟩

end StackPulse.Faults
