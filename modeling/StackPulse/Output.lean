import StackPulse.Model

/-!
The output side of a spool: byte sinks with short and interrupted writes, and
the wrapper that remembers the first failure of a sink and then refuses to write.
A logged sink shows which bytes a sink has accepted.
-/
namespace StackPulse.Output

open Model

variable {buf : List UInt8}

/-- A call on a mutable object. The object keeps its changes when the call fails. -/
abbrev Call (S : Type) := ExceptT Stop (StateM S)

namespace Call

variable {S α β : Type}

def ofExcept (r : Except Stop α) : Call S α := fun s => (r, s)

theorem bind_of_ok {m : Call S α} {f : α → Call S β} {s t : S} {a : α} (h : m s = (.ok a, t)) :
    (m >>= f) s = f a t := by
  show ExceptT.bindCont f (m s).1 (m s).2 = f a t
  rw [h]
  rfl

theorem bind_of_error {m : Call S α} {f : α → Call S β} {s t : S} {e : Stop}
    (h : m s = (.error e, t)) : (m >>= f) s = (.error e, t) := by
  show ExceptT.bindCont f (m s).1 (m s).2 = (.error e, t)
  rw [h]
  rfl

end Call

/-- A byte sink. A write returns how many bytes of the buffer it has accepted.
`patience` is how many interrupted writes are waited for before a call counts as
still running. -/
class Write (W : Type) where
  write : W → List UInt8 → Except IoError ℕ × W
  flush : W → Except IoError Unit × W
  patience : ℕ
  write_le : ∀ w buf n, (write w buf).1 = .ok n → n ≤ buf.length

/-- The loop of `Write::write_all`: it goes on after short and interrupted writes. -/
def writeAllLoop {W : Type} [Write W] : ℕ → W → List UInt8 → Except Stop Unit × W
  | _, w, [] => (.ok (), w)
  | 0, w, _ :: _ => (.error .pending, w)
  | rounds + 1, w, byte :: buf =>
      match Write.write w (byte :: buf) with
      | (.ok 0, w) => (.error (.io (.new .writeZero "failed to write whole buffer")), w)
      | (.ok n, w) => writeAllLoop rounds w ((byte :: buf).drop n)
      | (.error e, w) =>
          if e.kind = .interrupted then writeAllLoop rounds w (byte :: buf)
          else (.error (.io e), w)

theorem writeAllLoop_ok {W : Type} [Write W] {w w' : W} {byte : UInt8} {n : ℕ}
    (h : Write.write w (byte :: buf) = (.ok n, w')) (hn : 0 < n) (rounds : ℕ) :
    writeAllLoop (rounds + 1) w (byte :: buf) = writeAllLoop rounds w' ((byte :: buf).drop n) := by
  obtain ⟨k, rfl⟩ : ∃ k, n = k + 1 := ⟨n - 1, by omega⟩
  rw [writeAllLoop, h]
  rfl

theorem writeAllLoop_error {W : Type} [Write W] {w w' : W} {byte : UInt8} {e : IoError}
    (h : Write.write w (byte :: buf) = (.error e, w')) (rounds : ℕ) :
    writeAllLoop (rounds + 1) w (byte :: buf) =
      if e.kind = .interrupted then writeAllLoop rounds w' (byte :: buf)
      else (.error (.io e), w') := by
  rw [writeAllLoop, h]

/-- Each round accepts a byte or is interrupted. -/
def writeAll {W : Type} [Write W] (buf : List UInt8) : Call W Unit := fun w =>
  writeAllLoop (buf.length + Write.patience W + 1) w buf

/-- A growing buffer, which accepts everything. -/
structure Vec where
  bytes : List UInt8
  deriving DecidableEq

instance : Write Vec where
  write vec buf := (.ok buf.length, ⟨vec.bytes ++ buf⟩)
  flush vec := (.ok (), vec)
  patience := 0
  write_le vec buf n h := by
    cases h
    exact le_rfl

def writeZero : IoError := .new .writeZero "write zero"

/-- A sink together with the bytes it has accepted and the failures it has
reported: a write that takes nothing, an error other than an interruption, a
failed flush. -/
structure Logged (W : Type) where
  inner : W
  accepted : List UInt8
  failures : List IoError

instance {W : Type} [Write W] : Write (Logged W) where
  write w buf :=
    match Write.write w.inner buf with
    | (.ok n, inner) => (.ok n, ⟨inner, w.accepted ++ buf.take n,
        if n = 0 ∧ buf ≠ [] then w.failures ++ [writeZero] else w.failures⟩)
    | (.error e, inner) => (.error e, ⟨inner, w.accepted,
        if e.kind = .interrupted then w.failures else w.failures ++ [e]⟩)
  flush w :=
    match Write.flush w.inner with
    | (.ok (), inner) => (.ok (), { w with inner := inner })
    | (.error e, inner) => (.error e, { w with inner := inner, failures := w.failures ++ [e] })
  patience := Write.patience W
  write_le w buf n h := by
    rcases hwrite : Write.write w.inner buf with ⟨e | n', inner⟩
    · rw [hwrite] at h
      cases h
    · rw [hwrite] at h
      cases h
      exact Write.write_le w.inner buf n (by rw [hwrite])

structure SpoolOutput (W : Type) where
  inner : W
  bytes : ℕ
  failure : Option IoError

namespace SpoolOutput

variable {W : Type}

def new (inner : W) : SpoolOutput W := ⟨inner, 0, none⟩

def failed (out : SpoolOutput W) : Option IoError := out.failure.map .outputFailure

/-- Keep the first failure and return an error that shows it. -/
def remember (out : SpoolOutput W) (error : IoError) : IoError × SpoolOutput W :=
  let failure := out.failure.getD error
  (.outputFailure failure, { out with failure := some failure })

variable [Write W]

def write (out : SpoolOutput W) (buf : List UInt8) : Except IoError ℕ × SpoolOutput W :=
  match out.failed with
  | some error => (.error error, out)
  | none =>
      match Write.write out.inner buf with
      | (.ok written, inner) =>
          let out := { out with inner := inner }
          if written = 0 ∧ buf ≠ [] then
            let (error, out) := out.remember writeZero
            (.error error, out)
          else (.ok written, { out with bytes := out.bytes + written })
      | (.error error, inner) =>
          let out := { out with inner := inner }
          if error.kind = .interrupted then (.error error, out)
          else
            let (error, out) := out.remember error
            (.error error, out)

def flush (out : SpoolOutput W) : Except IoError Unit × SpoolOutput W :=
  match Write.flush out.inner with
  | (.error error, inner) =>
      let out := { out with inner := inner }
      if out.failure.isSome then (.error error, out)
      else
        let (error, out) := out.remember error
        (.error error, out)
  | (.ok (), inner) =>
      let out := { out with inner := inner }
      match out.failed with
      | some error => (.error error, out)
      | none => (.ok (), out)

end SpoolOutput

instance {W : Type} [Write W] : Write (SpoolOutput W) where
  write := SpoolOutput.write
  flush := SpoolOutput.flush
  patience := Write.patience W
  write_le out buf n h := by
    unfold SpoolOutput.write at h
    rcases hfailed : out.failed with _ | error
    · rw [hfailed] at h
      rcases hwrite : Write.write out.inner buf with ⟨e | n', inner⟩
      · simp only [hwrite] at h
        split at h <;> cases h
      · simp only [hwrite] at h
        split at h
        · cases h
        · cases h
          exact Write.write_le out.inner buf n (by rw [hwrite])
    · rw [hfailed] at h
      cases h

/-- How far a sequence of writes got. -/
inductive Progress
  | complete
  | failed (failure : IoError)
  | waiting
  deriving DecidableEq

/-- The result that a call reports for its progress. -/
def Progress.result : Progress → Except Stop Unit
  | complete => .ok ()
  | failed failure => .error (.io (.outputFailure failure))
  | waiting => .error .pending

def Progress.failure : Progress → Option IoError
  | failed failure => some failure
  | _ => none

variable {W : Type} {progress : Progress}

/-- From a sound output, the sink accepts a beginning of the bytes: all of them
or, if it fails or has to be waited for, not all of them. -/
structure Accepts (out out' : SpoolOutput (Logged W)) (buf : List UInt8) (progress : Progress) :
    Prop where
  accepted : ∃ taken, taken <+: buf ∧ (taken = buf ↔ progress = .complete) ∧
    out'.inner.accepted = out.inner.accepted ++ taken ∧ out'.bytes = out.bytes + taken.length
  failure : out'.failure = progress.failure
  failures : out'.inner.failures = out.inner.failures ++ progress.failure.toList
  kind : ∀ failure, progress = .failed failure → failure.kind ≠ .interrupted

/-- Bytes accepted in two steps. -/
theorem Accepts.trans {out mid out' : SpoolOutput (Logged W)} {first rest : List UInt8}
    (hfirst : Accepts out mid first .complete) (hrest : Accepts mid out' rest progress) :
    Accepts out out' (first ++ rest) progress where
  accepted := by
    obtain ⟨taken, _, hall, haccepted, hbytes⟩ := hfirst.accepted
    obtain ⟨taken', hprefix', hall', haccepted', hbytes'⟩ := hrest.accepted
    have htaken : taken = first := hall.mpr rfl
    subst htaken
    refine ⟨taken ++ taken', (List.prefix_append_right_inj taken).mpr hprefix', ?_, ?_, ?_⟩
    · rw [List.append_cancel_left_eq, hall']
    · rw [haccepted', haccepted, List.append_assoc]
    · rw [hbytes', hbytes, List.length_append, Nat.add_assoc]
  failure := hrest.failure
  failures := by
    rw [hrest.failures, hfirst.failures]
    show out.inner.failures ++ [] ++ _ = _
    rw [List.append_nil]
  kind := hrest.kind

/-- A write that stops inside the first bytes leaves the rest unwritten. -/
theorem Accepts.stop {out out' : SpoolOutput (Logged W)} {first : List UInt8}
    (h : Accepts out out' first progress) (hstop : progress ≠ .complete) (rest : List UInt8) :
    Accepts out out' (first ++ rest) progress where
  accepted := by
    obtain ⟨taken, hprefix, hall, haccepted, hbytes⟩ := h.accepted
    refine ⟨taken, hprefix.trans (List.prefix_append first rest), ?_, haccepted, hbytes⟩
    constructor
    · intro heq
      have hle := hprefix.length_le
      rw [heq, List.length_append] at hle
      have hnil : rest = [] := List.eq_nil_of_length_eq_zero (by omega)
      rw [hnil, List.append_nil] at heq
      exact hall.mp heq
    · intro hcomplete
      exact absurd hcomplete hstop
  failure := h.failure
  failures := h.failures
  kind := h.kind

/-- Nothing is accepted. -/
theorem accepts_nothing {out out' : SpoolOutput (Logged W)} (hall : buf = [] ↔ progress = .complete)
    (haccepted : out'.inner.accepted = out.inner.accepted) (hbytes : out'.bytes = out.bytes)
    (hfailure : out'.failure = progress.failure)
    (hfailures : out'.inner.failures = out.inner.failures ++ progress.failure.toList)
    (hkind : ∀ failure, progress = .failed failure → failure.kind ≠ .interrupted) :
    Accepts out out' buf progress := by
  refine ⟨⟨[], List.nil_prefix, ?_, ?_, hbytes⟩, hfailure, hfailures, hkind⟩
  · rw [eq_comm]
    exact hall
  · rw [haccepted, List.append_nil]

variable [Write W]

/-- One write on a sound output. -/
theorem write_cases (out : SpoolOutput (Logged W)) (hsound : out.failure = none) (hbuf : buf ≠ []) :
    (∃ n out', out.write buf = (.ok n, out') ∧ 0 < n ∧ n ≤ buf.length ∧
        out'.inner.accepted = out.inner.accepted ++ buf.take n ∧
        out'.bytes = out.bytes + n ∧ out'.failure = none ∧
        out'.inner.failures = out.inner.failures) ∨
      (∃ e out', out.write buf = (.error e, out') ∧
        out'.inner.accepted = out.inner.accepted ∧ out'.bytes = out.bytes ∧
        ((e.kind = .interrupted ∧ out'.failure = none ∧
            out'.inner.failures = out.inner.failures) ∨
          ∃ failure, e = .outputFailure failure ∧ failure.kind ≠ .interrupted ∧
            out'.failure = some failure ∧
            out'.inner.failures = out.inner.failures ++ [failure])) := by
  obtain ⟨logged, bytes, failure⟩ := out
  have hsound : failure = none := hsound
  subst hsound
  rcases hinner : Write.write logged.inner buf with ⟨e | n, inner⟩
  · have hlogged : Write.write logged buf = (.error e, (⟨inner, logged.accepted,
        if e.kind = .interrupted then logged.failures else logged.failures ++ [e]⟩ :
          Logged W)) := by
      simp only [Write.write, hinner]
    refine .inr ?_
    simp only [SpoolOutput.write, SpoolOutput.failed, Option.map_none, hlogged]
    by_cases hkind : e.kind = .interrupted
    · simp only [hkind, if_true]
      exact ⟨e, _, rfl, rfl, rfl, .inl ⟨hkind, rfl, rfl⟩⟩
    · simp only [hkind, if_false]
      exact ⟨_, _, rfl, rfl, rfl, .inr ⟨e, rfl, hkind, rfl, rfl⟩⟩
  · have hle := Write.write_le logged.inner buf n (by rw [hinner])
    have hlogged : Write.write logged buf = (.ok n, (⟨inner, logged.accepted ++ buf.take n,
        if n = 0 ∧ buf ≠ [] then logged.failures ++ [writeZero] else logged.failures⟩ :
          Logged W)) := by
      simp only [Write.write, hinner]
    simp only [SpoolOutput.write, SpoolOutput.failed, Option.map_none, hlogged]
    by_cases hzero : n = 0
    · subst hzero
      refine .inr ?_
      simp only [hbuf, ne_eq, not_false_eq_true, and_self, if_true]
      exact ⟨_, _, rfl, List.append_nil _, rfl, .inr ⟨writeZero, rfl, by decide, rfl, rfl⟩⟩
    · refine .inl ?_
      simp only [hzero, false_and, if_false]
      exact ⟨n, _, rfl, by omega, hle, rfl, rfl, rfl, rfl⟩

theorem writeAllLoop_accepts (rounds : ℕ) (out : SpoolOutput (Logged W))
    (hsound : out.failure = none) (buf : List UInt8) :
    ∃ out' progress, writeAllLoop rounds out buf = (progress.result, out') ∧
      Accepts out out' buf progress := by
  induction rounds generalizing out buf with
  | zero =>
    rcases buf with _ | ⟨byte, buf⟩
    · exact ⟨out, .complete, rfl, accepts_nothing (by simp) rfl rfl hsound (List.append_nil _).symm
        (by simp)⟩
    · exact ⟨out, .waiting, rfl, accepts_nothing (by simp) rfl rfl hsound (List.append_nil _).symm
        (by simp)⟩
  | succ rounds ih =>
    rcases buf with _ | ⟨byte, buf⟩
    · exact ⟨out, .complete, rfl, accepts_nothing (by simp) rfl rfl hsound (List.append_nil _).symm
        (by simp)⟩
    · rcases write_cases out hsound (List.cons_ne_nil byte buf) with
        ⟨n, mid, hwrite, hpos, hle, haccepted, hbytes, hmid, hfailures⟩ |
        ⟨e, mid, hwrite, haccepted, hbytes, hcases⟩
      · obtain ⟨out', progress, hloop, hrest⟩ := ih mid hmid ((byte :: buf).drop n)
        have hwrite' : Write.write out (byte :: buf) = (.ok n, mid) := hwrite
        have hround := writeAllLoop_ok hwrite' hpos rounds
        have htaken : Accepts out mid ((byte :: buf).take n) .complete := by
          refine ⟨⟨_, List.prefix_rfl, by simp, haccepted, ?_⟩, hmid,
            hfailures.trans (List.append_nil _).symm, by simp⟩
          rw [hbytes, List.length_take, Nat.min_eq_left hle]
        have hall := htaken.trans hrest
        rw [List.take_append_drop] at hall
        exact ⟨out', progress, hround.trans hloop, hall⟩
      · have hwrite' : Write.write out (byte :: buf) = (.error e, mid) := hwrite
        have hround := writeAllLoop_error hwrite' rounds
        rcases hcases with ⟨hkind, hmid, hfailures⟩ | ⟨failure, rfl, hkind, hmid, hfailures⟩
        · obtain ⟨out', progress, hloop, hrest⟩ := ih mid hmid (byte :: buf)
          have hnone : Accepts out mid [] .complete :=
            accepts_nothing (by simp) haccepted hbytes hmid
              (hfailures.trans (List.append_nil _).symm) (by simp)
          rw [if_pos hkind] at hround
          exact ⟨out', progress, hround.trans hloop, hnone.trans hrest⟩
        · have hkind' : ¬ (IoError.outputFailure failure).kind = .interrupted := hkind
          rw [if_neg hkind'] at hround
          refine ⟨mid, .failed failure, hround,
            accepts_nothing (by simp) haccepted hbytes hmid hfailures ?_⟩
          intro f hf
          cases hf
          exact hkind

/-- After a failure nothing is written, and the failure is reported again. -/
theorem write_failed {out : SpoolOutput W} {failure : IoError}
    (hfailed : out.failure = some failure) (buf : List UInt8) :
    Write.write out buf = (.error (.outputFailure failure), out) := by
  show out.write buf = _
  unfold SpoolOutput.write SpoolOutput.failed
  rw [hfailed]
  rfl

/-- A remembered interruption makes the loop try again for ever. -/
theorem writeAllLoop_failed {out : SpoolOutput W} {failure : IoError}
    (hfailed : out.failure = some failure) (hbuf : buf ≠ []) (rounds : ℕ) :
    writeAllLoop (rounds + 1) out buf =
      (.error (if failure.kind = .interrupted then .pending else .io (.outputFailure failure)),
        out) := by
  rcases buf with _ | ⟨byte, buf⟩
  · exact absurd rfl hbuf
  have hkind : (IoError.outputFailure failure).kind = failure.kind := rfl
  induction rounds with
  | zero =>
    rw [writeAllLoop_error (write_failed hfailed _), hkind]
    split <;> rfl
  | succ rounds ih =>
    rw [writeAllLoop_error (write_failed hfailed _), hkind, ih]
    split <;> rfl

end StackPulse.Output
