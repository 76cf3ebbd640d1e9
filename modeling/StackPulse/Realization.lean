import StackPulse.Plans

/-!
Carrying out a plan record by record is the operation itself, on every sink: each
record is written in its pieces and then noted in the caches.
-/
namespace StackPulse.Realization

open Varint Model Words Decode Output Encode Writer Plans

section

variable (V : IntegerEncoding) {W : Type} [Write W] {α β : Type}

/-- Write a record and note it. -/
def emit (record : SpoolRecord) : Call (PerfSpoolWriter W) Unit := do
  onWriter (writeChunks (chunks V record))
  modifyCaches fun c => c.absorb record

def emitAll : List SpoolRecord → Call (PerfSpoolWriter W) Unit
  | [] => return ()
  | record :: records => do
      emit V record
      emitAll records

/-- From these caches the operation does what the plan says, on every output. -/
def Realizes (c : Caches) (m : Call (PerfSpoolWriter W) α)
    (plan : List SpoolRecord × Except Stop α) : Prop :=
  ∀ s : PerfSpoolWriter W, s.toCaches = c →
    m s = (emitAll V plan.1 >>= fun _ => Call.ofExcept plan.2) s

theorem emitAll_append (records more : List SpoolRecord) :
    (emitAll V (records ++ more) : Call (PerfSpoolWriter W) Unit) =
      emitAll V records >>= fun _ => emitAll V more := by
  induction records with
  | nil =>
    have hpure : (emitAll V [] : Call (PerfSpoolWriter W) Unit) = pure () := rfl
    rw [List.nil_append, hpure, pure_bind]
  | cons record records ih =>
    show (emit V record >>= fun _ => emitAll V (records ++ more)) =
      (emit V record >>= fun _ => emitAll V records) >>= fun _ => emitAll V more
    rw [ih, bind_assoc]

theorem emit_caches {record : SpoolRecord} {s t : PerfSpoolWriter W}
    (h : emit V record s = (.ok (), t)) : t.toCaches = s.toCaches.absorb record := by
  unfold emit at h
  rcases hwrite : onWriter (writeChunks (chunks V record)) s with ⟨e | u, s'⟩
  · rw [Call.bind_of_error hwrite] at h
    cases h
  · rw [Call.bind_of_ok hwrite] at h
    have hstate : (onWriter (writeChunks (chunks V record)) s).2 = s' := by rw [hwrite]
    have hsame : s'.toCaches = s.toCaches := by
      rw [← hstate]
      rfl
    cases h
    show s'.toCaches.absorb record = _
    rw [hsame]

/-- Records that were all written are all noted. -/
theorem emitAll_caches {records : List SpoolRecord} {s t : PerfSpoolWriter W}
    (h : emitAll V records s = (.ok (), t)) : t.toCaches = s.toCaches.absorbAll records := by
  induction records generalizing s with
  | nil =>
    cases h
    rfl
  | cons record records ih =>
    unfold emitAll at h
    rcases hemit : emit V record s with ⟨e | u, s'⟩
    · rw [Call.bind_of_error hemit] at h
      cases h
    · rw [Call.bind_of_ok hemit] at h
      rw [ih h, emit_caches V hemit]
      rfl

namespace Realizes

variable {V} {c : Caches}

theorem ofExcept (r : Except Stop α) :
    Realizes V c (Call.ofExcept r : Call (PerfSpoolWriter W) α) ([], r) :=
  fun _ _ => rfl

theorem bind {m : Call (PerfSpoolWriter W) α} {f : α → Call (PerfSpoolWriter W) β}
    {p : Plan α} {q : α → Plan β} (hm : Realizes V c m (p c))
    (hf : ∀ records a, p c = (records, .ok a) →
      Realizes V (c.absorbAll records) (f a) (q a (c.absorbAll records))) :
    Realizes V c (m >>= f) ((p >>= q) c) := by
  intro s hs
  have hfirst := hm s hs
  rcases hp : p c with ⟨records, e | a⟩
  · rw [Plan.bind_of_error hp]
    rw [hp] at hfirst
    rcases hall : emitAll V records s with ⟨e' | u, t⟩
    · rw [Call.bind_of_error hall] at hfirst
      rw [Call.bind_of_error hfirst, Call.bind_of_error hall]
    · rw [Call.bind_of_ok hall] at hfirst
      rw [Call.bind_of_ok hall, Call.bind_of_error hfirst]
      rfl
  · rcases hq : q a (c.absorbAll records) with ⟨more, result⟩
    rw [Plan.bind_of_ok hp hq]
    rw [hp] at hfirst
    rw [emitAll_append, bind_assoc]
    rcases hall : emitAll V records s with ⟨e' | u, t⟩
    · rw [Call.bind_of_error hall] at hfirst
      rw [Call.bind_of_error hfirst, Call.bind_of_error hall]
    · rw [Call.bind_of_ok hall] at hfirst
      rw [Call.bind_of_ok hall, Call.bind_of_ok hfirst]
      have hcaches := emitAll_caches V hall
      rw [hs] at hcaches
      have hnext := hf records a hp t hcaches
      rw [hq] at hnext
      exact hnext

theorem pure (a : α) :
    Realizes V c (Pure.pure a : Call (PerfSpoolWriter W) α) ((Pure.pure a : Plan α) c) :=
  fun _ _ => rfl

theorem bind_get {f : Caches → Call (PerfSpoolWriter W) β} {q : Caches → Plan β}
    (h : Realizes V c (f c) (q c c)) : Realizes V c (getCaches >>= f) ((Plan.get >>= q) c) := by
  intro s hs
  have hget : (getCaches : Call (PerfSpoolWriter W) Caches) s = (.ok c, s) := by
    rw [← hs]
    rfl
  rw [Call.bind_of_ok hget, Plan.get_bind]
  exact h s hs

theorem bind_ofExcept {r : Except Stop α} {f : α → Call (PerfSpoolWriter W) β}
    {q : α → Plan β} (h : ∀ a, r = .ok a → Realizes V c (f a) (q a c)) :
    Realizes V c (Call.ofExcept r >>= f) ((Plan.ofExcept r >>= q) c) := by
  rcases r with e | a
  · exact fun _ _ => rfl
  · intro s hs
    rw [Plan.ofExcept_ok_bind]
    exact h a rfl s hs

theorem emit (record : SpoolRecord) :
    Realizes V c (Realization.emit V record : Call (PerfSpoolWriter W) Unit)
      (Plan.emit record c) := by
  intro s _
  show _ = ((Realization.emit V record >>= fun _ => Pure.pure ()) >>= fun _ => Pure.pure ()) s
  rw [bind_assoc]
  simp only [pure_bind]
  exact congrFun (bind_pure_unit).symm s

/-- Writing the pieces of a record, then changing the caches as the record says. -/
theorem note {record : SpoolRecord} {w : Call (SpoolOutput W) Unit}
    {f : Unit → Call (PerfSpoolWriter W) Unit} (hw : w = writeChunks (chunks V record))
    (hf : ∀ s, s.toCaches = c → f () s = (.ok (), { s with toCaches := c.absorb record })) :
    Realizes V c (onWriter w >>= f) (Plan.emit record c) := by
  intro s hs
  have hemit := Realizes.emit (V := V) (c := c) record s hs
  rw [← hemit, hw]
  unfold Realization.emit
  rcases hwrite : onWriter (writeChunks (chunks V record)) s with ⟨e | u, t⟩
  · rw [Call.bind_of_error hwrite, Call.bind_of_error hwrite]
  · have ht : t.toCaches = c := by
      have hsame : (onWriter (writeChunks (chunks V record)) s).2.toCaches = s.toCaches := rfl
      rw [hwrite] at hsame
      exact hsame.trans hs
    rw [Call.bind_of_ok hwrite, Call.bind_of_ok hwrite, hf t ht, ← ht]
    rfl

end Realizes

variable {V} (c : Caches)

theorem writeModule_realizes (module : ModuleRecord) :
    Realizes V c (writeModule V module : Call (PerfSpoolWriter W) Unit) (planModule module c) := by
  refine Realizes.note (writeModuleFields_eq V module) fun s hs => ?_
  refine (Call.bind_of_ok rfl).trans ?_
  subst hs
  by_cases hkernel : module.isKernel = true
  · rw [if_pos hkernel]
    simp only [Caches.absorb, hkernel, if_true]
    rfl
  · rw [if_neg hkernel]
    simp only [Caches.absorb, hkernel, Bool.false_eq_true, if_false]
    rfl

theorem writePythonRuntime_realizes (timestampNs : UInt64) (processId : Int32)
    (isPythonRuntime : Bool) :
    Realizes V c
      (writePythonRuntime V timestampNs processId isPythonRuntime : Call (PerfSpoolWriter W) Unit)
      (planPythonRuntime timestampNs processId isPythonRuntime c) := by
  have hchunks : (do
      writeAll [REC_PYTHON_RUNTIME]
      writeVarint V timestampNs
      writeVarint V processId.toInt64
      writeAll [u8From isPythonRuntime] : Call (SpoolOutput W) Unit) =
      writeChunks (chunks V (.pythonRuntime timestampNs processId isPythonRuntime)) := by
    simp only [chunks, writeChunks_cons, writeChunks_nil, writeVarint, bind_pure_unit]
  have hnote := Realizes.note (c := c) (f := pure) hchunks fun s hs => by rw [← hs]; rfl
  rw [bind_pure] at hnote
  exact hnote

theorem writeModuleDeactivation_realizes (processId : Int32) :
    Realizes V c (writeModuleDeactivation V processId : Call (PerfSpoolWriter W) Unit)
      (planModuleDeactivation processId c) := by
  refine Realizes.note ?_ fun s hs => by rw [← hs]; rfl
  simp only [chunks, writeChunks_cons, writeChunks_nil, writeVarint, bind_pure_unit]

theorem writeModuleDeactivationOne_realizes (moduleId : UInt32) :
    Realizes V c (writeModuleDeactivationOne V moduleId : Call (PerfSpoolWriter W) Unit)
      (planModuleDeactivationOne moduleId c) := by
  refine Realizes.note ?_ fun s hs => ?_
  · simp only [chunks, writeChunks_cons, writeChunks_nil, writeVarint, bind_pure_unit]
  · subst hs
    refine (Call.bind_of_ok rfl).trans ((Call.bind_of_ok rfl).trans ?_)
    by_cases hmem : moduleId ∈ s.kernelModuleIds
    · refine (congrFun (if_pos hmem) _).trans ?_
      simp only [Caches.absorb, hmem, if_true]
      rfl
    · refine (congrFun (if_neg hmem) _).trans ?_
      simp only [Caches.absorb, hmem, if_false, Finset.erase_eq_of_notMem hmem]
      rfl

theorem internThread_realizes (processId : Int32) (threadId : UInt64) :
    Realizes V c (internThread V processId threadId : Call (PerfSpoolWriter W) UInt32)
      (planThread processId threadId c) := by
  refine Realizes.bind_get ?_
  rcases hlookup : c.threadCache.lookup (processId, threadId) with _ | id
  · refine Realizes.bind_ofExcept fun id _ => ?_
    rw [← bind_assoc]
    refine Realizes.bind (Realizes.note (writeChunks_single _).symm fun s hs => ?_)
      fun _ _ _ => .pure _
    rw [← hs]
    rfl
  · exact .pure id

theorem shiftLeft_one_and_one (n : UInt64) : (n <<< 1) &&& 1 = 0 := by
  apply UInt64.toNat_inj.mp
  rw [UInt64.toNat_and, UInt64.toNat_shiftLeft]
  show (n.toNat <<< 1 % 2 ^ 64) &&& 1 = 0
  rw [Nat.and_one_is_mod, Nat.shiftLeft_eq]
  omega

/-- The cache of a frame is the cache of its tag. -/
theorem cacheOfTag_eq {frame : FrameRecord} {key : UInt64 × UInt64}
    (h : compactFrame frame = .ok key) : cacheOfTag key.1 = frameCacheOf frame := by
  unfold compactFrame at h
  unfold frameCacheOf
  by_cases hmarker : frame.mode = .truncatedStackMarker
  · rw [if_pos hmarker] at h
    by_cases hexact : frame = .truncatedStackMarker
    · subst hexact
      cases h
      decide
    · rw [if_pos hexact] at h
      cases h
  · rw [if_neg hmarker] at h
    have hplain : frame.isTruncatedStackMarker = false := by
      unfold FrameRecord.isTruncatedStackMarker
      rw [beq_eq_false_iff_ne]
      rintro rfl
      exact hmarker rfl
    cases h
    rcases hid : frame.moduleId with _ | id
    · by_cases hkernel : frame.mode = .kernel
      · simp only [hkernel, hplain, if_true]
        decide
      · simp only [hkernel, hplain, if_false]
        decide
    · have hlow := shiftLeft_one_and_one id.toUInt64
      unfold cacheOfTag
      rw [if_pos (Or.inr hlow)]
      rfl

theorem internFrame_realizes (frame : FrameRecord) :
    Realizes V c (internFrame V frame : Call (PerfSpoolWriter W) UInt32) (planFrame frame c) := by
  refine Realizes.bind_ofExcept fun key hcompact => Realizes.bind_get ?_
  rcases hlookup : (c.frameCache (frameCacheOf frame)).lookup key with _ | id
  · simp only []
    by_cases hfull : c.nextFrameId = NONE_U32
    · rw [if_pos hfull, if_pos hfull]
      exact .ofExcept _
    · rw [if_neg hfull, if_neg hfull]
      have hlt : c.nextFrameId.toNat + 1 < 2 ^ 32 := by
        have hbound := c.nextFrameId.toNat_lt
        have hne : c.nextFrameId.toNat ≠ NONE_U32.toNat := fun h => hfull (UInt32.toNat_inj.mp h)
        have hmax : NONE_U32.toNat = 2 ^ 32 - 1 := rfl
        omega
      simp only [if_pos hlt]
      rw [← bind_assoc, ← bind_assoc, bind_assoc (onWriter _)]
      refine Realizes.bind (Realizes.note (writeChunks_single _).symm fun s hs => ?_)
        fun _ _ _ => .pure _
      rw [← hs, ← cacheOfTag_eq hcompact]
      rfl
  · exact .pure id

/-- The loop over the frames of a stack. -/
theorem internNodes_realizes (frames : List FrameRecord) (parent : UInt32) :
    Realizes V c (internNodes V parent frames : Call (PerfSpoolWriter W) UInt32)
      (planNodes parent frames c) := by
  induction frames generalizing c parent with
  | nil => exact .pure parent
  | cons frame frames ih =>
    refine Realizes.bind (internFrame_realizes c frame) fun first frameId _ => ?_
    generalize c.absorbAll first = c'
    refine Realizes.bind_get ?_
    rcases hlookup : c'.stackCache.lookup (parent, frameId) with _ | stackId
    · refine Realizes.bind_ofExcept fun stackId _ => ?_
      rw [← bind_assoc]
      refine Realizes.bind (Realizes.note (writeChunks_single _).symm fun s hs => ?_)
        fun _ _ _ => ih _ stackId
      rw [← hs]
      rfl
    · exact ih c' stackId

theorem internStack_realizes (frames : List FrameRecord) :
    Realizes V c (internStack V frames : Call (PerfSpoolWriter W) (Option UInt32))
      (planStack frames c) :=
  Realizes.bind (internNodes_realizes c frames.reverse NONE_U32) fun _ _ _ => .pure _

/-- The reader's baseline after the delta is the timestamp of the sample. -/
theorem checkedAddSigned_delta {lastTimestampNs timestampNs : UInt64} {delta : Int64}
    (h : checkedSampleTimestampDelta lastTimestampNs timestampNs = .ok delta) :
    checkedAddSigned lastTimestampNs delta = some timestampNs := by
  unfold checkedSampleTimestampDelta at h
  dsimp only at h
  split at h
  · rename_i hrange
    cases h
    rw [checkedAddSigned_eq_some, Int64.toInt_ofInt_of_le hrange.1 hrange.2]
    omega
  · cases h

theorem writeSampleFrames_realizes (timestampNs : UInt64) (processId : Int32)
    (threadId : UInt64) (frames : List FrameRecord) :
    Realizes V c (writeSampleFrames V timestampNs processId threadId frames :
        Call (PerfSpoolWriter W) (Option UInt32))
      (planSample timestampNs processId threadId frames c) := by
  unfold writeSampleFrames planSample
  by_cases hframes : frames = []
  · rw [if_pos hframes, if_pos hframes]
    exact .pure none
  rw [if_neg hframes, if_neg hframes]
  refine Realizes.bind_get (Realizes.bind_ofExcept fun delta hdelta => ?_)
  refine Realizes.bind (internStack_realizes c frames) fun first stack hstack => ?_
  rcases stack with _ | stackId
  · exact .pure none
  refine Realizes.bind (internThread_realizes _ processId threadId) fun more thread hthread => ?_
  rw [← bind_assoc]
  refine Realizes.bind (Realizes.note (writeChunks_single _).symm fun s hs => ?_)
    fun _ _ _ => .pure _
  -- The definitions written on the way have left the baseline of the delta alone.
  have hbase : s.lastTimestampNs = c.lastTimestampNs := by
    have hfirst := (planStack_defines frames).records c
    rw [hstack] at hfirst
    have hmore := (planThread_defines processId threadId).records (c.absorbAll first)
    rw [hthread] at hmore
    rw [hs, absorbAll_lastTimestampNs _ hmore, absorbAll_lastTimestampNs _ hfirst]
  have hnext : checkedAddSigned s.lastTimestampNs delta = some timestampNs := by
    rw [hbase]
    exact checkedAddSigned_delta hdelta
  rw [← hs]
  simp only [Caches.absorb, hnext, Option.getD_some]
  rfl

end

end StackPulse.Realization
