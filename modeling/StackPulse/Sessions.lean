import StackPulse.Realization

/-!
Whole sessions of the writer. A caller issues operation after operation and goes
on after an error; only a call that never returns stops it. On a buffer that
accepts everything a session writes exactly the records it plans.
-/
namespace StackPulse.Sessions

open Varint Model Decode Output Encode Writer Plans Realization

/-- A call that a user of the writer can make. -/
inductive Op
  | writeModule (module : ModuleRecord)
  | writeSampleFrames (timestampNs : UInt64) (processId : Int32) (threadId : UInt64)
      (frames : List FrameRecord)
  | writePythonRuntime (timestampNs : UInt64) (processId : Int32) (isPythonRuntime : Bool)
  | writeModuleDeactivation (processId : Int32)
  | writeModuleDeactivationOne (moduleId : UInt32)
  | flush
  deriving DecidableEq

/-- What a call returns: the stack id of a written sample, or nothing. -/
abbrev Outcome := Except Stop (Option UInt32)

namespace Op

variable (V : IntegerEncoding) {W : Type} [Write W]

def run : Op → Call (PerfSpoolWriter W) (Option UInt32)
  | .writeModule module => do
      Writer.writeModule V module
      return none
  | .writeSampleFrames timestampNs processId threadId frames =>
      Writer.writeSampleFrames V timestampNs processId threadId frames
  | .writePythonRuntime timestampNs processId isPythonRuntime => do
      Writer.writePythonRuntime V timestampNs processId isPythonRuntime
      return none
  | .writeModuleDeactivation processId => do
      Writer.writeModuleDeactivation V processId
      return none
  | .writeModuleDeactivationOne moduleId => do
      Writer.writeModuleDeactivationOne V moduleId
      return none
  | .flush => do
      Writer.flush
      return none

def plan : Op → Plan (Option UInt32)
  | .writeModule module => do
      planModule module
      return none
  | .writeSampleFrames timestampNs processId threadId frames =>
      planSample timestampNs processId threadId frames
  | .writePythonRuntime timestampNs processId isPythonRuntime => do
      planPythonRuntime timestampNs processId isPythonRuntime
      return none
  | .writeModuleDeactivation processId => do
      planModuleDeactivation processId
      return none
  | .writeModuleDeactivationOne moduleId => do
      planModuleDeactivationOne moduleId
      return none
  | .flush => return none

variable {V}

theorem run_realizes (c : Caches) {op : Op} (hop : op ≠ .flush) :
    Realizes V c (op.run V : Call (PerfSpoolWriter W) (Option UInt32)) (op.plan c) := by
  cases op with
  | writeModule module =>
    exact Realizes.bind (writeModule_realizes c module) fun _ _ _ => .pure _
  | writeSampleFrames timestampNs processId threadId frames =>
    exact writeSampleFrames_realizes c timestampNs processId threadId frames
  | writePythonRuntime timestampNs processId isPythonRuntime =>
    exact Realizes.bind (writePythonRuntime_realizes c timestampNs processId isPythonRuntime)
      fun _ _ _ => .pure _
  | writeModuleDeactivation processId =>
    exact Realizes.bind (writeModuleDeactivation_realizes c processId) fun _ _ _ => .pure _
  | writeModuleDeactivationOne moduleId =>
    exact Realizes.bind (writeModuleDeactivationOne_realizes c moduleId) fun _ _ _ => .pure _
  | flush => exact absurd rfl hop

end Op

/-- The errors of a plan are refusals; no plan waits. -/
theorem plan_refusal (op : Op) (c : Caches) {e : Stop} (h : (op.plan c).2 = .error e) :
    Refusal e := by
  cases op with
  | writeSampleFrames timestampNs processId threadId frames =>
    exact (planSample_emits (P := fun _ => True) (fun _ _ _ _ _ => trivial) (fun _ _ _ => trivial)
      (fun _ => trivial) fun _ _ _ => trivial).refusal c e h
  | _ => cases h

section

variable (V : IntegerEncoding) {W : Type} [Write W]

/-- Issue the calls one after another. A call that is still waiting is the last. -/
def runOps : List Op → PerfSpoolWriter W → List Outcome × PerfSpoolWriter W
  | [], s => ([], s)
  | op :: ops, s =>
      match op.run V s with
      | (.error .pending, s) => ([.error .pending], s)
      | (outcome, s) =>
          let (outcomes, s) := runOps ops s
          (outcome :: outcomes, s)

theorem runOps_cons_pending {op : Op} {s t : PerfSpoolWriter W}
    (h : op.run V s = (.error .pending, t)) (ops : List Op) :
    runOps V (op :: ops) s = ([.error .pending], t) := by
  rw [runOps, h]

theorem runOps_cons {op : Op} {s t : PerfSpoolWriter W} {outcome : Outcome}
    (h : op.run V s = (outcome, t)) (hne : outcome ≠ .error .pending) (ops : List Op) :
    runOps V (op :: ops) s = (outcome :: (runOps V ops t).1, (runOps V ops t).2) := by
  rw [runOps, h]
  split
  · rename_i heq
    exact absurd (congrArg Prod.fst heq) hne
  · rename_i heq
    cases heq
    rfl

/-- Create a writer on a sink and issue the calls. Without a writer there are none. -/
def session (sink : W) (header : SpoolHeader) (ops : List Op) :
    List Outcome × PerfSpoolWriter W :=
  match fromWriterWithOrigin V sink header with
  | (.ok (), s) => runOps V ops s
  | (.error e, s) => ([.error e], s)

end

/-- The records that the calls plan to write, and their outcomes. -/
def planOps : List Op → Caches → List SpoolRecord × List Outcome
  | [], _ => ([], [])
  | op :: ops, c =>
      let (records, outcome) := op.plan c
      let (more, outcomes) := planOps ops (c.absorbAll records)
      (records ++ more, outcome :: outcomes)

theorem planOps_cons (op : Op) (ops : List Op) (c : Caches) :
    planOps (op :: ops) c =
      ((op.plan c).1 ++ (planOps ops (c.absorbAll (op.plan c).1)).1,
        (op.plan c).2 :: (planOps ops (c.absorbAll (op.plan c).1)).2) := rfl

section

variable (V : IntegerEncoding)

def encodeAll (records : List SpoolRecord) : List UInt8 := records.flatMap (encode V)

theorem encodeAll_append (records more : List SpoolRecord) :
    encodeAll V (records ++ more) = encodeAll V records ++ encodeAll V more :=
  List.flatMap_append

theorem encodeAll_cons (record : SpoolRecord) (records : List SpoolRecord) :
    encodeAll V (record :: records) = encode V record ++ encodeAll V records :=
  List.flatMap_cons

/-- A sound output on a buffer that holds these bytes. -/
def buffered (bytes : List UInt8) : SpoolOutput Vec := ⟨⟨bytes⟩, bytes.length, none⟩

theorem writeAll_buffered (buf bytes : List UInt8) :
    writeAll buf (buffered bytes) = (.ok (), buffered (bytes ++ buf)) := by
  rcases buf with _ | ⟨byte, buf⟩
  · rw [List.append_nil]
    rfl
  · have hwrite : Write.write (buffered bytes) (byte :: buf) =
        (.ok (byte :: buf).length, buffered (bytes ++ byte :: buf)) := by
      show (buffered bytes).write (byte :: buf) = _
      unfold SpoolOutput.write buffered
      rw [List.length_append]
      rfl
    refine (writeAllLoop_ok hwrite (Nat.succ_pos _) _).trans ?_
    rw [List.drop_length]
    unfold writeAllLoop
    rfl

theorem writeChunks_buffered (pieces : List (List UInt8)) (bytes : List UInt8) :
    writeChunks pieces (buffered bytes) = (.ok (), buffered (bytes ++ pieces.flatten)) := by
  induction pieces generalizing bytes with
  | nil =>
    rw [List.flatten_nil, List.append_nil]
    rfl
  | cons piece pieces ih =>
    rw [writeChunks_cons, Call.bind_of_ok (writeAll_buffered piece bytes), ih,
      List.flatten_cons, List.append_assoc]

theorem emitAll_buffered (records : List SpoolRecord) (c : Caches) (bytes : List UInt8) :
    emitAll V records ⟨c, buffered bytes⟩ =
      (.ok (), ⟨c.absorbAll records, buffered (bytes ++ encodeAll V records)⟩) := by
  induction records generalizing c bytes with
  | nil =>
    show _ = (_, (⟨c, buffered (bytes ++ [])⟩ : PerfSpoolWriter Vec))
    rw [List.append_nil]
    rfl
  | cons record records ih =>
    have hwrite : onWriter (writeChunks (chunks V record)) ⟨c, buffered bytes⟩ =
        (.ok (), (⟨c, buffered (bytes ++ encode V record)⟩ : PerfSpoolWriter Vec)) := by
      unfold onWriter
      rw [writeChunks_buffered]
      rfl
    have hemit : emit V record ⟨c, buffered bytes⟩ =
        (.ok (), (⟨c.absorb record, buffered (bytes ++ encode V record)⟩ :
          PerfSpoolWriter Vec)) := by
      unfold emit
      rw [Call.bind_of_ok hwrite]
      rfl
    rw [emitAll, Call.bind_of_ok hemit, ih, encodeAll_cons, List.append_assoc]
    rfl

/-- One call on a buffer. -/
theorem run_buffered (op : Op) (c : Caches) (bytes : List UInt8) :
    op.run V ⟨c, buffered bytes⟩ =
      ((op.plan c).2,
        ⟨c.absorbAll (op.plan c).1, buffered (bytes ++ encodeAll V (op.plan c).1)⟩) := by
  by_cases hflush : op = .flush
  · subst hflush
    show _ = (_, (⟨c, buffered (bytes ++ [])⟩ : PerfSpoolWriter Vec))
    rw [List.append_nil]
    rfl
  · rw [Op.run_realizes c hflush _ rfl, Call.bind_of_ok (emitAll_buffered V _ c bytes)]
    rfl

theorem runOps_buffered (ops : List Op) (c : Caches) (bytes : List UInt8) :
    runOps V ops ⟨c, buffered bytes⟩ =
      ((planOps ops c).2, ⟨c.absorbAll (planOps ops c).1,
        buffered (bytes ++ encodeAll V (planOps ops c).1)⟩) := by
  induction ops generalizing c bytes with
  | nil =>
    show _ = (_, (⟨c, buffered (bytes ++ [])⟩ : PerfSpoolWriter Vec))
    rw [List.append_nil]
    rfl
  | cons op ops ih =>
    have hne : (op.plan c).2 ≠ .error .pending := by
      intro hpending
      obtain ⟨message, hmessage⟩ := plan_refusal op c hpending
      cases hmessage
    rw [runOps_cons V (run_buffered V op c bytes) hne, ih, planOps_cons, encodeAll_append,
      Caches.absorbAll_append, List.append_assoc]

/-- What a session leaves in a buffer: the header and the planned records. -/
theorem session_buffered (header : SpoolHeader) (ops : List Op) :
    session V (⟨[]⟩ : Vec) header ops =
      ((planOps ops .empty).2, ⟨Caches.empty.absorbAll (planOps ops .empty).1,
        buffered (encodeHeader V header ++ encodeAll V (planOps ops .empty).1)⟩) := by
  have hcreate : fromWriterWithOrigin V (⟨[]⟩ : Vec) header =
      (.ok (), ⟨.empty, buffered (encodeHeader V header)⟩) := by
    unfold fromWriterWithOrigin onWriter
    rw [writeHeader_eq]
    have hchunks := writeChunks_buffered (headerChunks V header) []
    rw [List.nil_append] at hchunks
    exact congrArg (fun p : Except Stop Unit × SpoolOutput Vec =>
      (p.1, (⟨.empty, p.2⟩ : PerfSpoolWriter Vec))) hchunks
  unfold session
  rw [hcreate]
  exact runOps_buffered V ops .empty _

end

end StackPulse.Sessions
