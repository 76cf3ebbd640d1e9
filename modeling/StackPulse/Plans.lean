import StackPulse.Attempts
import StackPulse.Writer

/-!
What the writer does, apart from its sink. The caches are a function of the
records that were written, so an operation amounts to a plan: the records it is
going to write and the result it returns if all of them reach the sink.
-/

namespace StackPulse.Writer

open Model Words Decode Encode

/-- The cache that holds a frame record with this tag. -/
def cacheOfTag (tag : UInt64) : FrameCache :=
  if tag = TRUNCATED_STACK_MARKER_TAG ∨ tag &&& 1 = 0 then .pinned
  else if tag &&& 2 ≠ 0 then .kernel
  else .unpinned

namespace Caches

/-- The caches after a record. -/
def absorb (c : Caches) : SpoolRecord → Caches
  | .module module =>
      { c with
        unpinnedFrameCache := ∅
        kernelModuleIds :=
          if module.isKernel then insert module.id c.kernelModuleIds else c.kernelModuleIds
        kernelFrameCache := if module.isKernel then ∅ else c.kernelFrameCache }
  | .frame id tag address =>
      { c.insertFrame (cacheOfTag tag) (tag, address) id with nextFrameId := id + 1 }
  | .stack id parent frameId => { c with stackCache := c.stackCache.insert (parent, frameId) id }
  | .thread id processId threadId =>
      { c with threadCache := c.threadCache.insert (processId, threadId) id }
  | .sample delta _ _ =>
      { c with
        lastTimestampNs := (checkedAddSigned c.lastTimestampNs delta).getD c.lastTimestampNs }
  | .pythonRuntime _ _ _ => c
  | .moduleDeactivation _ => { c with unpinnedFrameCache := ∅ }
  | .moduleDeactivationOne moduleId =>
      { c with
        unpinnedFrameCache := ∅
        kernelModuleIds := c.kernelModuleIds.erase moduleId
        kernelFrameCache := if moduleId ∈ c.kernelModuleIds then ∅ else c.kernelFrameCache }

def absorbAll (c : Caches) (records : List SpoolRecord) : Caches := records.foldl absorb c

theorem absorbAll_append (c : Caches) (records more : List SpoolRecord) :
    c.absorbAll (records ++ more) = (c.absorbAll records).absorbAll more := List.foldl_append

end Caches

end StackPulse.Writer

namespace StackPulse.Plans

open Attempts Model Words Decode Encode Writer

/-- The records an operation writes from these caches, and its result. -/
def Plan (α : Type) := Caches → List SpoolRecord × Except Stop α

namespace Plan

variable {α β : Type} {records : List SpoolRecord}

def ofExcept (r : Except Stop α) : Plan α := fun _ => ([], r)

def get : Plan Caches := fun c => ([], .ok c)

def emit (record : SpoolRecord) : Plan Unit := fun _ => ([record], .ok ())

protected def bind (p : Plan α) (q : α → Plan β) : Plan β := fun c =>
  match p c with
  | (records, .error e) => (records, .error e)
  | (records, .ok a) =>
      let (more, result) := q a (c.absorbAll records)
      (records ++ more, result)

instance : Monad Plan where
  pure a := ofExcept (.ok a)
  bind := Plan.bind

theorem bind_of_ok {p : Plan α} {q : α → Plan β} {c : Caches} {more : List SpoolRecord} {a : α}
    {result : Except Stop β} (hp : p c = (records, .ok a))
    (hq : q a (c.absorbAll records) = (more, result)) :
    (p >>= q) c = (records ++ more, result) := by
  show Plan.bind p q c = _
  unfold Plan.bind
  rw [hp]
  simp only [hq]

theorem bind_of_error {p : Plan α} {q : α → Plan β} {c : Caches} {e : Stop}
    (hp : p c = (records, .error e)) : (p >>= q) c = (records, .error e) := by
  show Plan.bind p q c = _
  unfold Plan.bind
  rw [hp]

theorem get_bind (q : Caches → Plan β) (c : Caches) : (Plan.get >>= q) c = q c c := rfl

theorem ofExcept_ok_bind (a : α) (q : α → Plan β) (c : Caches) :
    (ofExcept (.ok a) >>= q) c = q a c := rfl

/-- A plan of two parts, taken apart. -/
theorem bind_cases {p : Plan α} {q : α → Plan β} {c : Caches} {result : Except Stop β}
    (h : (p >>= q) c = (records, result)) : (∃ e, p c = (records, .error e) ∧ result = .error e) ∨
      ∃ first a rest, p c = (first, .ok a) ∧
        q a (c.absorbAll first) = (rest, result) ∧ records = first ++ rest := by
  rcases hp : p c with ⟨first, e | a⟩
  · rw [bind_of_error hp] at h
    cases h
    exact .inl ⟨e, rfl, rfl⟩
  · rcases hq : q a (c.absorbAll first) with ⟨rest, result'⟩
    rw [bind_of_ok hp hq] at h
    cases h
    exact .inr ⟨first, a, rest, rfl, hq, rfl⟩

end Plan

/-- The operation refuses its arguments before it writes anything for them. -/
def Refusal (e : Stop) : Prop := ∃ message, e = invalidInput message

/-- Every record of the plan satisfies `P`, and its own errors are refusals. -/
structure Plan.Emits {α : Type} (P : SpoolRecord → Prop) (p : Plan α) : Prop where
  records : ∀ c, ∀ record ∈ (p c).1, P record
  refusal : ∀ c e, (p c).2 = .error e → Refusal e

namespace Plan.Emits

variable {α β : Type} {P : SpoolRecord → Prop}

theorem ofExcept {r : Except Stop α} (h : FailsWith Refusal r) : (Plan.ofExcept r).Emits P :=
  ⟨fun _ record hmem => absurd hmem (List.not_mem_nil (a := record)), fun _ e he => h e he⟩

theorem pure (a : α) : (Pure.pure a : Plan α).Emits P := ofExcept fun _ he => by cases he

theorem get : Plan.get.Emits P :=
  ⟨fun _ record hmem => absurd hmem (List.not_mem_nil (a := record)),
    fun _ _ he => by cases he⟩

theorem emit {record : SpoolRecord} (h : P record) : (Plan.emit record).Emits P := by
  refine ⟨fun c r hr => ?_, fun _ _ he => by cases he⟩
  rw [List.mem_singleton.mp hr]
  exact h

theorem bind {p : Plan α} {q : α → Plan β} (hp : p.Emits P) (hq : ∀ a, (q a).Emits P) :
    (p >>= q).Emits P := by
  have hcases : ∀ c, (∀ record ∈ ((p >>= q) c).1, P record) ∧
      ∀ e, ((p >>= q) c).2 = .error e → Refusal e := by
    intro c
    have hrecords := hp.records c
    have hrefusal := hp.refusal c
    rcases h : (p >>= q) c with ⟨records, result⟩
    rcases Plan.bind_cases h with ⟨e, hfirst, rfl⟩ | ⟨first, a, rest, hfirst, hrest, rfl⟩
    · rw [hfirst] at hrecords hrefusal
      refine ⟨hrecords, fun e' he' => ?_⟩
      cases he'
      exact hrefusal e rfl
    · have hrecords' := (hq a).records (c.absorbAll first)
      have hrefusal' := (hq a).refusal (c.absorbAll first)
      rw [hrest] at hrecords' hrefusal'
      rw [hfirst] at hrecords
      refine ⟨fun record hmem => ?_, hrefusal'⟩
      rcases List.mem_append.mp hmem with hleft | hright
      · exact hrecords record hleft
      · exact hrecords' record hright
  exact ⟨fun c => (hcases c).1, fun c => (hcases c).2⟩

theorem bind_ofExcept {r : Except Stop α} {q : α → Plan β} (hr : FailsWith Refusal r)
    (hq : ∀ a, r = .ok a → (q a).Emits P) : (Plan.ofExcept r >>= q).Emits P := by
  rcases r with e | a
  · exact ⟨fun _ record hmem => absurd hmem (List.not_mem_nil (a := record)),
      fun _ e' he' => by cases he'; exact hr e rfl⟩
  · exact ⟨fun c => (hq a rfl).records c, fun c => (hq a rfl).refusal c⟩

end Plan.Emits

theorem compactFrame_error {frame : FrameRecord} : FailsWith Refusal (compactFrame frame) :=
  .ite (fun _ => .ite (fun _ => .error ⟨_, rfl⟩) fun _ => .ok _) fun _ => .ok _

theorem nextSpoolId_error {len : ℕ} {kind : String} : FailsWith Refusal (nextSpoolId len kind) :=
  .ite (fun _ => .ite (fun _ => .error ⟨_, rfl⟩) fun _ => .ok _) fun _ => .error ⟨_, rfl⟩

theorem checkedSampleTimestampDelta_error {lastTimestampNs timestampNs : UInt64} :
    FailsWith Refusal (checkedSampleTimestampDelta lastTimestampNs timestampNs) :=
  .ite (fun _ => .ok _) fun _ => .error ⟨_, rfl⟩

def planModule (module : ModuleRecord) : Plan Unit := Plan.emit (.module module)

def planThread (processId : Int32) (threadId : UInt64) : Plan UInt32 := do
  let caches ← Plan.get
  match caches.threadCache.lookup (processId, threadId) with
  | some id => return id
  | none => do
      let id ← Plan.ofExcept (nextSpoolId caches.threadCache.entries.length "thread")
      Plan.emit (.thread id processId threadId)
      return id

def planFrame (frame : FrameRecord) : Plan UInt32 := do
  let key ← Plan.ofExcept (compactFrame frame)
  let caches ← Plan.get
  match (caches.frameCache (frameCacheOf frame)).lookup key with
  | some id => return id
  | none =>
      if caches.nextFrameId = NONE_U32 then
        Plan.ofExcept (.error (invalidInput "frame id space exhausted"))
      else do
        Plan.emit (.frame caches.nextFrameId key.1 key.2)
        return caches.nextFrameId

def planNodes (parent : UInt32) : List FrameRecord → Plan UInt32
  | [] => return parent
  | frame :: frames => do
      let frameId ← planFrame frame
      let caches ← Plan.get
      match caches.stackCache.lookup (parent, frameId) with
      | some stackId => planNodes stackId frames
      | none => do
          let stackId ← Plan.ofExcept (nextSpoolId caches.stackCache.entries.length "stack")
          Plan.emit (.stack stackId parent frameId)
          planNodes stackId frames

def planStack (frames : List FrameRecord) : Plan (Option UInt32) := do
  let parent ← planNodes NONE_U32 frames.reverse
  return if parent ≠ NONE_U32 then some parent else none

def planSample (timestampNs : UInt64) (processId : Int32) (threadId : UInt64)
    (frames : List FrameRecord) : Plan (Option UInt32) :=
  if frames = [] then return none
  else do
    let caches ← Plan.get
    let delta ← Plan.ofExcept (checkedSampleTimestampDelta caches.lastTimestampNs timestampNs)
    match ← planStack frames with
    | none => return none
    | some stackId => do
        let threadId ← planThread processId threadId
        Plan.emit (.sample delta threadId stackId)
        return some stackId

def planPythonRuntime (timestampNs : UInt64) (processId : Int32) (isPythonRuntime : Bool) :
    Plan Unit := Plan.emit (.pythonRuntime timestampNs processId isPythonRuntime)

def planModuleDeactivation (processId : Int32) : Plan Unit :=
  Plan.emit (.moduleDeactivation processId)

def planModuleDeactivationOne (moduleId : UInt32) : Plan Unit :=
  Plan.emit (.moduleDeactivationOne moduleId)

section

variable {P : SpoolRecord → Prop}

theorem planThread_emits {processId : Int32} {threadId : UInt64}
    (h : ∀ id, P (.thread id processId threadId)) : (planThread processId threadId).Emits P := by
  refine .bind .get fun caches => ?_
  rcases caches.threadCache.lookup (processId, threadId) with _ | id
  · exact .bind (.ofExcept nextSpoolId_error) fun id =>
      .bind (.emit (h id)) fun _ => .pure id
  · exact .pure id

theorem planFrame_emits {frame : FrameRecord}
    (h : ∀ key id, compactFrame frame = .ok key → P (.frame id key.1 key.2)) :
    (planFrame frame).Emits P := by
  refine .bind_ofExcept compactFrame_error fun key hkey => .bind .get fun caches => ?_
  rcases (caches.frameCache (frameCacheOf frame)).lookup key with _ | id
  · by_cases hfull : caches.nextFrameId = NONE_U32
    · simp only [hfull, if_true]
      refine .ofExcept fun e he => ?_
      cases he
      exact ⟨_, rfl⟩
    · simp only [hfull, if_false]
      exact .bind (.emit (h key _ hkey)) fun _ => .pure _
  · exact .pure id

theorem planNodes_emits {frames : List FrameRecord}
    (hframe : ∀ frame ∈ frames, ∀ key id, compactFrame frame = .ok key → P (.frame id key.1 key.2))
    (hstack : ∀ id parent frameId, P (.stack id parent frameId)) (parent : UInt32) :
    (planNodes parent frames).Emits P := by
  induction frames generalizing parent with
  | nil => exact .pure parent
  | cons frame frames ih =>
    have hrest := ih fun f hf => hframe f (List.mem_cons_of_mem frame hf)
    refine .bind (planFrame_emits (hframe frame (.head _))) fun frameId =>
      .bind .get fun caches => ?_
    rcases caches.stackCache.lookup (parent, frameId) with _ | stackId
    · exact .bind (.ofExcept nextSpoolId_error) fun stackId =>
        .bind (.emit (hstack _ _ _)) fun _ => hrest stackId
    · exact hrest stackId

theorem planStack_emits {frames : List FrameRecord}
    (hframe : ∀ frame ∈ frames, ∀ key id, compactFrame frame = .ok key → P (.frame id key.1 key.2))
    (hstack : ∀ id parent frameId, P (.stack id parent frameId)) : (planStack frames).Emits P :=
  .bind (planNodes_emits (fun frame hmem => hframe frame (List.mem_reverse.mp hmem)) hstack
    NONE_U32) fun _ => .pure _

theorem planSample_emits {timestampNs : UInt64} {processId : Int32} {threadId : UInt64}
    {frames : List FrameRecord}
    (hframe : ∀ frame ∈ frames, ∀ key id, compactFrame frame = .ok key → P (.frame id key.1 key.2))
    (hstack : ∀ id parent frameId, P (.stack id parent frameId))
    (hthread : ∀ id, P (.thread id processId threadId))
    (hsample : ∀ delta thread stack, P (.sample delta thread stack)) :
    (planSample timestampNs processId threadId frames).Emits P := by
  unfold planSample
  by_cases hempty : frames = []
  · rw [if_pos hempty]
    exact .pure none
  rw [if_neg hempty]
  refine .bind .get fun caches =>
    .bind (.ofExcept checkedSampleTimestampDelta_error) fun delta => ?_
  refine .bind (planStack_emits hframe hstack) fun stack => ?_
  rcases stack with _ | stackId
  · exact .pure none
  · exact .bind (planThread_emits hthread) fun thread => .bind (.emit (hsample _ _ _))
      fun _ => .pure _

end

/-- The record defines a frame, a stack or a thread. -/
def Defines : SpoolRecord → Prop
  | .frame _ _ _ | .stack _ _ _ | .thread _ _ _ => True
  | _ => False

theorem planThread_defines (processId : Int32) (threadId : UInt64) :
    (planThread processId threadId).Emits Defines := planThread_emits fun _ => trivial

theorem planFrame_defines (frame : FrameRecord) : (planFrame frame).Emits Defines :=
  planFrame_emits fun _ _ _ => trivial

theorem planNodes_defines (frames : List FrameRecord) (parent : UInt32) :
    (planNodes parent frames).Emits Defines :=
  planNodes_emits (fun _ _ _ _ _ => trivial) (fun _ _ _ => trivial) parent

theorem planStack_defines (frames : List FrameRecord) : (planStack frames).Emits Defines :=
  planStack_emits (fun _ _ _ _ _ => trivial) fun _ _ _ => trivial

/-- Only samples move the timestamp baseline. -/
theorem absorbAll_lastTimestampNs {records : List SpoolRecord} (c : Caches)
    (h : ∀ record ∈ records, Defines record) :
    (c.absorbAll records).lastTimestampNs = c.lastTimestampNs := by
  induction records generalizing c with
  | nil => rfl
  | cons record records ih =>
    have hfirst : (c.absorb record).lastTimestampNs = c.lastTimestampNs := by
      have hdefines := h record (.head _)
      cases record with
      | frame id tag address =>
        show (c.insertFrame (cacheOfTag tag) (tag, address) id).lastTimestampNs = _
        unfold Caches.insertFrame
        split <;> rfl
      | stack id parent frameId => rfl
      | thread id processId threadId => rfl
      | _ => exact absurd hdefines id
    show ((c.absorb record).absorbAll records).lastTimestampNs = _
    rw [ih _ fun r hr => h r (List.mem_cons_of_mem record hr), hfirst]

end StackPulse.Plans
