import StackPulse.Sessions

/-!
What the plans of the writer emit. Every planned record takes the next id of its
kind, defines something that the caches do not have yet, and refers only to what
they have. After a plan the caches hold the frames, the path of stack nodes and
the thread of its sample.
-/
namespace StackPulse.Interning

open Varint Model Words Decode Output Encode Writer Plans Realization Sessions

variable {c c' : Caches} {records : List SpoolRecord} {frames : List FrameRecord}
  {record : SpoolRecord} {id : UInt32}

def FrameKnown (c : Caches) (id : UInt32) : Prop :=
  ∃ cache key, (c.frameCache cache).lookup key = some id

def StackKnown (c : Caches) (id : UInt32) : Prop := ∃ key, c.stackCache.lookup key = some id

def ThreadKnown (c : Caches) (id : UInt32) : Prop := ∃ key, c.threadCache.lookup key = some id

/-- The record takes the next id, is new, and refers to what is known. -/
def Planned (c : Caches) : SpoolRecord → Prop
  | .frame id tag address =>
      id = c.nextFrameId ∧ id ≠ NONE_U32 ∧
        (c.frameCache (cacheOfTag tag)).lookup (tag, address) = none
  | .stack id parent frameId =>
      (id.toNat = c.stackCache.entries.length ∧ id ≠ NONE_U32 ∧
        c.stackCache.lookup (parent, frameId) = none) ∧
        (parent = NONE_U32 ∨ StackKnown c parent) ∧ FrameKnown c frameId
  | .thread id processId threadId =>
      id.toNat = c.threadCache.entries.length ∧ id ≠ NONE_U32 ∧
        c.threadCache.lookup (processId, threadId) = none
  | .sample delta threadId stackId =>
      ThreadKnown c threadId ∧ StackKnown c stackId ∧
        (checkedAddSigned c.lastTimestampNs delta).isSome
  | _ => True

def PlannedAll : Caches → List SpoolRecord → Prop
  | _, [] => True
  | c, record :: records => Planned c record ∧ PlannedAll (c.absorb record) records

theorem PlannedAll.append {more : List SpoolRecord} (h : PlannedAll c records)
    (h' : PlannedAll (c.absorbAll records) more) : PlannedAll c (records ++ more) := by
  induction records generalizing c with
  | nil => exact h'
  | cons record records ih => exact ⟨h.1, ih h.2 h'⟩

theorem PlannedAll.left {more : List SpoolRecord} (h : PlannedAll c (records ++ more)) :
    PlannedAll c records := by
  induction records generalizing c with
  | nil => exact trivial
  | cons record records ih => exact ⟨h.1, ih h.2⟩

/-- Stack ids never collide with the marker of a root. -/
def Sane (c : Caches) : Prop := ∀ id, StackKnown c id → id ≠ NONE_U32

theorem sane_empty : Sane .empty := by
  rintro id ⟨key, hkey⟩
  exact absurd hkey (by simp [Caches.empty])

@[simp] theorem frameCache_insertFrame (c : Caches) (cache cache' : FrameCache)
    (key : UInt64 × UInt64) (id : UInt32) :
    (c.insertFrame cache key id).frameCache cache' =
      if cache' = cache then (c.frameCache cache).insert key id else c.frameCache cache' := by
  cases cache <;> cases cache' <;> rfl

@[simp] theorem stackCache_insertFrame (c : Caches) (cache : FrameCache) (key : UInt64 × UInt64)
    (id : UInt32) : (c.insertFrame cache key id).stackCache = c.stackCache := by
  cases cache <;> rfl

@[simp] theorem threadCache_insertFrame (c : Caches) (cache : FrameCache) (key : UInt64 × UInt64)
    (id : UInt32) : (c.insertFrame cache key id).threadCache = c.threadCache := by
  cases cache <;> rfl

@[simp] theorem lastTimestampNs_insertFrame (c : Caches) (cache : FrameCache)
    (key : UInt64 × UInt64) (id : UInt32) :
    (c.insertFrame cache key id).lastTimestampNs = c.lastTimestampNs := by
  cases cache <;> rfl

theorem sane_absorb (h : Sane c) (hplanned : Planned c record) : Sane (c.absorb record) := by
  rintro id ⟨key, hkey⟩
  cases record with
  | stack id' parent frameId =>
    change (c.stackCache.insert (parent, frameId) id').lookup key = some id at hkey
    rcases lookup_insert_cases hkey with ⟨-, rfl⟩ | hkey
    · exact hplanned.1.2.1
    · exact h id ⟨key, hkey⟩
  | frame id' tag address =>
    change (c.insertFrame (cacheOfTag tag) (tag, address) id').stackCache.lookup key = some id
      at hkey
    rw [stackCache_insertFrame] at hkey
    exact h id ⟨key, hkey⟩
  | _ => exact h id ⟨key, hkey⟩

theorem sane_absorbAll (h : Sane c) (hplanned : PlannedAll c records) :
    Sane (c.absorbAll records) := by
  induction records generalizing c with
  | nil => exact h
  | cons record records ih => exact ih (sane_absorb h hplanned.1) hplanned.2

/-- Everything the first caches have is in the second ones. -/
structure Keeps (c c' : Caches) : Prop where
  frames : ∀ cache key id, (c.frameCache cache).lookup key = some id →
    (c'.frameCache cache).lookup key = some id
  nodes : ∀ key id, c.stackCache.lookup key = some id → c'.stackCache.lookup key = some id
  threads : ∀ key id, c.threadCache.lookup key = some id → c'.threadCache.lookup key = some id

theorem Keeps.refl (c : Caches) : Keeps c c := ⟨fun _ _ _ h => h, fun _ _ h => h, fun _ _ h => h⟩

theorem Keeps.trans {c'' : Caches} (h : Keeps c c') (h' : Keeps c' c'') : Keeps c c'' :=
  ⟨fun cache key id hid => h'.frames cache key id (h.frames cache key id hid),
    fun key id hid => h'.nodes key id (h.nodes key id hid),
    fun key id hid => h'.threads key id (h.threads key id hid)⟩

/-- An entry survives the insertion of a new key. -/
theorem lookup_insert_of_none {K : Type} [DecidableEq K] {m : FxHashMap K UInt32} {key key' : K}
    {id' : UInt32} (hnew : m.lookup key' = none) (h : m.lookup key = some id) :
    (m.insert key' id').lookup key = some id := by
  by_cases heq : key = key'
  · rw [heq, hnew] at h
    cases h
  · rw [AList.lookup_insert_ne heq]
    exact h

theorem keeps_absorb (hplanned : Planned c record) (hdefines : Defines record) :
    Keeps c (c.absorb record) := by
  cases record with
  | frame id tag address =>
    refine ⟨fun cache key id' h => ?_, fun key id' h => ?_, fun key id' h => ?_⟩
    · change ((c.insertFrame (cacheOfTag tag) (tag, address) id).frameCache cache).lookup key =
        some id'
      rw [frameCache_insertFrame]
      by_cases hcache : cache = cacheOfTag tag
      · rw [if_pos hcache]
        rw [hcache] at h
        exact lookup_insert_of_none hplanned.2.2 h
      · rw [if_neg hcache]
        exact h
    · change (c.insertFrame (cacheOfTag tag) (tag, address) id).stackCache.lookup key = some id'
      rw [stackCache_insertFrame]
      exact h
    · change (c.insertFrame (cacheOfTag tag) (tag, address) id).threadCache.lookup key = some id'
      rw [threadCache_insertFrame]
      exact h
  | stack id parent frameId =>
    exact ⟨fun _ _ _ h => h, fun key id' h => lookup_insert_of_none hplanned.1.2.2 h,
      fun _ _ h => h⟩
  | thread id processId threadId =>
    exact ⟨fun _ _ _ h => h, fun _ _ h => h,
      fun key id' h => lookup_insert_of_none hplanned.2.2 h⟩
  | _ => exact absurd hdefines id

theorem keeps_absorbAll (hplanned : PlannedAll c records)
    (hdefines : ∀ record ∈ records, Defines record) : Keeps c (c.absorbAll records) := by
  induction records generalizing c with
  | nil => exact Keeps.refl c
  | cons record records ih =>
    exact (keeps_absorb hplanned.1 (hdefines record (.head _))).trans
      (ih hplanned.2 fun r hr => hdefines r (List.mem_cons_of_mem record hr))

/-- The records of the plan continue the caches, and its value satisfies `Q`. -/
structure Achieves {α : Type} (p : Plan α) (c : Caches) (Q : α → Caches → Prop) : Prop where
  planned : PlannedAll c (p c).1
  post : ∀ a, (p c).2 = .ok a → Q a (c.absorbAll (p c).1)

namespace Achieves

variable {α β : Type} {Q : α → Caches → Prop} {R : β → Caches → Prop}

theorem pure {a : α} (h : Q a c) : Achieves (Pure.pure a) c Q := by
  refine ⟨trivial, fun a' ha' => ?_⟩
  cases ha'
  exact h

theorem fail {e : Stop} : Achieves (Plan.ofExcept (.error e)) c Q :=
  ⟨trivial, fun a ha => by cases ha⟩

theorem bind {p : Plan α} {q : α → Plan β} (hp : Achieves p c Q)
    (hq : ∀ records a, p c = (records, .ok a) → Q a (c.absorbAll records) →
      Achieves (q a) (c.absorbAll records) R) : Achieves (p >>= q) c R := by
  have hplanned := hp.planned
  have hpost := hp.post
  rcases hpc : p c with ⟨records, e | a⟩
  · rw [hpc] at hplanned
    have hall := Plan.bind_of_error (q := q) hpc
    refine ⟨?_, fun b hb => ?_⟩
    · rw [hall]
      exact hplanned
    · rw [hall] at hb
      cases hb
  · rw [hpc] at hplanned hpost
    have hrest := hq records a hpc (hpost a rfl)
    have hall := Plan.bind_of_ok hpc (Prod.mk.eta (p := q a (c.absorbAll records))).symm
    refine ⟨?_, fun b hb => ?_⟩
    · rw [hall]
      exact hplanned.append hrest.planned
    · rw [hall] at hb ⊢
      rw [Caches.absorbAll_append]
      exact hrest.post b hb

theorem bind_get {q : Caches → Plan β} (h : Achieves (q c) c R) : Achieves (Plan.get >>= q) c R :=
  ⟨h.planned, h.post⟩

theorem bind_ofExcept {r : Except Stop α} {q : α → Plan β}
    (h : ∀ a, r = .ok a → Achieves (q a) c R) : Achieves (Plan.ofExcept r >>= q) c R := by
  rcases r with e | a
  · exact ⟨trivial, fun b hb => by cases hb⟩
  · exact ⟨(h a rfl).planned, (h a rfl).post⟩

theorem bind_emit {q : Unit → Plan β} (hrecord : Planned c record)
    (h : Achieves (q ()) (c.absorb record) R) : Achieves (Plan.emit record >>= q) c R :=
  ⟨⟨hrecord, h.planned⟩, h.post⟩

theorem mono {p : Plan α} {S : α → Caches → Prop} (h : Achieves p c Q)
    (hQ : ∀ a c', Keeps c c' → Q a c' → S a c') (hdefines : p.Emits Defines) : Achieves p c S :=
  ⟨h.planned, fun a ha => hQ a _ (keeps_absorbAll h.planned (hdefines.records c)) (h.post a ha)⟩

end Achieves

theorem nextSpoolId_ok {len : ℕ} {kind : String} (h : nextSpoolId len kind = .ok id) :
    id.toNat = len ∧ id ≠ NONE_U32 := by
  unfold nextSpoolId at h
  split at h
  · rename_i hlt
    split at h
    · cases h
    · rename_i hne
      cases h
      exact ⟨UInt32.toNat_ofNat_of_lt' hlt, hne⟩
  · cases h

/-- The frame is interned under this id. -/
def FrameIn (frame : FrameRecord) (id : UInt32) (c : Caches) : Prop :=
  ∃ key, compactFrame frame = .ok key ∧
    (c.frameCache (frameCacheOf frame)).lookup key = some id

/-- The nodes from a parent to the last one stand for these frames. -/
inductive PathIn (c : Caches) : UInt32 → List FrameRecord → UInt32 → Prop
  | nil (parent : UInt32) : PathIn c parent [] parent
  | cons {parent frameId stackId last : UInt32} {frame : FrameRecord} {frames : List FrameRecord} :
      FrameIn frame frameId c → c.stackCache.lookup (parent, frameId) = some stackId →
        PathIn c stackId frames last → PathIn c parent (frame :: frames) last

theorem FrameIn.mono {frame : FrameRecord} (h : FrameIn frame id c) (hkeeps : Keeps c c') :
    FrameIn frame id c' := by
  obtain ⟨key, hkey, hlookup⟩ := h
  exact ⟨key, hkey, hkeeps.frames _ _ _ hlookup⟩

theorem PathIn.mono {parent last : UInt32} (h : PathIn c parent frames last) (hkeeps : Keeps c c') :
    PathIn c' parent frames last := by
  induction h with
  | nil parent => exact .nil parent
  | cons hframe hlookup _ ih => exact .cons (hframe.mono hkeeps) (hkeeps.nodes _ _ hlookup) ih

/-- The end of a path is its start or a known node. -/
theorem PathIn.known {parent last : UInt32} (h : PathIn c parent frames last) :
    (frames = [] ∧ last = parent) ∨ StackKnown c last := by
  induction h with
  | nil parent => exact .inl ⟨rfl, rfl⟩
  | @cons parent frameId stackId last frame frames _ hlookup _ ih =>
    rcases ih with ⟨_, rfl⟩ | hknown
    · exact .inr ⟨_, hlookup⟩
    · exact .inr hknown

theorem planFrame_achieves (frame : FrameRecord) (c : Caches) :
    Achieves (planFrame frame) c (FrameIn frame) := by
  refine .bind_ofExcept fun key hkey => .bind_get ?_
  rcases hlookup : (c.frameCache (frameCacheOf frame)).lookup key with _ | id
  · by_cases hfull : c.nextFrameId = NONE_U32
    · simp only [hfull, if_true]
      exact .fail
    · simp only [hfull, if_false]
      have hcache := cacheOfTag_eq hkey
      refine .bind_emit ⟨rfl, hfull, by rw [hcache]; exact hlookup⟩ (.pure ⟨key, hkey, ?_⟩)
      show ((c.insertFrame (cacheOfTag key.1) (key.1, key.2) c.nextFrameId).frameCache
        (frameCacheOf frame)).lookup key = _
      rw [frameCache_insertFrame, if_pos hcache.symm]
      exact AList.lookup_insert _
  · exact .pure ⟨key, hkey, hlookup⟩

theorem planNodes_achieves (frames : List FrameRecord) (parent : UInt32) (c : Caches)
    (hparent : parent = NONE_U32 ∨ StackKnown c parent) :
    Achieves (planNodes parent frames) c fun last c' => PathIn c' parent frames last := by
  induction frames generalizing parent c with
  | nil => exact .pure (.nil parent)
  | cons frame frames ih =>
    refine .bind ((planFrame_achieves frame c).mono (S := fun id c' => FrameIn frame id c' ∧
      Keeps c c') (fun _ _ hkeeps h => ⟨h, hkeeps⟩) (planFrame_defines frame)) ?_
    rintro first frameId _ ⟨hframe, hkeeps⟩
    have hparent' : parent = NONE_U32 ∨ StackKnown (c.absorbAll first) parent := by
      rcases hparent with hroot | ⟨key, hkey⟩
      · exact .inl hroot
      · exact .inr ⟨key, hkeeps.nodes _ _ hkey⟩
    revert hframe hparent'
    generalize c.absorbAll first = c'
    intro hframe hparent'
    refine .bind_get ?_
    rcases hlookup : c'.stackCache.lookup (parent, frameId) with _ | stackId
    · refine .bind_ofExcept fun stackId hid => ?_
      obtain ⟨hlen, hne⟩ := nextSpoolId_ok hid
      obtain ⟨key, hkey, hknown⟩ := hframe
      have hrecord : Planned c' (.stack stackId parent frameId) :=
        ⟨⟨hlen, hne, hlookup⟩, hparent', ⟨_, key, hknown⟩⟩
      have hnew : (c'.absorb (.stack stackId parent frameId)).stackCache.lookup
          (parent, frameId) = some stackId := AList.lookup_insert _
      refine .bind_emit hrecord ((ih stackId _ (.inr ⟨_, hnew⟩)).mono ?_
        (planNodes_defines frames stackId))
      intro last c'' hkeeps' hpath
      have hframe' := (keeps_absorb hrecord trivial).frames _ _ _ hknown
      exact .cons ⟨key, hkey, hkeeps'.frames _ _ _ hframe'⟩ (hkeeps'.nodes _ _ hnew) hpath
    · refine (ih stackId c' (.inr ⟨_, hlookup⟩)).mono ?_ (planNodes_defines frames stackId)
      intro last c'' hkeeps' hpath
      exact .cons (hframe.mono hkeeps') (hkeeps'.nodes _ _ hlookup) hpath

theorem planThread_achieves (processId : Int32) (threadId : UInt64) (c : Caches) :
    Achieves (planThread processId threadId) c fun id c' =>
      c'.threadCache.lookup (processId, threadId) = some id := by
  refine .bind_get ?_
  rcases hlookup : c.threadCache.lookup (processId, threadId) with _ | id
  · refine .bind_ofExcept fun id hid => ?_
    obtain ⟨hlen, hne⟩ := nextSpoolId_ok hid
    exact .bind_emit ⟨hlen, hne, hlookup⟩ (.pure (AList.lookup_insert _))
  · exact .pure hlookup

theorem planStack_achieves (hframes : frames ≠ []) (hsane : Sane c) :
    Achieves (planStack frames) c fun stack c' =>
      ∃ stackId, stack = some stackId ∧ PathIn c' NONE_U32 frames.reverse stackId := by
  refine .bind (planNodes_achieves frames.reverse NONE_U32 c (.inl rfl)) ?_
  intro records last hplan hpath
  have hplanned := (planNodes_achieves frames.reverse NONE_U32 c (.inl rfl)).planned
  rw [hplan] at hplanned
  have hne : last ≠ NONE_U32 := by
    rcases hpath.known with ⟨hnil, _⟩ | hknown
    · exact absurd (List.reverse_eq_nil_iff.mp hnil) hframes
    · exact sane_absorbAll hsane hplanned last hknown
  exact .pure ⟨last, if_pos hne, hpath⟩

/-- A sample is defined and then written: its records, its caches and its result. -/
structure SamplePlanned (c : Caches) (timestampNs : UInt64) (processId : Int32)
    (threadId : UInt64) (frames : List FrameRecord) (definitions : List SpoolRecord)
    (delta : Int64) (thread stackId : UInt32) : Prop where
  nonempty : frames ≠ []
  defines : ∀ record ∈ definitions, Defines record
  path : PathIn (c.absorbAll definitions) NONE_U32 frames.reverse stackId
  thread : (c.absorbAll definitions).threadCache.lookup (processId, threadId) = some thread
  timestamp : checkedAddSigned (c.absorbAll definitions).lastTimestampNs delta = some timestampNs

/-- A sample without frames or with a refused one only defines; every other one
is written. -/
theorem planSample_cases (timestampNs : UInt64) (processId : Int32) (threadId : UInt64)
    (frames : List FrameRecord) (hsane : Sane c) :
    PlannedAll c (planSample timestampNs processId threadId frames c).1 ∧
      (((∀ record ∈ (planSample timestampNs processId threadId frames c).1, Defines record) ∧
          (frames = [] ∨
            ∃ e, (planSample timestampNs processId threadId frames c).2 = .error e)) ∨
        ∃ definitions delta thread stackId,
          planSample timestampNs processId threadId frames c =
              (definitions ++ [.sample delta thread stackId], .ok (some stackId)) ∧
            SamplePlanned c timestampNs processId threadId frames definitions delta thread
              stackId) := by
  by_cases hframes : frames = []
  · subst hframes
    exact ⟨trivial, .inl ⟨fun record hmem => absurd hmem List.not_mem_nil, .inl rfl⟩⟩
  unfold planSample
  rw [if_neg hframes, Plan.get_bind]
  rcases hdelta : checkedSampleTimestampDelta c.lastTimestampNs timestampNs with e | delta
  · exact ⟨trivial, .inl ⟨fun record hmem => absurd hmem List.not_mem_nil, .inr ⟨e, rfl⟩⟩⟩
  rw [Plan.ofExcept_ok_bind]
  have hstack := planStack_achieves hframes hsane
  have hnodes := (planStack_defines frames).records c
  rcases hrun : planStack frames c with ⟨nodes, e | stack⟩
  · rw [hrun] at hnodes
    have hplanned := hstack.planned
    rw [hrun] at hplanned
    rw [Plan.bind_of_error hrun]
    exact ⟨hplanned, .inl ⟨hnodes, .inr ⟨e, rfl⟩⟩⟩
  have hplanned := hstack.planned
  have hpost := hstack.post stack (by rw [hrun])
  rw [hrun] at hnodes hplanned hpost
  obtain ⟨stackId, rfl, hpath⟩ := hpost
  have hthread := planThread_achieves processId threadId (c.absorbAll nodes)
  have hnew := (planThread_defines processId threadId).records (c.absorbAll nodes)
  have hplanned' := hthread.planned
  rcases hrun' : planThread processId threadId (c.absorbAll nodes) with ⟨records, e | thread⟩
  · rw [hrun'] at hnew hplanned'
    rw [Plan.bind_of_ok hrun (Plan.bind_of_error hrun')]
    refine ⟨hplanned.append hplanned', .inl ⟨fun record hmem => ?_, .inr ⟨e, rfl⟩⟩⟩
    rcases List.mem_append.mp hmem with hleft | hright
    · exact hnodes record hleft
    · exact hnew record hright
  have hlookup := hthread.post thread (by rw [hrun'])
  rw [hrun'] at hnew hplanned' hlookup
  rw [Plan.bind_of_ok hrun (Plan.bind_of_ok hrun' rfl), ← List.append_assoc]
  have hdefines : ∀ record ∈ nodes ++ records, Defines record :=
    List.forall_mem_append.mpr ⟨hnodes, hnew⟩
  have htimestamp : checkedAddSigned (c.absorbAll (nodes ++ records)).lastTimestampNs delta =
      some timestampNs := by
    rw [absorbAll_lastTimestampNs c hdefines]
    exact checkedAddSigned_delta hdelta
  rw [← Caches.absorbAll_append] at hlookup
  have hpath' : PathIn (c.absorbAll (nodes ++ records)) NONE_U32 frames.reverse stackId := by
    rw [Caches.absorbAll_append]
    exact hpath.mono (keeps_absorbAll hplanned' hnew)
  have hknown : StackKnown (c.absorbAll (nodes ++ records)) stackId := by
    rcases hpath'.known with ⟨hnil, _⟩ | hknown
    · exact absurd (List.reverse_eq_nil_iff.mp hnil) hframes
    · exact hknown
  refine ⟨(hplanned.append hplanned').append ⟨⟨⟨_, hlookup⟩, hknown, ?_⟩, trivial⟩, .inr ?_⟩
  · rw [htimestamp]
    rfl
  · exact ⟨nodes ++ records, delta, thread, stackId, rfl, hframes, hdefines, hpath', hlookup,
      htimestamp⟩

theorem plan_planned (op : Op) (hsane : Sane c) : PlannedAll c (op.plan c).1 := by
  cases op with
  | writeSampleFrames timestampNs processId threadId frames =>
    exact (planSample_cases timestampNs processId threadId frames hsane).1
  | flush => exact trivial
  | _ => exact ⟨trivial, trivial⟩

theorem planOps_planned (ops : List Op) (hsane : Sane c) : PlannedAll c (planOps ops c).1 := by
  induction ops generalizing c with
  | nil => exact trivial
  | cons op ops ih =>
    have hfirst := plan_planned op hsane
    exact hfirst.append (ih (sane_absorbAll hsane hfirst))

/-- The stack node or the thread that the record defines. -/
def definedKey : SpoolRecord → Option ((UInt32 × UInt32) ⊕ (Int32 × UInt64))
  | .stack _ parent frameId => some (.inl (parent, frameId))
  | .thread _ processId threadId => some (.inr (processId, threadId))
  | _ => none

def idOf (c : Caches) : (UInt32 × UInt32) ⊕ (Int32 × UInt64) → Option UInt32 :=
  Sum.elim c.stackCache.lookup c.threadCache.lookup

/-- Stack nodes and threads are never forgotten. -/
theorem idOf_absorb {key : (UInt32 × UInt32) ⊕ (Int32 × UInt64)} :
    idOf (c.absorb record) key = none ↔ some key ≠ definedKey record ∧ idOf c key = none := by
  rcases key with key | key <;> cases record <;>
    simp [idOf, definedKey, Caches.absorb, AList.lookup_eq_none]

theorem definedKeys_nodup (h : PlannedAll c records) : (records.filterMap definedKey).Nodup ∧
    ∀ key ∈ records.filterMap definedKey, idOf c key = none := by
  induction records generalizing c with
  | nil => simp
  | cons record records ih =>
    obtain ⟨hnodup, hnew⟩ := ih h.2
    have hrest := fun key hkey => idOf_absorb.mp (hnew key hkey)
    rcases hdefined : definedKey record with _ | key
    · rw [List.filterMap_cons_none hdefined]
      exact ⟨hnodup, fun key hkey => (hrest key hkey).2⟩
    · rw [List.filterMap_cons_some hdefined]
      refine ⟨List.nodup_cons.mpr ⟨fun hmem => (hrest key hmem).1 hdefined.symm, hnodup⟩,
        List.forall_mem_cons.mpr ⟨?_, fun key hkey => (hrest key hkey).2⟩⟩
      cases record with
      | stack =>
        cases hdefined
        exact h.1.1.2.2
      | thread =>
        cases hdefined
        exact h.1.2.2
      | _ => cases hdefined

/-- Whatever a session writes, refused calls and changes of modules included, no
stack node and no thread is defined twice. -/
theorem definitions_written_once (V : IntegerEncoding) (header : SpoolHeader) (ops : List Op) :
    ∃ records, (session V (⟨[]⟩ : Vec) header ops).2.writer.inner.bytes =
        encodeHeader V header ++ encodeAll V records ∧ (records.filterMap definedKey).Nodup := by
  rw [session_buffered]
  exact ⟨_, rfl, (definedKeys_nodup (planOps_planned ops sane_empty)).1⟩

end StackPulse.Interning
