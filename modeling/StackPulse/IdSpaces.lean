import StackPulse.Recall
import StackPulse.SampledThreads

/-!
When a sample is written. The writer numbers frames, stack nodes and threads, and
refuses a sample whose new ones do not fit below `NONE_U32`. How many are new is a
count over the caches as they are before the call: frames that occur twice are
counted once, and a stack needs a node for every frame behind its known part.
-/
namespace StackPulse.IdSpaces

open Model Decode Encode Writer Plans Realization Sessions Interning Records Stacks Mirror Recall
  WireFacts SampledThreads

variable {c : Caches} {frame : FrameRecord} {frames : List FrameRecord}
  {key : UInt64 × UInt64} {keys : List (UInt64 × UInt64)} {parent id stackId : UInt32}

/-- The id under which the caches have a frame. -/
def frameId (c : Caches) (key : UInt64 × UInt64) : Option UInt32 :=
  (c.frameCache (cacheOfTag key.1)).lookup key

/-- What the frames become on the wire. -/
def wireKeys (frames : List FrameRecord) : List (UInt64 × UInt64) :=
  frames.filterMap fun frame => (compactFrame frame).toOption

/-- The frames that the caches do not have. -/
def newFrames (c : Caches) (keys : List (UInt64 × UInt64)) : Finset (UInt64 × UInt64) :=
  (keys.filter fun key => frameId c key = none).toFinset

/-- The number of nodes that a stack needs below `parent`, from its root on. -/
def newNodes (c : Caches) : UInt32 → List (UInt64 × UInt64) → ℕ
  | _, [] => 0
  | parent, key :: keys =>
      match (frameId c key).bind fun id => c.stackCache.lookup (parent, id) with
      | some stackId => newNodes c stackId keys
      | none => keys.length + 1

/-- Every frame has a wire form, and the ids of the new frames and nodes fit. -/
structure StackFits (c : Caches) (parent : UInt32) (frames : List FrameRecord) : Prop where
  wire : ∀ frame ∈ frames, ∃ key, compactFrame frame = .ok key
  frameIds : c.nextFrameId.toNat + (newFrames c (wireKeys frames)).card ≤ NONE_U32.toNat
  stackIds : c.stackCache.entries.length + newNodes c parent (wireKeys frames) ≤ NONE_U32.toNat

/-- The writer has nothing to refuse: the time is within reach of the last one, and the stack
and the thread fit. -/
structure SampleFits (c : Caches) (timestampNs : UInt64) (processId : Int32) (threadId : UInt64)
    (frames : List FrameRecord) : Prop where
  timestamp : ∃ delta, checkedSampleTimestampDelta c.lastTimestampNs timestampNs = .ok delta
  stack : StackFits c NONE_U32 frames.reverse
  threadIds : c.threadCache.lookup (processId, threadId) = none →
    c.threadCache.entries.length < NONE_U32.toNat

/-- Ids are given in order, and a node refers to a frame and a node before it. -/
structure Numbered (c : Caches) : Prop where
  frames : ∀ id, FrameKnown c id → id.toNat < c.nextFrameId.toNat
  nodes : ∀ id, StackKnown c id → id.toNat < c.stackCache.entries.length
  nodeFrames : ∀ parent frameId id, c.stackCache.lookup (parent, frameId) = some id →
    frameId.toNat < c.nextFrameId.toNat
  parents : ∀ parent frameId id, c.stackCache.lookup (parent, frameId) = some id →
    parent = NONE_U32 ∨ parent.toNat < c.stackCache.entries.length
  room : c.stackCache.entries.length ≤ NONE_U32.toNat

theorem numbered_of_inStep {s : ReaderState} (h : InStep c s) : Numbered c := by
  have hnext := h.synced.nextFrame
  have hcount := h.synced.stackCount
  have hlinked : ∀ parent frameId id, c.stackCache.lookup (parent, frameId) = some id →
      ∃ node, LinkedAt s.stackNodes s.frames.length id.toNat node ∧ node.frameId = frameId ∧
        ParentIs parent node ∧ id.toNat < s.stackNodes.length := by
    intro parent frameId id hlookup
    obtain ⟨node, hget, hframe, hparent⟩ := h.synced.nodes _ _ hlookup
    exact ⟨node, h.wellFormed.linked _ _ hget, hframe, hparent,
      (List.getElem?_eq_some_iff.mp hget).1⟩
  refine ⟨?_, ?_, ?_, ?_, ?_⟩
  · rintro id ⟨cache, key, hlookup⟩
    obtain ⟨frame, hget, -⟩ := h.synced.frames cache key id hlookup
    rw [hnext]
    exact (List.getElem?_eq_some_iff.mp hget).1
  · rintro id ⟨⟨parent, frameId⟩, hlookup⟩
    obtain ⟨node, -, -, -, hlt⟩ := hlinked parent frameId id hlookup
    rw [hcount]
    exact hlt
  · intro parent frameId id hlookup
    obtain ⟨node, hat, rfl, -⟩ := hlinked parent frameId id hlookup
    rw [hnext]
    exact hat.1
  · intro parent frameId id hlookup
    obtain ⟨node, hat, -, hparent, hlt⟩ := hlinked parent frameId id hlookup
    rcases hparent with ⟨hroot, -⟩ | ⟨hne, hpos, hsome⟩
    · exact .inl hroot
    · right
      rcases hat.2 with ⟨hnone, -⟩ | ⟨above, before, habove, hbefore, -⟩
      · rw [hsome] at hnone
        cases hnone
      · rw [hsome] at habove
        cases habove
        rw [toNat_add_one hne] at hbefore
        omega
  · have hlt := h.synced.nodes_lt
    show _ ≤ 4294967295
    omega

theorem frameId_absorb_frame (tag address : UInt64) (id : UInt32) (key : UInt64 × UInt64) :
    frameId (c.absorb (.frame id tag address)) key =
      if key = (tag, address) then some id else frameId c key := by
  show ((c.insertFrame (cacheOfTag tag) (tag, address) id).frameCache (cacheOfTag key.1)).lookup
    key = _
  rw [frameCache_insertFrame]
  by_cases hkey : key = (tag, address)
  · rw [hkey, if_pos rfl, if_pos rfl]
    exact AList.lookup_insert _
  · rw [if_neg hkey]
    split
    · rename_i hcache
      rw [AList.lookup_insert_ne hkey, ← hcache]
      rfl
    · rfl

theorem Numbered.absorb_frame (h : Numbered c) {tag address : UInt64}
    (hplanned : Planned c (.frame id tag address)) :
    Numbered (c.absorb (.frame id tag address)) := by
  obtain ⟨rfl, hne, -⟩ := hplanned
  have hnext : (c.absorb (.frame c.nextFrameId tag address)).nextFrameId.toNat =
      c.nextFrameId.toNat + 1 := toNat_add_one hne
  have hstack : (c.absorb (.frame c.nextFrameId tag address)).stackCache = c.stackCache :=
    stackCache_insertFrame ..
  refine ⟨?_, ?_, ?_, ?_, ?_⟩
  · rintro id ⟨cache, key, hlookup⟩
    rw [hnext]
    change ((c.insertFrame _ _ _).frameCache cache).lookup key = some id at hlookup
    rw [frameCache_insertFrame] at hlookup
    split at hlookup
    · rcases lookup_insert_cases hlookup with ⟨-, rfl⟩ | hlookup
      · exact Nat.lt_succ_self _
      · exact (h.frames id ⟨_, key, hlookup⟩).trans (Nat.lt_succ_self _)
    · exact (h.frames id ⟨_, key, hlookup⟩).trans (Nat.lt_succ_self _)
  · rintro id ⟨key, hlookup⟩
    rw [hstack] at hlookup ⊢
    exact h.nodes id ⟨key, hlookup⟩
  · intro parent frameId id hlookup
    rw [hstack] at hlookup
    rw [hnext]
    exact (h.nodeFrames parent frameId id hlookup).trans (Nat.lt_succ_self _)
  · intro parent frameId id hlookup
    rw [hstack] at hlookup ⊢
    exact h.parents parent frameId id hlookup
  · rw [hstack]
    exact h.room

theorem Numbered.absorb_stack (h : Numbered c) {frameId : UInt32}
    (hplanned : Planned c (.stack id parent frameId)) :
    Numbered (c.absorb (.stack id parent frameId)) := by
  obtain ⟨⟨hid, hne, hnew⟩, hparent, hframe⟩ := hplanned
  have hlen : (c.absorb (.stack id parent frameId)).stackCache.entries.length =
      c.stackCache.entries.length + 1 := length_insert_of_none hnew
  have hlt := (id + 1).toNat_lt
  rw [toNat_add_one hne] at hlt
  refine ⟨h.frames, ?_, ?_, ?_, ?_⟩
  · rintro id' ⟨key, hlookup⟩
    rw [hlen]
    rcases lookup_insert_cases hlookup with ⟨-, rfl⟩ | hlookup
    · omega
    · exact (h.nodes id' ⟨key, hlookup⟩).trans (Nat.lt_succ_self _)
  · intro parent' frameId' id' hlookup
    rcases lookup_insert_cases hlookup with ⟨heq, -⟩ | hlookup
    · cases heq
      exact h.frames frameId hframe
    · exact h.nodeFrames parent' frameId' id' hlookup
  · intro parent' frameId' id' hlookup
    rw [hlen]
    rcases lookup_insert_cases hlookup with ⟨heq, -⟩ | hlookup
    · cases heq
      exact hparent.imp_right fun hknown => (h.nodes parent hknown).trans (Nat.lt_succ_self _)
    · exact (h.parents parent' frameId' id' hlookup).imp_right
        fun hlt => hlt.trans (Nat.lt_succ_self _)
  · rw [hlen]
    show _ ≤ 4294967295
    omega

section Counts

theorem wireKeys_cons (hkey : compactFrame frame = .ok key) :
    wireKeys (frame :: frames) = key :: wireKeys frames :=
  List.filterMap_cons_some (by rw [hkey]; rfl)

theorem newFrames_cons_known (h : frameId c key = some id) :
    newFrames c (key :: keys) = newFrames c keys := by
  unfold newFrames
  rw [List.filter_cons_of_neg (by simp [h])]

/-- A new frame is counted once, however often it occurs. -/
theorem card_newFrames_cons_new (h : frameId c key = none) (id : UInt32) :
    (newFrames c (key :: keys)).card =
      (newFrames (c.absorb (.frame id key.1 key.2)) keys).card + 1 := by
  have hnot : key ∉ newFrames (c.absorb (.frame id key.1 key.2)) keys := by
    simp [newFrames, frameId_absorb_frame]
  have hinsert : newFrames c (key :: keys) =
      insert key (newFrames (c.absorb (.frame id key.1 key.2)) keys) := by
    ext key'
    by_cases heq : key' = key
    · simp [newFrames, heq, h]
    · simp [newFrames, frameId_absorb_frame, heq]
  rw [hinsert, Finset.card_insert_of_notMem hnot]

theorem newNodes_cons_known (hframe : frameId c key = some id)
    (hnode : c.stackCache.lookup (parent, id) = some stackId) :
    newNodes c parent (key :: keys) = newNodes c stackId keys := by
  rw [newNodes, hframe, Option.bind_some, hnode]

theorem newNodes_cons_new
    (h : ∀ id, frameId c key = some id → c.stackCache.lookup (parent, id) = none) :
    newNodes c parent (key :: keys) = keys.length + 1 := by
  have hnone : ((frameId c key).bind fun id => c.stackCache.lookup (parent, id)) = none :=
    Option.bind_eq_none_iff.mpr h
  rw [newNodes, hnone]

/-- Nothing is known below a node that no other node refers to. -/
theorem newNodes_of_fresh (h : ∀ id, c.stackCache.lookup (parent, id) = none) :
    newNodes c parent keys = keys.length := by
  cases keys with
  | nil => rfl
  | cons key keys => exact newNodes_cons_new fun id _ => h id

end Counts

/-- A new node has nothing below it. -/
theorem Numbered.fresh_stack (h : Numbered c) {frameId : UInt32}
    (hplanned : Planned c (.stack id parent frameId)) (frameId' : UInt32) :
    (c.absorb (.stack id parent frameId)).stackCache.lookup (id, frameId') = none := by
  obtain ⟨⟨hid, hne, -⟩, hparent, -⟩ := hplanned
  rcases hlookup : (c.stackCache.insert (parent, frameId) id).lookup (id, frameId') with _ | node
  · exact hlookup
  rcases lookup_insert_cases hlookup with ⟨heq, -⟩ | hold
  · rcases hparent with hroot | hknown
    · exact absurd ((congrArg Prod.fst heq).trans hroot) hne
    · have hlt := h.nodes parent hknown
      have hsame : id = parent := congrArg Prod.fst heq
      rw [← hsame] at hlt
      omega
  · rcases h.parents _ _ _ hold with hroot | hlt
    · exact absurd hroot hne
    · omega

/-- No node stands for a frame that is not numbered yet. -/
theorem Numbered.fresh_frame (h : Numbered c) (parent : UInt32) :
    c.stackCache.lookup (parent, c.nextFrameId) = none := by
  rcases hlookup : c.stackCache.lookup (parent, c.nextFrameId) with _ | node
  · rfl
  · exact absurd (h.nodeFrames _ _ _ hlookup) (Nat.lt_irrefl _)

section Success

variable {α β : Type} {p : Plan α} {q : α → Plan β} {records : List SpoolRecord}

/-- The plan is not refused. -/
def Succeeds (p : Plan α) (c : Caches) : Prop := ∃ a, (p c).2 = .ok a

theorem succeeds_bind {a : α} (hp : p c = (records, .ok a)) :
    Succeeds (p >>= q) c ↔ Succeeds (q a) (c.absorbAll records) := by
  unfold Succeeds
  rw [Plan.bind_of_ok hp rfl]

theorem not_succeeds_bind {e : Stop} (hp : p c = (records, .error e)) :
    ¬Succeeds (p >>= q) c := by
  rintro ⟨b, hb⟩
  rw [Plan.bind_of_error hp] at hb
  cases hb

end Success

theorem nextSpoolId_of_lt {len : ℕ} (kind : String) (h : len < NONE_U32.toNat) :
    ∃ id, nextSpoolId len kind = .ok id := by
  have hlt : len < 2 ^ 32 := h.trans (by decide)
  have hne : UInt32.ofNat len ≠ NONE_U32 := by
    intro heq
    rw [← heq, UInt32.toNat_ofNat_of_lt' hlt] at h
    exact Nat.lt_irrefl _ h
  exact ⟨UInt32.ofNat len, by rw [nextSpoolId, if_pos hlt, if_neg hne]⟩

theorem lt_of_nextSpoolId {len : ℕ} {kind : String} (h : nextSpoolId len kind = .ok id) :
    len < NONE_U32.toNat := by
  obtain ⟨hlen, hne⟩ := nextSpoolId_ok h
  have hlt := (id + 1).toNat_lt
  rw [toNat_add_one hne] at hlt
  show len < 4294967295
  omega

section Frames

variable (hkey : compactFrame frame = .ok key)

include hkey

theorem planFrame_known (h : frameId c key = some id) : planFrame frame c = ([], .ok id) := by
  unfold frameId at h
  rw [cacheOfTag_eq hkey] at h
  rw [planFrame, hkey, Plan.ofExcept_ok_bind, Plan.get_bind, h]
  rfl

theorem planFrame_full (h : frameId c key = none) (hfull : c.nextFrameId = NONE_U32) :
    ∃ e, planFrame frame c = ([], .error e) := by
  unfold frameId at h
  rw [cacheOfTag_eq hkey] at h
  rw [planFrame, hkey, Plan.ofExcept_ok_bind, Plan.get_bind, h]
  exact ⟨_, by rw [if_pos hfull]; rfl⟩

theorem planFrame_new (h : frameId c key = none) (hroom : c.nextFrameId ≠ NONE_U32) :
    planFrame frame c = ([.frame c.nextFrameId key.1 key.2], .ok c.nextFrameId) := by
  unfold frameId at h
  rw [cacheOfTag_eq hkey] at h
  rw [planFrame, hkey, Plan.ofExcept_ok_bind, Plan.get_bind, h]
  simp only [if_neg hroom]
  rfl

end Frames

/-- The rest of a stack behind a frame, once the frame has an id. -/
def planRest (parent frameId : UInt32) (frames : List FrameRecord) : Plan UInt32 := do
  let caches ← Plan.get
  match caches.stackCache.lookup (parent, frameId) with
  | some stackId => planNodes stackId frames
  | none => do
      let stackId ← Plan.ofExcept (nextSpoolId caches.stackCache.entries.length "stack")
      Plan.emit (.stack stackId parent frameId)
      planNodes stackId frames

theorem planRest_known {frameId : UInt32}
    (h : c.stackCache.lookup (parent, frameId) = some stackId) :
    Succeeds (planRest parent frameId frames) c ↔ Succeeds (planNodes stackId frames) c := by
  unfold planRest Succeeds
  rw [Plan.get_bind, h]

/-- A node that is not known takes an id, and so does every node behind it. -/
theorem planRest_new (hc : Numbered c) {frameId : UInt32} (hframe : FrameKnown c frameId)
    (hparent : parent = NONE_U32 ∨ StackKnown c parent)
    (hnew : c.stackCache.lookup (parent, frameId) = none)
    (ih : ∀ parent c, Numbered c → (parent = NONE_U32 ∨ StackKnown c parent) →
      (Succeeds (planNodes parent frames) c ↔ StackFits c parent frames)) :
    Succeeds (planRest parent frameId frames) c ↔
      (∀ frame ∈ frames, ∃ key, compactFrame frame = .ok key) ∧
      c.nextFrameId.toNat + (newFrames c (wireKeys frames)).card ≤ NONE_U32.toNat ∧
      c.stackCache.entries.length + ((wireKeys frames).length + 1) ≤ NONE_U32.toNat := by
  have hrest : Succeeds (planRest parent frameId frames) c ↔
      Succeeds (Plan.ofExcept (nextSpoolId c.stackCache.entries.length "stack") >>= fun stackId =>
        Plan.emit (.stack stackId parent frameId) >>= fun _ => planNodes stackId frames) c := by
    unfold planRest Succeeds
    rw [Plan.get_bind, hnew]
  rw [hrest]
  rcases hnext : nextSpoolId c.stackCache.entries.length "stack" with e | stackId
  · -- Without an id for the node there is none for the stack either.
    have hfull : ¬c.stackCache.entries.length < NONE_U32.toNat := by
      intro hlt
      obtain ⟨id, hid⟩ := nextSpoolId_of_lt "stack" hlt
      rw [hnext] at hid
      cases hid
    refine iff_of_false (not_succeeds_bind rfl) ?_
    rintro ⟨-, -, hroom⟩
    omega
  · obtain ⟨hid, hne⟩ := nextSpoolId_ok hnext
    have hplanned : Planned c (.stack stackId parent frameId) :=
      ⟨⟨hid, hne, hnew⟩, hparent, hframe⟩
    have hknown : StackKnown (c.absorb (.stack stackId parent frameId)) stackId :=
      ⟨_, AList.lookup_insert _⟩
    have hlen : (c.absorb (.stack stackId parent frameId)).stackCache.entries.length =
        c.stackCache.entries.length + 1 := length_insert_of_none hnew
    have hfits := ih stackId _ (hc.absorb_stack hplanned) (.inr hknown)
    rw [succeeds_bind rfl, succeeds_bind rfl]
    refine hfits.trans ⟨fun h => ⟨h.wire, h.frameIds, ?_⟩, fun h => ⟨h.1, h.2.1, ?_⟩⟩
    · have hroom := h.stackIds
      rw [hlen, newNodes_of_fresh (hc.fresh_stack hplanned)] at hroom
      omega
    · rw [hlen, newNodes_of_fresh (hc.fresh_stack hplanned)]
      omega

theorem planNodes_cons (frame : FrameRecord) (frames : List FrameRecord) (parent : UInt32) :
    planNodes parent (frame :: frames) =
      planFrame frame >>= fun frameId => planRest parent frameId frames := rfl

theorem stackFits_cons_iff (hkey : compactFrame frame = .ok key) :
    StackFits c parent (frame :: frames) ↔
      (∀ frame ∈ frames, ∃ key, compactFrame frame = .ok key) ∧
      c.nextFrameId.toNat + (newFrames c (key :: wireKeys frames)).card ≤ NONE_U32.toNat ∧
      c.stackCache.entries.length + newNodes c parent (key :: wireKeys frames) ≤
        NONE_U32.toNat := by
  rw [← wireKeys_cons hkey]
  refine ⟨fun h => ⟨fun f hf => h.wire f (.tail _ hf), h.frameIds, h.stackIds⟩,
    fun h => ⟨List.forall_mem_cons.mpr ⟨⟨key, hkey⟩, h.1⟩, h.2.1, h.2.2⟩⟩

theorem planNodes_succeeds_iff (frames : List FrameRecord) (parent : UInt32) (c : Caches)
    (hc : Numbered c) (hparent : parent = NONE_U32 ∨ StackKnown c parent) :
    Succeeds (planNodes parent frames) c ↔ StackFits c parent frames := by
  induction frames generalizing parent c with
  | nil =>
    have hnext : c.nextFrameId.toNat ≤ 4294967295 := Nat.le_of_lt_succ c.nextFrameId.toNat_lt
    refine iff_of_true ⟨parent, rfl⟩ ⟨fun frame hmem => ?_, hnext, hc.room⟩
    cases hmem
  | cons frame frames ih =>
    rw [planNodes_cons]
    rcases hkey : compactFrame frame with e | key
    · have hframe : planFrame frame c = ([], .error e) := by
        rw [planFrame, hkey]
        rfl
      refine iff_of_false (not_succeeds_bind hframe) fun h => ?_
      obtain ⟨key, hok⟩ := h.wire frame (.head _)
      rw [hkey] at hok
      cases hok
    rw [stackFits_cons_iff hkey]
    rcases hid : frameId c key with _ | id
    · by_cases hfull : c.nextFrameId = NONE_U32
      · obtain ⟨e, hframe⟩ := planFrame_full hkey hid hfull
        refine iff_of_false (not_succeeds_bind hframe) ?_
        rintro ⟨-, hroom, -⟩
        rw [card_newFrames_cons_new hid 0, hfull] at hroom
        omega
      · -- The frame gets the next id, so no node stands for it yet.
        have hplanned : Planned c (.frame c.nextFrameId key.1 key.2) := ⟨rfl, hfull, hid⟩
        have hc' := hc.absorb_frame hplanned
        have hstack : (c.absorb (.frame c.nextFrameId key.1 key.2)).stackCache = c.stackCache :=
          stackCache_insertFrame ..
        have hnext : (c.absorb (.frame c.nextFrameId key.1 key.2)).nextFrameId.toNat =
            c.nextFrameId.toNat + 1 := toNat_add_one hfull
        have hknown : FrameKnown (c.absorb (.frame c.nextFrameId key.1 key.2)) c.nextFrameId :=
          ⟨cacheOfTag key.1, key, (frameId_absorb_frame ..).trans (if_pos rfl)⟩
        have hnode : (c.absorb (.frame c.nextFrameId key.1 key.2)).stackCache.lookup
            (parent, c.nextFrameId) = none := by
          rw [hstack]
          exact hc.fresh_frame parent
        have hparent' : parent = NONE_U32 ∨
            StackKnown (c.absorb (.frame c.nextFrameId key.1 key.2)) parent := by
          unfold StackKnown
          rw [hstack]
          exact hparent
        have hnone : ∀ id, frameId c key = some id → c.stackCache.lookup (parent, id) = none := by
          intro id hsome
          rw [hid] at hsome
          cases hsome
        rw [succeeds_bind (planFrame_new hkey hid hfull), card_newFrames_cons_new hid
          c.nextFrameId, newNodes_cons_new hnone]
        refine (planRest_new hc' hknown hparent' hnode ih).trans ?_
        rw [hstack, hnext]
        refine and_congr_right fun _ => and_congr_left fun _ => ?_
        omega
    · rw [succeeds_bind (planFrame_known hkey hid), newFrames_cons_known hid]
      rcases hnode : c.stackCache.lookup (parent, id) with _ | stackId
      · have hnone : ∀ id, frameId c key = some id → c.stackCache.lookup (parent, id) = none := by
          intro id' hsome
          rw [hid] at hsome
          cases hsome
          exact hnode
        rw [newNodes_cons_new hnone]
        exact planRest_new hc ⟨_, key, hid⟩ hparent hnode ih
      · rw [newNodes_cons_known hid hnode]
        refine (planRest_known hnode).trans ((ih stackId c hc (.inr ⟨_, hnode⟩)).trans ?_)
        exact ⟨fun h => ⟨h.wire, h.frameIds, h.stackIds⟩, fun h => ⟨h.1, h.2.1, h.2.2⟩⟩

theorem threadCache_absorbAll {records : List SpoolRecord} (c : Caches)
    (h : ∀ record ∈ records, IsNode record) :
    (c.absorbAll records).threadCache = c.threadCache := by
  induction records generalizing c with
  | nil => rfl
  | cons record records ih =>
    refine (ih _ fun r hr => h r (.tail _ hr)).trans ?_
    have hnode := h record (.head _)
    cases record with
    | frame id tag address => exact threadCache_insertFrame ..
    | stack id parent frameId => rfl
    | _ => exact hnode.elim

theorem planThread_succeeds_iff (processId : Int32) (threadId : UInt64) (c : Caches) :
    Succeeds (planThread processId threadId) c ↔
      (c.threadCache.lookup (processId, threadId) = none →
        c.threadCache.entries.length < NONE_U32.toNat) := by
  unfold planThread Succeeds
  rw [Plan.get_bind]
  rcases hlookup : c.threadCache.lookup (processId, threadId) with _ | id
  · simp only [forall_const]
    rcases hnext : nextSpoolId c.threadCache.entries.length "thread" with e | id
    · refine iff_of_false (not_succeeds_bind rfl) fun hlt => ?_
      obtain ⟨id, hid⟩ := nextSpoolId_of_lt "thread" hlt
      rw [hnext] at hid
      cases hid
    · exact iff_of_true ⟨id, rfl⟩ (lt_of_nextSpoolId hnext)
  · exact iff_of_true ⟨id, rfl⟩ fun hnone => by cases hnone

theorem planStack_succeeds_iff (hc : Numbered c) :
    Succeeds (planStack frames) c ↔ StackFits c NONE_U32 frames.reverse := by
  rw [← planNodes_succeeds_iff frames.reverse NONE_U32 c hc (.inl rfl)]
  rcases hnodes : planNodes NONE_U32 frames.reverse c with ⟨records, e | last⟩
  · refine iff_of_false (not_succeeds_bind hnodes) ?_
    rintro ⟨last, hok⟩
    rw [hnodes] at hok
    cases hok
  · exact iff_of_true ((succeeds_bind hnodes).mpr ⟨_, rfl⟩) ⟨last, by rw [hnodes]⟩

/-- A call with frames writes a sample exactly when nothing is refused. -/
theorem sample_written_iff (hc : Numbered c) (hsane : Sane c) (hframes : frames ≠ [])
    (timestampNs : UInt64) (processId : Int32) (threadId : UInt64) :
    (∃ stackId, (planSample timestampNs processId threadId frames c).2 = .ok (some stackId)) ↔
      SampleFits c timestampNs processId threadId frames := by
  unfold planSample
  rw [if_neg hframes, Plan.get_bind]
  rcases hdelta : checkedSampleTimestampDelta c.lastTimestampNs timestampNs with e | delta
  · refine iff_of_false ?_ fun h => ?_
    · rintro ⟨stackId, hok⟩
      cases hok
    · obtain ⟨delta, hok⟩ := h.timestamp
      rw [hdelta] at hok
      cases hok
  rw [Plan.ofExcept_ok_bind]
  have hstack : Succeeds (planStack frames) c ↔ _ := planStack_succeeds_iff hc
  have hpost := (planStack_achieves hframes hsane).post
  have hnodes := (planStack_nodes frames).records c
  rcases hrun : planStack frames c with ⟨nodes, e | stack⟩
  · rw [Plan.bind_of_error hrun]
    refine iff_of_false ?_ fun h => ?_
    · rintro ⟨stackId, hok⟩
      cases hok
    · obtain ⟨stack, hok⟩ := hstack.mpr h.stack
      rw [hrun] at hok
      cases hok
  have hfits : StackFits c NONE_U32 frames.reverse := hstack.mp ⟨stack, by rw [hrun]⟩
  rw [hrun] at hnodes hpost
  obtain ⟨stackId, rfl, -⟩ := hpost stack rfl
  have hthread := planThread_succeeds_iff processId threadId (c.absorbAll nodes)
  rw [threadCache_absorbAll c hnodes] at hthread
  rcases hrun' : planThread processId threadId (c.absorbAll nodes) with ⟨records, e | thread⟩
  · rw [Plan.bind_of_ok hrun (Plan.bind_of_error hrun')]
    refine iff_of_false ?_ fun h => ?_
    · rintro ⟨stackId, hok⟩
      cases hok
    · obtain ⟨thread, hok⟩ := hthread.mpr h.threadIds
      rw [hrun'] at hok
      cases hok
  · rw [Plan.bind_of_ok hrun (Plan.bind_of_ok hrun' rfl)]
    exact iff_of_true ⟨stackId, rfl⟩
      ⟨⟨delta, hdelta⟩, hfits, hthread.mp ⟨thread, by rw [hrun']⟩⟩

end StackPulse.IdSpaces
