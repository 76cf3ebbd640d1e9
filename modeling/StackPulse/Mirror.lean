import StackPulse.Interning
import StackPulse.WireFacts

/-!
The reader mirrors the writer. While the reader goes through the records of a
session, the ids in the caches of the writer name what the reader has read under
them: the frames, the nodes of the stacks and the threads.
-/
namespace StackPulse.Mirror

open Model Words Decode Encode Writer Interning Records WireRecords WireFacts Stacks Safety

variable {id parent : UInt32} {record : SpoolRecord} {i : ℕ}

/-- What the caches say is what the reader has read. -/
structure Synced (c : Caches) (s : ReaderState) : Prop where
  nextFrame : c.nextFrameId.toNat = s.frames.length
  stackCount : c.stackCache.entries.length = s.stackNodes.length
  threadCount : c.threadCache.entries.length = s.threads.length
  nodes_lt : s.stackNodes.length < 2 ^ 32
  timestamp : c.lastTimestampNs = s.lastTimestampNs
  frames : ∀ cache key id, (c.frameCache cache).lookup key = some id →
    ∃ frame, s.frames[id.toNat]? = some frame ∧ frameFromWire s.modules key.1 key.2 = .ok frame
  nodes : ∀ key id, c.stackCache.lookup key = some id →
    ∃ node, s.stackNodes[id.toNat]? = some node ∧ node.frameId = key.2 ∧ ParentIs key.1 node
  threads : ∀ key id, c.threadCache.lookup key = some id →
    ∃ thread, s.threads[id.toNat]? = some thread ∧ thread.processId.get = key.1 ∧
      tidTryFrom key.2 = .ok thread.threadId

theorem synced_initial : Synced .empty .initial where
  nextFrame := rfl
  stackCount := rfl
  threadCount := rfl
  nodes_lt := by decide
  timestamp := rfl
  frames cache key id h := by cases cache <;> cases h
  nodes key id h := by cases h
  threads key id h := by cases h

theorem length_insert_of_none {K : Type} [DecidableEq K] {m : FxHashMap K UInt32} {key : K}
    (h : m.lookup key = none) : (m.insert key id).entries.length = m.entries.length + 1 := by
  rw [AList.insert_of_notMem (AList.lookup_eq_none.mp h)]
  rfl

theorem lookup_of_ite {K V : Type} [DecidableEq K] {m : FxHashMap K V} {p : Prop} [Decidable p]
    {key : K} {v : V} (h : (if p then ∅ else m).lookup key = some v) : m.lookup key = some v := by
  split at h
  · cases h
  · exact h

/-- Only a frame record adds frames to the caches. -/
theorem lookup_of_absorb {c : Caches} (hrecord : ∀ id tag address, record ≠ .frame id tag address)
    {cache : FrameCache} {key : UInt64 × UInt64}
    (h : ((c.absorb record).frameCache cache).lookup key = some id) :
    (c.frameCache cache).lookup key = some id := by
  cases record with
  | frame id tag address => exact absurd rfl (hrecord id tag address)
  | moduleDeactivation processId =>
    cases cache with
    | unpinned => cases h
    | _ => exact h
  | module | moduleDeactivationOne =>
    cases cache with
    | pinned => exact h
    | unpinned => cases h
    | kernel => exact lookup_of_ite h
  | _ => cases cache <;> exact h

theorem getElem?_of_append {α : Type} {l : List α} {a b : α} (h : l[i]? = some a) :
    (l ++ [b])[i]? = some a := by
  rw [List.getElem?_append_left (List.getElem?_eq_some_iff.mp h).1]
  exact h

theorem getElem?_length_append {α : Type} (l : List α) (a : α) (h : i = l.length) :
    (l ++ [a])[i]? = some a := by
  rw [h]
  exact List.getElem?_concat_length

namespace Synced

variable {c : Caches} {s t : ReaderState}

section

variable (h : Synced c s)

include h

theorem pushFrame {tag address : UInt64} {frame : FrameRecord}
    (hplanned : Planned c (.frame id tag address))
    (hframe : frameFromWire s.modules tag address = .ok frame) :
    Synced (c.absorb (.frame id tag address)) (s.pushFrame frame) := by
  obtain ⟨hid, hne, _⟩ := hplanned
  have hnext : id.toNat = s.frames.length := by
    rw [hid]
    exact h.nextFrame
  refine ⟨?_, ?_, ?_, h.nodes_lt, ?_, ?_, ?_, ?_⟩
  · show (id + 1).toNat = (s.frames ++ [frame]).length
    rw [toNat_add_one hne, List.length_append, hnext]
    rfl
  · show (c.insertFrame _ _ _).stackCache.entries.length = _
    rw [stackCache_insertFrame]
    exact h.stackCount
  · show (c.insertFrame _ _ _).threadCache.entries.length = _
    rw [threadCache_insertFrame]
    exact h.threadCount
  · show (c.insertFrame _ _ _).lastTimestampNs = _
    rw [lastTimestampNs_insertFrame]
    exact h.timestamp
  · intro cache key id' hlookup
    change ((c.insertFrame (cacheOfTag tag) (tag, address) id).frameCache cache).lookup key =
      some id' at hlookup
    have hold : (c.frameCache cache).lookup key = some id' →
        ∃ frame', (s.frames ++ [frame])[id'.toNat]? = some frame' ∧
          frameFromWire s.modules key.1 key.2 = .ok frame' := by
      intro hlookup
      obtain ⟨frame', hget, hwire⟩ := h.frames cache key id' hlookup
      exact ⟨frame', getElem?_of_append hget, hwire⟩
    rw [frameCache_insertFrame] at hlookup
    split at hlookup
    · rename_i hcache
      rcases lookup_insert_cases hlookup with ⟨rfl, rfl⟩ | hlookup
      · exact ⟨frame, getElem?_length_append s.frames frame hnext, hframe⟩
      · rw [← hcache] at hlookup
        exact hold hlookup
    · exact hold hlookup
  · intro key id' hlookup
    change (c.insertFrame (cacheOfTag tag) (tag, address) id).stackCache.lookup key = _ at hlookup
    rw [stackCache_insertFrame] at hlookup
    exact h.nodes key id' hlookup
  · intro key id' hlookup
    change (c.insertFrame (cacheOfTag tag) (tag, address) id).threadCache.lookup key = _ at hlookup
    rw [threadCache_insertFrame] at hlookup
    exact h.threads key id' hlookup

theorem pushStack {frameId : UInt32} {node : StackNodeRecord}
    (hplanned : Planned c (.stack id parent frameId)) (hframe : node.frameId = frameId)
    (hparent : ParentIs parent node) :
    Synced (c.absorb (.stack id parent frameId)) (s.pushStack node) := by
  obtain ⟨⟨hlen, hne, hnew⟩, _⟩ := hplanned
  have hnext := toNat_add_one hne
  have hlt := (id + 1).toNat_lt
  have hlength : (s.stackNodes ++ [node]).length = s.stackNodes.length + 1 := List.length_append
  have hcount := h.stackCount
  refine ⟨h.nextFrame, ?_, h.threadCount, ?_, h.timestamp, h.frames, ?_, h.threads⟩
  · show (c.stackCache.insert (parent, frameId) id).entries.length = (s.stackNodes ++ [node]).length
    rw [length_insert_of_none hnew]
    omega
  · show (s.stackNodes ++ [node]).length < 2 ^ 32
    omega
  · intro key id' hlookup
    rcases lookup_insert_cases hlookup with ⟨rfl, rfl⟩ | hlookup
    · exact ⟨node, getElem?_length_append _ _ (hlen.trans h.stackCount), hframe, hparent⟩
    · obtain ⟨node', hget, hnode'⟩ := h.nodes key id' hlookup
      exact ⟨node', getElem?_of_append hget, hnode'⟩

theorem pushThread {processId : Int32} {threadId : UInt64} {thread : ThreadRecord}
    (hplanned : Planned c (.thread id processId threadId))
    (hpid : thread.processId.get = processId) (htid : tidTryFrom threadId = .ok thread.threadId) :
    Synced (c.absorb (.thread id processId threadId)) (s.pushThread thread) := by
  obtain ⟨hlen, _, hnew⟩ := hplanned
  refine ⟨h.nextFrame, h.stackCount, ?_, h.nodes_lt, h.timestamp, h.frames, h.nodes, ?_⟩
  · show (c.threadCache.insert (processId, threadId) id).entries.length =
      (s.threads ++ [thread]).length
    rw [length_insert_of_none hnew, List.length_append, h.threadCount]
    rfl
  · intro key id' hlookup
    rcases lookup_insert_cases hlookup with ⟨rfl, rfl⟩ | hlookup
    · exact ⟨thread, getElem?_length_append _ _ (hlen.trans h.threadCount), hpid, htid⟩
    · obtain ⟨thread', hget, hthread'⟩ := h.threads key id' hlookup
      exact ⟨thread', getElem?_of_append hget, hthread'⟩

/-- One record keeps the reader and the caches together. -/
theorem absorb (hplanned : Planned c record) {value : DecodedSpoolRecord}
    (hstep : step s record = .ok (value, t)) : Synced (c.absorb record) t := by
  obtain ⟨hdecoded, hcommit⟩ := step_ok.mp hstep
  cases record with
  | module module =>
    obtain ⟨found, _, rfl⟩ := map_ok.mp hdecoded
    cases hcommit
    refine ⟨h.nextFrame, h.stackCount, h.threadCount, h.nodes_lt, h.timestamp, ?_, h.nodes,
      h.threads⟩
    intro cache key id hlookup
    obtain ⟨frame, hget, hwire⟩ := h.frames cache key id (lookup_of_absorb (by simp) hlookup)
    exact ⟨frame, hget, frameFromWire_append hwire [found]⟩
  | frame id tag address =>
    obtain ⟨frame, hframe, rfl⟩ := map_ok.mp hdecoded
    cases hcommit
    exact h.pushFrame hplanned (frameDecoded_ok.mp hframe).2
  | stack id parent frameId =>
    obtain ⟨node, hnode, rfl⟩ := map_ok.mp hdecoded
    cases hcommit
    obtain ⟨_, hframe, hparent, _⟩ := stackDecoded_ok hnode
    exact h.pushStack hplanned hframe hparent
  | thread id processId threadId =>
    obtain ⟨thread, hthread, rfl⟩ := map_ok.mp hdecoded
    cases hcommit
    obtain ⟨_, hpid, htid⟩ := threadDecoded_ok.mp hthread
    exact h.pushThread hplanned hpid htid
  | sample delta threadId stackId =>
    obtain ⟨sample, hsample, rfl⟩ := map_ok.mp hdecoded
    cases hcommit
    refine ⟨h.nextFrame, h.stackCount, h.threadCount, h.nodes_lt, ?_, h.frames, h.nodes,
      h.threads⟩
    show (checkedAddSigned c.lastTimestampNs delta).getD c.lastTimestampNs = sample.timestampNs
    rw [h.timestamp, (sampleDecoded_ok.mp hsample).1]
    rfl
  | pythonRuntime timestampNs processId isPythonRuntime =>
    obtain ⟨runtime, _, rfl⟩ := map_ok.mp hdecoded
    cases hcommit
    exact h
  | moduleDeactivation | moduleDeactivationOne =>
    obtain ⟨found, _, rfl⟩ := map_ok.mp hdecoded
    obtain ⟨contexts, rfl⟩ := commit_deactivate hcommit (by simp)
    exact ⟨h.nextFrame, h.stackCount, h.threadCount, h.nodes_lt, h.timestamp,
      fun cache key id hlookup => h.frames cache key id (lookup_of_absorb (by simp) hlookup),
      h.nodes, h.threads⟩

/-- A record keeps the reader well formed. -/
theorem wellFormed (hs : WellFormed s) {value : DecodedSpoolRecord}
    (hstep : step s record = .ok (value, t)) : WellFormed t := by
  obtain ⟨hdecoded, hcommit⟩ := step_ok.mp hstep
  have hlen := h.nodes_lt
  obtain ⟨t', hcommit', ht⟩ := hs.commit (by omega) (decoded_accepts hdecoded)
  rw [hcommit] at hcommit'
  cases hcommit'
  exact ht

end

end Synced

theorem chain_of_parent {node : StackNodeRecord} (h : ParentIs parent node)
    {nodes chain : List StackNodeRecord} (hnode : nodes[i]? = some node)
    (hparent : (parent = NONE_U32 ∧ chain = []) ∨
      (parent ≠ NONE_U32 ∧ Chain nodes parent.toNat chain)) : Chain nodes i (node :: chain) := by
  rcases h with ⟨hroot, hnone⟩ | ⟨hne, hne', hsome⟩
  · rcases hparent with ⟨_, rfl⟩ | ⟨hne, _⟩
    · exact .root hnode hnone
    · exact absurd hroot hne
  · rcases hparent with ⟨hroot, _⟩ | ⟨_, hchain⟩
    · exact absurd hroot hne
    · have hindex : (parent + 1).toNat - 1 = parent.toNat := by
        rw [toNat_add_one hne]
        omega
      rw [← hindex] at hchain
      exact .link hnode hsome hchain

/-- The node stands for the frame. -/
def NodeFor (c : Caches) (node : StackNodeRecord) (frame : FrameRecord) : Prop :=
  FrameIn frame node.frameId c

/-- A path in the caches is a chain of nodes, read from its other end. -/
theorem Synced.chain_of_path {c : Caches} {s : ReaderState} (h : Synced c s) (hsane : Sane c)
    {last : UInt32} {frames : List FrameRecord} (hpath : PathIn c parent frames last)
    {chain : List StackNodeRecord} {before : List FrameRecord}
    (hbefore : List.Forall₂ (NodeFor c) chain before)
    (hparent : (parent = NONE_U32 ∧ chain = []) ∨
      (parent ≠ NONE_U32 ∧ Chain s.stackNodes parent.toNat chain)) :
    ∃ chain', List.Forall₂ (NodeFor c) chain' (frames.reverse ++ before) ∧
      ((last = NONE_U32 ∧ chain' = []) ∨
        (last ≠ NONE_U32 ∧ Chain s.stackNodes last.toNat chain')) := by
  induction hpath generalizing chain before with
  | nil parent => exact ⟨chain, hbefore, hparent⟩
  | @cons parent frameId stackId last frame frames hframe hlookup _ ih =>
    obtain ⟨node, hnode, hid, hlink⟩ := h.nodes _ _ hlookup
    have hfor : NodeFor c node frame := by
      unfold NodeFor
      rw [hid]
      exact hframe
    obtain ⟨chain', hall, hlast⟩ := ih (.cons hfor hbefore)
      (.inr ⟨hsane stackId ⟨_, hlookup⟩, chain_of_parent hlink hnode hparent⟩)
    refine ⟨chain', ?_, hlast⟩
    rw [List.reverse_cons, List.append_assoc]
    exact hall

/-- The chain of a sample stands for its frames. -/
theorem Synced.chain_of_stack {c : Caches} {s : ReaderState} (h : Synced c s) (hsane : Sane c)
    {stackId : UInt32} {frames : List FrameRecord} (hframes : frames ≠ [])
    (hpath : PathIn c NONE_U32 frames.reverse stackId) :
    ∃ chain, Chain s.stackNodes stackId.toNat chain ∧ List.Forall₂ (NodeFor c) chain frames := by
  obtain ⟨chain, hall, hlast⟩ := h.chain_of_path hsane hpath .nil (.inl ⟨rfl, rfl⟩)
  rw [List.reverse_reverse, List.append_nil] at hall
  rcases hlast with ⟨_, rfl⟩ | ⟨_, hchain⟩
  · exact absurd (List.forall₂_nil_left_iff.mp hall) hframes
  · exact ⟨chain, hchain, hall⟩

end StackPulse.Mirror
