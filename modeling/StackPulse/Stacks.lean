import StackPulse.OpenSpool

/-!
Stacks of a spool. A stack node names its frame and its parent node; the frames
of a sample are read by following the parents of its node. Linked node lists are
those in which every parent stands before its child, so that the recorded depth
is the length of the chain and following it never leaves the lists.
-/
namespace StackPulse.Stacks

open Model Decode ReaderFacts OpenSpool

structure StackFrameRef where
  id : UInt32
  frame : FrameRecord
  deriving DecidableEq

/-- The iterator over the frames of one stack, innermost frame first. -/
structure StackFrames where
  frames : List FrameRecord
  stackNodes : List StackNodeRecord
  current : UInt32
  remaining : ℕ

namespace StackFrames

def parentId (node : StackNodeRecord) : UInt32 :=
  match node.parent with
  | none => 0
  | some parent => parent.val - 1

def advance (it : StackFrames) : Except Stop (StackFrameRef × StackFrames) :=
  match it.stackNodes[it.current.toNat]? with
  | none => .error (.panic "stack node index")
  | some node =>
      if it.remaining = 0 then .error (.panic "remaining frames underflow")
      else match it.frames[node.frameId.toNat]? with
        | none => .error (.panic "frame index")
        | some frame => .ok (⟨node.frameId, frame⟩,
            { it with current := parentId node, remaining := it.remaining - 1 })

def nextWithId (it : StackFrames) : Except Stop (Option StackFrameRef × StackFrames) :=
  if it.remaining ≠ 0 then (fun p => (some p.1, p.2)) <$> it.advance else .ok (none, it)

/-- Call `next` until it returns nothing, for at most as many rounds as given. -/
def drain : ℕ → StackFrames → Except Stop (List StackFrameRef)
  | 0, _ => .error .pending
  | rounds + 1, it => do
      match ← it.nextWithId with
      | (none, _) => return []
      | (some ref, it) => return ref :: (← drain rounds it)

end StackFrames

def stackFrameRefs (definitions : SpoolDefinitions) (stackId : UInt32) :
    Except Stop StackFrames :=
  match definitions.stackNodes[stackId.toNat]? with
  | none => .error (invalidData s!"sample references missing stack node {stackId}")
  | some node => .ok
      { frames := definitions.frames
        stackNodes := definitions.stackNodes
        current := stackId
        remaining := node.depth }

def rawFrames (definitions : SpoolDefinitions) (stackId : UInt32) : Except Stop StackFrames :=
  match stackFrameRefs definitions stackId with
  | .ok it => .ok it
  | .error _ => .error (.panic "sample stack ids were validated while decoding the spool")

/-- The frames of a stack, as its iterator yields them. -/
def stackFrames (definitions : SpoolDefinitions) (stackId : UInt32) :
    Except Stop (List StackFrameRef) := do
  let it ← rawFrames definitions stackId
  it.drain (it.remaining + 1)

/-- The node names a known frame, and its parent stands before it. -/
def LinkedAt (nodes : List StackNodeRecord) (frameCount i : ℕ) (node : StackNodeRecord) : Prop :=
  node.frameId.toNat < frameCount ∧
    ((node.parent = none ∧ node.depth = 1) ∨
      ∃ parent before, node.parent = some parent ∧ parent.val.toNat - 1 < i ∧
        nodes[parent.val.toNat - 1]? = some before ∧ node.depth = before.depth + 1)

def Linked (nodes : List StackNodeRecord) (frameCount : ℕ) : Prop :=
  ∀ i node, nodes[i]? = some node → LinkedAt nodes frameCount i node

/-- The nodes from one node up to its root. -/
inductive Chain (nodes : List StackNodeRecord) : ℕ → List StackNodeRecord → Prop
  | root {i : ℕ} {node : StackNodeRecord} :
      nodes[i]? = some node → node.parent = none → Chain nodes i [node]
  | link {i : ℕ} {node : StackNodeRecord} {parent : {n : UInt32 // n ≠ 0}}
      {chain : List StackNodeRecord} :
      nodes[i]? = some node → node.parent = some parent →
        Chain nodes (parent.val.toNat - 1) chain → Chain nodes i (node :: chain)

variable {nodes : List StackNodeRecord} {frameCount : ℕ}

theorem Linked.mono (h : Linked nodes frameCount) {frameCount' : ℕ}
    (hle : frameCount ≤ frameCount') : Linked nodes frameCount' := by
  intro i node hnode
  obtain ⟨hframe, hlink⟩ := h i node hnode
  exact ⟨by omega, hlink⟩

theorem Linked.depth_le (h : Linked nodes frameCount) (i : ℕ) (node : StackNodeRecord)
    (hnode : nodes[i]? = some node) : node.depth ≤ i + 1 := by
  induction i using Nat.strong_induction_on generalizing node with
  | _ i ih =>
    rcases (h i node hnode).2 with ⟨_, hdepth⟩ | ⟨parent, before, _, hlt, hbefore, hdepth⟩
    · omega
    · have hle := ih _ hlt before hbefore
      omega

theorem toNat_sub_one {n : UInt32} (h : n ≠ 0) : (n - 1).toNat = n.toNat - 1 := by
  have hpos : 1 ≤ n.toNat := by
    apply Nat.one_le_iff_ne_zero.mpr
    intro hzero
    exact h (UInt32.toNat_inj.mp hzero)
  have hle : (1 : UInt32) ≤ n := hpos
  exact UInt32.toNat_sub_of_le n 1 hle

theorem toNat_add_one {id : UInt32} (h : id ≠ NONE_U32) : (id + 1).toNat = id.toNat + 1 := by
  have hlt := id.toNat_lt
  have hne : id.toNat ≠ 4294967295 := by
    intro heq
    exact h (UInt32.toNat_inj.mp heq)
  rw [UInt32.toNat_add]
  change (id.toNat + 1) % 2 ^ 32 = id.toNat + 1
  omega

/-- A node accepted by the reader keeps the list linked; the depth counter does
not saturate. -/
theorem Linked.push (h : Linked nodes frameCount) (hlen : nodes.length < 2 ^ 63)
    {node : StackNodeRecord} (hnode : NodeOver nodes frameCount node) :
    Linked (nodes ++ [node]) frameCount := by
  have hold : ∀ (i : ℕ) n, nodes[i]? = some n → (nodes ++ [node])[i]? = some n := by
    intro i n hn
    rw [List.getElem?_append_left (List.getElem?_eq_some_iff.mp hn).1]
    exact hn
  intro i n hn
  rcases Nat.lt_or_ge i nodes.length with hi | hi
  · rw [List.getElem?_append_left hi] at hn
    obtain ⟨hframe, hlink⟩ := h i n hn
    refine ⟨hframe, ?_⟩
    rcases hlink with hroot | ⟨parent, before, hparent, hlt, hbefore, hdepth⟩
    · exact .inl hroot
    · exact .inr ⟨parent, before, hparent, hlt, hold _ _ hbefore, hdepth⟩
  · rw [List.getElem?_append_right hi] at hn
    have hin : n ∈ [node] := List.mem_of_getElem? hn
    rw [List.mem_singleton] at hin
    subst hin
    refine ⟨hnode.frame_lt, ?_⟩
    rcases hnode.chain with hroot | ⟨id, hne, before, hparent, hid, hbefore, hdepth⟩
    · exact .inl hroot
    · have hsub : (id + 1).toNat - 1 = id.toNat := by
        rw [toNat_add_one hid]
        omega
      have hidlt : id.toNat < nodes.length := (List.getElem?_eq_some_iff.mp hbefore).1
      have hbound := h.depth_le id.toNat before hbefore
      refine .inr ⟨⟨id + 1, hne⟩, before, hparent, ?_, ?_, ?_⟩
      · simp only [hsub]
        omega
      · simp only [hsub]
        exact hold _ _ hbefore
      · rw [hdepth, saturatingSucc]
        omega

/-- The recorded depth is the length of the chain of parents. -/
theorem Linked.exists_chain (h : Linked nodes frameCount) (i : ℕ) (node : StackNodeRecord)
    (hnode : nodes[i]? = some node) :
    ∃ chain, Chain nodes i chain ∧ chain.length = node.depth ∧
      ∀ n ∈ chain, n.frameId.toNat < frameCount := by
  induction i using Nat.strong_induction_on generalizing node with
  | _ i ih =>
    obtain ⟨hframe, hlink⟩ := h i node hnode
    rcases hlink with ⟨hroot, hdepth⟩ | ⟨parent, before, hparent, hlt, hbefore, hdepth⟩
    · refine ⟨[node], .root hnode hroot, ?_, ?_⟩
      · rw [hdepth]
        rfl
      · exact List.forall_mem_singleton.mpr hframe
    · obtain ⟨chain, hchain, hlength, hframes⟩ := ih _ hlt before hbefore
      refine ⟨node :: chain, .link hnode hparent hchain, ?_, ?_⟩
      · rw [List.length_cons, hlength, hdepth]
      · exact List.forall_mem_cons.mpr ⟨hframe, hframes⟩

/-- The frame a node refers to. -/
def FrameOf (frames : List FrameRecord) (node : StackNodeRecord) (ref : StackFrameRef) : Prop :=
  ref.id = node.frameId ∧ frames[node.frameId.toNat]? = some ref.frame

theorem drain_succ {frames : List FrameRecord} {current : UInt32} {node : StackNodeRecord}
    {frame : FrameRecord} (hnode : nodes[current.toNat]? = some node)
    (hframe : frames[node.frameId.toNat]? = some frame) (rounds remaining : ℕ)
    (refs : List StackFrameRef)
    (hrest : StackFrames.drain rounds ⟨frames, nodes, StackFrames.parentId node, remaining⟩ =
      .ok refs) :
    StackFrames.drain (rounds + 1) ⟨frames, nodes, current, remaining + 1⟩ =
      .ok (⟨node.frameId, frame⟩ :: refs) := by
  have hadvance : StackFrames.advance ⟨frames, nodes, current, remaining + 1⟩ =
      .ok (⟨node.frameId, frame⟩, ⟨frames, nodes, StackFrames.parentId node, remaining⟩) := by
    unfold StackFrames.advance
    simp only [hnode, hframe]
    rw [if_neg (Nat.succ_ne_zero remaining)]
    rfl
  have hnext : StackFrames.nextWithId ⟨frames, nodes, current, remaining + 1⟩ =
      .ok (some ⟨node.frameId, frame⟩,
        ⟨frames, nodes, StackFrames.parentId node, remaining⟩) := by
    unfold StackFrames.nextWithId
    rw [if_pos (Nat.succ_ne_zero remaining), hadvance]
    rfl
  rw [StackFrames.drain, hnext]
  simp only [bind, Except.bind]
  rw [hrest]
  rfl

/-- Draining the iterator follows the chain. -/
theorem drain_chain {frames : List FrameRecord} {i : ℕ} {chain : List StackNodeRecord}
    (hchain : Chain nodes i chain) (hframes : ∀ n ∈ chain, n.frameId.toNat < frames.length)
    (current : UInt32) (hcurrent : current.toNat = i) :
    ∃ refs, StackFrames.drain (chain.length + 1) ⟨frames, nodes, current, chain.length⟩ =
      .ok refs ∧ List.Forall₂ (FrameOf frames) chain refs := by
  induction hchain generalizing current with
  | @root i node hnode hroot =>
    subst hcurrent
    have hframe := List.getElem?_eq_getElem (hframes node (.head _))
    exact ⟨_, drain_succ hnode hframe 1 0 [] rfl,
      .cons ⟨rfl, hframe⟩ .nil⟩
  | @link i node parent chain hnode hparent hchain ih =>
    subst hcurrent
    have hframe := List.getElem?_eq_getElem (hframes node (.head _))
    have hid : (StackFrames.parentId node).toNat = parent.val.toNat - 1 := by
      unfold StackFrames.parentId
      rw [hparent]
      exact toNat_sub_one parent.property
    obtain ⟨refs, hrefs, hall⟩ :=
      ih (fun n hn => hframes n (.tail _ hn)) (StackFrames.parentId node) hid
    exact ⟨_, drain_succ hnode hframe (chain.length + 1) chain.length refs hrefs,
      .cons ⟨rfl, hframe⟩ hall⟩

/-- Iterating over the stack of a known node yields as many frames as it is deep. -/
theorem stackFrames_eq (definitions : SpoolDefinitions)
    (h : Linked definitions.stackNodes definitions.frames.length) (stackId : UInt32)
    (hlt : stackId.toNat < definitions.stackNodes.length) :
    ∃ chain refs, Chain definitions.stackNodes stackId.toNat chain ∧
      chain.length = definitions.stackNodes[stackId.toNat].depth ∧
      rawFrames definitions stackId = .ok
        ⟨definitions.frames, definitions.stackNodes, stackId, chain.length⟩ ∧
      stackFrames definitions stackId = .ok refs ∧
      List.Forall₂ (FrameOf definitions.frames) chain refs := by
  have hnode := List.getElem?_eq_getElem hlt
  obtain ⟨chain, hchain, hlength, hframes⟩ := h.exists_chain _ _ hnode
  obtain ⟨refs, hrefs, hall⟩ := drain_chain hchain hframes stackId rfl
  have hraw : rawFrames definitions stackId = .ok
      ⟨definitions.frames, definitions.stackNodes, stackId, chain.length⟩ := by
    unfold rawFrames stackFrameRefs
    rw [hnode, hlength]
  refine ⟨chain, refs, hchain, hlength, hraw, ?_, hall⟩
  unfold stackFrames
  rw [hraw]
  exact hrefs

/-- A node has one chain. -/
theorem Chain.unique {i : ℕ} {chain chain' : List StackNodeRecord} (h : Chain nodes i chain)
    (h' : Chain nodes i chain') : chain = chain' := by
  induction h generalizing chain' with
  | root hnode hroot =>
    rcases h' with ⟨hnode', _⟩ | ⟨hnode', hparent', _⟩
    · rw [hnode] at hnode'
      cases hnode'
      rfl
    · rw [hnode] at hnode'
      cases hnode'
      rw [hroot] at hparent'
      cases hparent'
  | link hnode hparent _ ih =>
    rcases h' with ⟨hnode', hroot'⟩ | ⟨hnode', hparent', hchain'⟩
    · rw [hnode] at hnode'
      cases hnode'
      rw [hparent] at hroot'
      cases hroot'
    · rw [hnode] at hnode'
      cases hnode'
      rw [hparent] at hparent'
      cases hparent'
      rw [ih hchain']

end StackPulse.Stacks
