import StackPulse.JitProtocol

/-!
What the traversal of registration lists accepts. The list lies in the memory of another process,
which may link its nodes in any way. It is accepted exactly when it is a doubly linked list that
ends, is not too long and has no oversized image; and a set of lists when, in addition, nodes that
lists share agree and all nodes together stay below the limits.
-/
namespace StackPulse.JitTraversal

open OrderedMap BTreeMap Attempts JitProtocol

variable {entries joined : BTreeMap ℕ JitCodeEntry} {nodes : List (ℕ × JitCodeEntry)}

def entryOf (bytes : List UInt8) : JitCodeEntry where
  nextEntry := field bytes 8 0
  prevEntry := field bytes 8 1
  symfileAddr := field bytes 8 2
  symfileSize := field bytes 8 3

/-- The node at an address, if it can be read. -/
def nodeAt (memory : Memory) (time address : ℕ) : Option JitCodeEntry :=
  if 2 ^ 64 ≤ address + 32 then none
  else
    match memory.read time address 32 with
    | .ok bytes => some (entryOf bytes)
    | .error _ => none

/-- A node that points back to the one before it and has an image of a size that is accepted. -/
structure ValidNode (previous : ℕ) (entry : JitCodeEntry) : Prop where
  prevEntry : entry.prevEntry = previous
  positive : 1 ≤ entry.symfileSize
  bounded : entry.symfileSize ≤ MAX_JIT_READ_SIZE

/-- Following the links from `address` visits these nodes and then reaches null. -/
def Linked (node : ℕ → Option JitCodeEntry) : ℕ → ℕ → List (ℕ × JitCodeEntry) → Prop
  | address, _, [] => address = 0
  | address, previous, (a, entry) :: rest =>
      address ≠ 0 ∧ a = address ∧ node address = some entry ∧ ValidNode previous entry ∧
        Linked node entry.nextEntry address rest

structure ValidList (node : ℕ → Option JitCodeEntry) (firstEntry : ℕ)
    (nodes : List (ℕ × JitCodeEntry)) : Prop where
  linked : Linked node firstEntry 0 nodes
  distinct : (nodes.map Prod.fst).Nodup
  bounded : nodes.length ≤ MAX_JIT_ENTRIES

/-- The map `joined` has the entries of `entries` and these nodes. -/
def Joins (entries : BTreeMap ℕ JitCodeEntry) (nodes : List (ℕ × JitCodeEntry))
    (joined : BTreeMap ℕ JitCodeEntry) : Prop :=
  ∀ a entry, joined.get a = some entry ↔ entries.get a = some entry ∨ (a, entry) ∈ nodes

section

variable {memory : Memory} {address previous time : ℕ} {entry : JitCodeEntry}

theorem entryFault_eq_none :
    entryFault address previous entry = none ↔ ValidNode previous entry := by
  unfold entryFault
  constructor
  · intro h
    split at h
    · cases h
    · rename_i hlarge
      split at h
      · cases h
      · rename_i hzero
        split at h
        · cases h
        · rename_i hprev
          exact ⟨not_not.mp hprev, by omega, by omega⟩
  · rintro ⟨hprev, hpositive, hbounded⟩
    rw [if_neg (by omega), if_neg (by omega), if_neg (not_not.mpr hprev)]

/-- Reading a node takes at most one read, and succeeds where there is one. -/
theorem readArray_node (memory : Memory) (address time : ℕ) :
    (∃ bytes, readArray memory 32 address time = (.ok bytes, time + 1) ∧
      nodeAt memory time address = some (entryOf bytes)) ∨
    ∃ fault t, readArray memory 32 address time = (.error fault, t) ∧ time ≤ t ∧ t ≤ time + 1 ∧
      nodeAt memory time address = none := by
  unfold readArray nodeAt
  by_cases hrange : 2 ^ 64 ≤ address + 32
  · rw [if_pos hrange, if_pos hrange]
    exact .inr ⟨_, time, rfl, le_rfl, Nat.le_succ _, rfl⟩
  · rw [if_neg hrange, if_neg hrange]
    unfold Memory.access
    cases memory.read time address 32 with
    | ok bytes => exact .inl ⟨bytes, rfl, rfl⟩
    | error e => exact .inr ⟨_, time + 1, rfl, Nat.le_succ _, le_rfl, rfl⟩

/-- A node that is new goes from the list to the map. -/
theorem joins_cons (hnew : entries.get address = none) :
    Joins entries ((address, entry) :: nodes) joined ↔
      Joins (entries.insert address entry) nodes joined := by
  unfold Joins
  refine forall_congr' fun a => forall_congr' fun e => ?_
  rw [get_insert, List.mem_cons, Prod.mk.injEq]
  by_cases ha : a = address
  · rw [if_pos ha, ha, hnew]
    simp only [reduceCtorEq, false_or, true_and, Option.some.injEq, eq_comm]
  · rw [if_neg ha]
    simp only [ha, false_and, false_or]

/-- A node that the map has already adds nothing. -/
theorem joins_cons_known (hknown : entries.get address = some entry) :
    Joins entries ((address, entry) :: nodes) joined ↔ Joins entries nodes joined := by
  unfold Joins
  refine forall_congr' fun a => forall_congr' fun e => ?_
  have hsame : (a, e) = (address, entry) → entries.get a = some e := by
    intro heq
    obtain ⟨rfl, rfl⟩ := Prod.mk.inj heq
    exact hknown
  rw [List.mem_cons, ← or_assoc, or_iff_left_of_imp hsame]

theorem joins_nil : Joins entries [] joined ↔ joined = entries := by
  constructor
  · intro h
    apply ext_get
    intro a
    apply Option.ext
    intro entry
    rw [h a entry]
    simp only [List.not_mem_nil, or_false]
  · rintro rfl a entry
    simp only [List.not_mem_nil, or_false]

/-- The nodes are none of those that were seen, and fit below the limit with them. -/
structure Fresh (entries : BTreeMap ℕ JitCodeEntry) (nodes : List (ℕ × JitCodeEntry)) : Prop where
  distinct : (nodes.map Prod.fst).Nodup
  unseen : ∀ a ∈ nodes.map Prod.fst, entries.get a = none
  bounded : entries.len + nodes.length ≤ MAX_JIT_ENTRIES

theorem fresh_cons (hnew : entries.get address = none) :
    Fresh entries ((address, entry) :: nodes) ↔ Fresh (entries.insert address entry) nodes := by
  have hlen := len_insert_of_none hnew entry
  constructor
  · rintro ⟨hdistinct, hunseen, hbounded⟩
    rw [List.map_cons, List.nodup_cons] at hdistinct
    rw [List.length_cons] at hbounded
    refine ⟨hdistinct.2, fun a ha => ?_, by omega⟩
    rw [get_insert, if_neg]
    · exact hunseen a (.tail _ ha)
    · rintro rfl
      exact hdistinct.1 ha
  · rintro ⟨hdistinct, hunseen, hbounded⟩
    have hrest : ∀ a ∈ nodes.map Prod.fst, a ≠ address ∧ entries.get a = none := by
      intro a ha
      have hnone := hunseen a ha
      rw [get_insert] at hnone
      split at hnone
      · cases hnone
      · rename_i hne
        exact ⟨hne, hnone⟩
    refine ⟨?_, ?_, ?_⟩
    · rw [List.map_cons, List.nodup_cons]
      exact ⟨fun hmem => (hrest _ hmem).1 rfl, hdistinct⟩
    · exact List.forall_mem_cons.mpr ⟨hnew, fun a ha => (hrest a ha).2⟩
    · rw [List.length_cons]
      omega

/-- The result is the map of the nodes that are linked from here, or there is no such list. -/
def Follows (node : ℕ → Option JitCodeEntry) (entries : BTreeMap ℕ JitCodeEntry)
    (address previous : ℕ) (result : Except Fault (BTreeMap ℕ JitCodeEntry)) : Prop :=
  ∀ joined, result = .ok joined ↔
    ∃ nodes, Linked node address previous nodes ∧ Fresh entries nodes ∧ Joins entries nodes joined

/-- What following the links from a node comes to, and the number of reads it takes. The memory
is to show the same nodes meanwhile. -/
structure Traversed (memory : Memory) (node : ℕ → Option JitCodeEntry)
    (entries : BTreeMap ℕ JitCodeEntry) (address previous time : ℕ)
    (run : Except Fault (BTreeMap ℕ JitCodeEntry) × ℕ) : Prop where
  started : time ≤ run.2
  reads : run.2 + entries.len ≤ time + MAX_JIT_ENTRIES
  follows : (∀ t, time ≤ t → t ≤ run.2 → nodeAt memory t = node) →
    Follows node entries address previous run.1

variable {node : ℕ → Option JitCodeEntry}

theorem follows_error {fault : Fault}
    (h : ∀ nodes, Linked node address previous nodes → ¬Fresh entries nodes) :
    Follows node entries address previous (.error fault) := by
  intro joined
  constructor
  · intro hok
    cases hok
  · rintro ⟨nodes, hlinked, hfresh, -⟩
    exact absurd hfresh (h nodes hlinked)

/-- A list that does not end here goes on with the node at the address. -/
theorem Linked.exists_cons (h : Linked node address previous nodes) (haddress : address ≠ 0) :
    ∃ entry rest, nodes = (address, entry) :: rest ∧ node address = some entry ∧
      ValidNode previous entry ∧ Linked node entry.nextEntry address rest := by
  cases nodes with
  | nil => exact absurd h haddress
  | cons first rest =>
    obtain ⟨a, entry⟩ := first
    obtain ⟨-, rfl, hnode, hvalid, hrest⟩ := h
    exact ⟨entry, rest, rfl, hnode, hvalid, hrest⟩

theorem Follows.step {result : Except Fault (BTreeMap ℕ JitCodeEntry)} (haddress : address ≠ 0)
    (hnew : entries.get address = none) (hnode : node address = some entry)
    (hvalid : ValidNode previous entry)
    (h : Follows node (entries.insert address entry) entry.nextEntry address result) :
    Follows node entries address previous result := by
  intro joined
  rw [h joined]
  constructor
  · rintro ⟨rest, hlinked, hfresh, hjoins⟩
    exact ⟨(address, entry) :: rest, ⟨haddress, rfl, hnode, hvalid, hlinked⟩,
      (fresh_cons hnew).mpr hfresh, (joins_cons hnew).mpr hjoins⟩
  · rintro ⟨nodes, hlinked, hfresh, hjoins⟩
    obtain ⟨entry', rest, rfl, hnode', -, hrest⟩ := hlinked.exists_cons haddress
    cases hnode.symm.trans hnode'
    exact ⟨rest, hrest, (fresh_cons hnew).mp hfresh, (joins_cons hnew).mp hjoins⟩

/-- A traversal that ends before it reads. -/
theorem traversed_at_once {result : Except Fault (BTreeMap ℕ JitCodeEntry)}
    (hlen : entries.len ≤ MAX_JIT_ENTRIES) (h : Follows node entries address previous result) :
    Traversed memory node entries address previous time (result, time) :=
  ⟨le_rfl, Nat.add_le_add_left hlen _, fun _ => h⟩

/-- One round that reads a node: it is refused, or the traversal goes on behind it. -/
theorem readEntriesLoop_of_read {fuel : ℕ} {bytes : List UInt8} (hzero : address ≠ 0)
    (hfull : entries.len ≠ MAX_JIT_ENTRIES) (hseen : ¬(entries.get address).isSome = true)
    (hread : readArray memory 32 address time = (.ok bytes, time + 1)) :
    readEntriesLoop memory (fuel + 1) entries address previous time =
      match entryFault address previous (entryOf bytes) with
      | some fault => (.error fault, time + 1)
      | none => readEntriesLoop memory fuel (entries.insert address (entryOf bytes))
          (entryOf bytes).nextEntry address (time + 1) := by
  rw [readEntriesLoop, if_neg hzero, if_neg hfull, if_neg hseen, bind_of_ok hread]
  show (match entryFault address previous (entryOf bytes) with
    | some fault => throw fault
    | none => readEntriesLoop memory fuel (entries.insert address (entryOf bytes))
        (entryOf bytes).nextEntry address : Access _) (time + 1) = _
  cases entryFault address previous (entryOf bytes) <;> rfl

/-- By induction on the rounds left: the traversal takes at most as many reads as there is room for
entries, and accepts the lists that are linked in the memory it sees. -/
theorem readEntriesLoop_traversed (fuel : ℕ) (entries : BTreeMap ℕ JitCodeEntry)
    (address previous time : ℕ) (hfuel : MAX_JIT_ENTRIES < entries.len + fuel)
    (hlen : entries.len ≤ MAX_JIT_ENTRIES) :
    Traversed memory node entries address previous time
      (readEntriesLoop memory fuel entries address previous time) := by
  induction fuel generalizing entries address previous time with
  | zero => omega
  | succ fuel ih =>
    by_cases hzero : address = 0
    · rw [readEntriesLoop, if_pos hzero]
      refine traversed_at_once hlen fun joined => ?_
      constructor
      · intro h
        cases h
        exact ⟨[], hzero, ⟨List.nodup_nil, fun a ha => (by cases ha), hlen⟩, joins_nil.mpr rfl⟩
      · rintro ⟨nodes, hlinked, -, hjoins⟩
        cases nodes with
        | nil => rw [joins_nil.mp hjoins]
        | cons first rest => exact absurd hzero hlinked.1
    by_cases hfull : entries.len = MAX_JIT_ENTRIES
    · rw [readEntriesLoop, if_neg hzero, if_pos hfull]
      refine traversed_at_once hlen (follows_error fun nodes hlinked hfresh => ?_)
      obtain ⟨entry, rest, rfl, -⟩ := hlinked.exists_cons hzero
      have hbounded := hfresh.bounded
      rw [List.length_cons] at hbounded
      omega
    by_cases hseen : (entries.get address).isSome = true
    · rw [readEntriesLoop, if_neg hzero, if_neg hfull, if_pos hseen]
      refine traversed_at_once hlen (follows_error fun nodes hlinked hfresh => ?_)
      obtain ⟨entry, rest, rfl, -⟩ := hlinked.exists_cons hzero
      rw [hfresh.unseen address List.mem_cons_self] at hseen
      cases hseen
    have hnew : entries.get address = none := Option.not_isSome_iff_eq_none.mp hseen
    rcases readArray_node memory address time with
      ⟨bytes, hread, hnode⟩ | ⟨fault, t, hread, hle, hge, hnode⟩
    · rw [readEntriesLoop_of_read hzero hfull hseen hread]
      cases hfault : entryFault address previous (entryOf bytes) with
      | some fault =>
        refine ⟨Nat.le_succ _, by show time + 1 + _ ≤ _; omega, fun hsteady => ?_⟩
        refine follows_error fun nodes hlinked _ => ?_
        obtain ⟨entry, rest, rfl, hentry, hvalid, -⟩ := hlinked.exists_cons hzero
        rw [← hsteady time le_rfl (Nat.le_succ _), hnode] at hentry
        cases hentry
        rw [entryFault_eq_none.mpr hvalid] at hfault
        cases hfault
      | none =>
        have hroom := len_insert_of_none hnew (entryOf bytes)
        have hlater := ih (entries.insert address (entryOf bytes)) (entryOf bytes).nextEntry address
          (time + 1) (by omega) (by omega)
        have hstarted := hlater.started
        have hreads := hlater.reads
        show Traversed memory node entries address previous time
          (readEntriesLoop memory fuel (entries.insert address (entryOf bytes))
            (entryOf bytes).nextEntry address (time + 1))
        refine ⟨by omega, by omega, fun hsteady => ?_⟩
        have hnode' : node address = some (entryOf bytes) := by
          rw [← hsteady time le_rfl (by omega), hnode]
        exact (hlater.follows fun t ht => hsteady t (by omega)).step hzero hnew hnode'
          (entryFault_eq_none.mp hfault)
    · rw [readEntriesLoop, if_neg hzero, if_neg hfull, if_neg hseen, bind_of_error hread]
      refine ⟨hle, by show t + _ ≤ _; omega, fun hsteady => follows_error fun nodes hlinked _ => ?_⟩
      obtain ⟨entry, rest, rfl, hentry, -⟩ := hlinked.exists_cons hzero
      rw [← hsteady time le_rfl hle, hnode] at hentry
      cases hentry

theorem joins_empty_iff :
    Joins .empty nodes joined ↔ ∀ a entry, joined.get a = some entry ↔ (a, entry) ∈ nodes := by
  unfold Joins
  simp only [get_empty, reduceCtorEq, false_or]

/-- A list is accepted exactly when it is valid, after at most as many reads as it may have
nodes. -/
theorem readEntries_traversed (memory : Memory) (node : ℕ → Option JitCodeEntry)
    (firstEntry time : ℕ) :
    (readEntries memory firstEntry time).2 ≤ time + MAX_JIT_ENTRIES ∧
    ((∀ t, time ≤ t → t ≤ (readEntries memory firstEntry time).2 → nodeAt memory t = node) →
      ∀ listed, (readEntries memory firstEntry time).1 = .ok listed ↔
        ∃ nodes, ValidList node firstEntry nodes ∧ Joins .empty nodes listed) := by
  have h : Traversed memory node .empty firstEntry 0 time (readEntries memory firstEntry time) :=
    readEntriesLoop_traversed _ _ _ _ _ (Nat.lt_succ_of_lt (Nat.lt_succ_self _)) (Nat.zero_le _)
  have hempty : (empty : BTreeMap ℕ JitCodeEntry).len = 0 := rfl
  refine ⟨h.reads, fun hsteady listed => ?_⟩
  rw [h.follows hsteady listed]
  constructor
  · rintro ⟨nodes, hlinked, hfresh, hjoins⟩
    have hbounded := hfresh.bounded
    exact ⟨nodes, ⟨hlinked, hfresh.distinct, by omega⟩, hjoins⟩
  · rintro ⟨nodes, hvalid, hjoins⟩
    have hbounded := hvalid.bounded
    exact ⟨nodes, hvalid.linked, ⟨hvalid.distinct, fun a _ => get_empty a, by omega⟩, hjoins⟩

end

/-- The limits on all registrations together. -/
structure WithinLimits (entries : BTreeMap ℕ JitCodeEntry) : Prop where
  count : entries.len ≤ MAX_JIT_ENTRIES
  size : entries.sum JitCodeEntry.symfileSize ≤ MAX_JIT_TOTAL_SIZE

theorem WithinLimits.of_subset (h : WithinLimits joined)
    (hsub : ∀ a entry, entries.get a = some entry → joined.get a = some entry) :
    WithinLimits entries := by
  have hcount := sum_le_of_subset (fun _ => 1) hsub
  rw [← len_eq_sum, ← len_eq_sum] at hcount
  exact ⟨hcount.trans h.count, (sum_le_of_subset _ hsub).trans h.size⟩

theorem joins_subset (h : Joins entries nodes joined) (a : ℕ) (entry : JitCodeEntry)
    (hget : entries.get a = some entry) : joined.get a = some entry :=
  (h a entry).mpr (.inl hget)

/-- Nodes are put to the others exactly when they agree with them and stay within the limits. -/
theorem mergeEntries_eq_ok {listed : List (ℕ × JitCodeEntry)} (hlimits : WithinLimits entries)
    (joined : BTreeMap ℕ JitCodeEntry) (total : ℕ) :
    mergeEntries listed entries (entries.sum JitCodeEntry.symfileSize) = .ok (joined, total) ↔
      Joins entries listed joined ∧ WithinLimits joined ∧
        total = joined.sum JitCodeEntry.symfileSize := by
  induction listed generalizing entries with
  | nil =>
    rw [mergeEntries, joins_nil]
    constructor
    · intro h
      cases h
      exact ⟨rfl, hlimits, rfl⟩
    · rintro ⟨rfl, -, rfl⟩
      rfl
  | cons first more ih =>
    obtain ⟨address, entry⟩ := first
    rw [mergeEntries]
    cases hget : entries.get address with
    | some previous =>
      by_cases hsame : previous = entry
      · subst hsame
        rw [joins_cons_known hget, ← ih hlimits]
        simp only [ne_eq, not_true_eq_false, if_false]
      · simp only [ne_eq, hsame, not_false_eq_true, if_true]
        constructor
        · intro h
          cases h
        · rintro ⟨hjoins, -⟩
          have hold := joins_subset hjoins _ _ hget
          have hnew := (hjoins address entry).mpr (.inr (.head _))
          exact absurd (Option.some.inj (hold.symm.trans hnew)) hsame
    | none =>
      rw [joins_cons hget]
      have hsum := sum_insert_of_none JitCodeEntry.symfileSize hget entry
      by_cases hwithin : WithinLimits (entries.insert address entry)
      · rw [← ih hwithin, hsum]
        have hcount := hwithin.count
        have hsize := hwithin.size
        rw [hsum] at hsize
        have hword : MAX_JIT_TOTAL_SIZE < 2 ^ 64 := by decide
        simp only
        rw [if_neg (by omega), if_neg (by omega), if_neg (by omega)]
      · constructor
        · intro h
          simp only at h
          split at h
          · cases h
          · split at h
            · cases h
            · split at h
              · cases h
              · exact absurd ⟨by omega, by rw [hsum]; omega⟩ hwithin
        · rintro ⟨hjoins, hlimits', -⟩
          exact absurd (hlimits'.of_subset (joins_subset hjoins)) hwithin

/-- While each list is read, the memory shows the same nodes. -/
def Steady (memory : Memory) : ℕ → List (ℕ × JitDescriptor) → List (ℕ → Option JitCodeEntry) → Prop
  | _, [], [] => True
  | time, (_, descriptor) :: descriptors, node :: nodes =>
      (∀ t, time ≤ t → t ≤ (readEntries memory descriptor.firstEntry time).2 →
        nodeAt memory t = node) ∧
      Steady memory (readEntries memory descriptor.firstEntry time).2 descriptors nodes
  | _, _, _ => False

/-- The lists of the descriptors, each in the memory that was there for it. -/
def ListsOf : List (ℕ × JitDescriptor) → List (ℕ → Option JitCodeEntry) →
    List (List (ℕ × JitCodeEntry)) → Prop
  | [], [], [] => True
  | (_, descriptor) :: descriptors, node :: nodes, list :: lists =>
      ValidList node descriptor.firstEntry list ∧ ListsOf descriptors nodes lists
  | _, _, _ => False

theorem joins_entries {m : BTreeMap ℕ JitCodeEntry} (h : Joins .empty nodes m) :
    Joins entries m.entries joined ↔ Joins entries nodes joined := by
  have hmem : ∀ e, e ∈ m.entries ↔ e ∈ nodes := fun e => by
    rw [← joins_empty_iff.mp h e.1 e.2, get_eq_some]
  unfold Joins
  simp only [hmem]

/-- Joining two lists is joining one after the other. -/
theorem joins_append {more : List (ℕ × JitCodeEntry)} : Joins entries (nodes ++ more) joined ↔
      ∃ between, Joins entries nodes between ∧ Joins between more joined := by
  constructor
  · intro h
    refine ⟨joined.retain fun a entry =>
      decide (entries.get a = some entry ∨ (a, entry) ∈ nodes), fun a entry => ?_,
        fun a entry => ?_⟩
    · rw [get_retain, h a entry, decide_eq_true_iff, List.mem_append]
      tauto
    · rw [get_retain, h a entry, decide_eq_true_iff, List.mem_append]
      tauto
  · rintro ⟨between, hfirst, hsecond⟩ a entry
    rw [hsecond a entry, hfirst a entry, List.mem_append, or_assoc]

/-- The part of a joined map that comes from one list. -/
theorem joins_part {list : List (ℕ × JitCodeEntry)} {lists : List (List (ℕ × JitCodeEntry))}
    (h : Joins entries (list :: lists).flatten joined) :
    Joins .empty list (joined.retain fun a entry => decide ((a, entry) ∈ list)) := by
  rw [joins_empty_iff]
  intro a entry
  rw [get_retain, h a entry, decide_eq_true_iff, List.flatten_cons, List.mem_append]
  tauto

theorem ListsOf.exists_cons {location : ℕ} {descriptor : JitDescriptor}
    {descriptors : List (ℕ × JitDescriptor)} {node : ℕ → Option JitCodeEntry}
    {nodes : List (ℕ → Option JitCodeEntry)} {lists : List (List (ℕ × JitCodeEntry))}
    (h : ListsOf ((location, descriptor) :: descriptors) (node :: nodes) lists) :
    ∃ list rest, lists = list :: rest ∧ ValidList node descriptor.firstEntry list ∧
      ListsOf descriptors nodes rest := by
  cases lists with
  | nil => exact h.elim
  | cons list rest => exact ⟨list, rest, rfl, h.1, h.2⟩

/-- A list that was read is put to the others before the next one is. -/
theorem readSnapshotLoop_of_read {memory : Memory} {location time later totalSize : ℕ}
    {descriptor : JitDescriptor} {descriptors : List (ℕ × JitDescriptor)}
    {listed : BTreeMap ℕ JitCodeEntry}
    (hread : readEntries memory descriptor.firstEntry time = (.ok listed, later)) :
    readSnapshotLoop memory ((location, descriptor) :: descriptors) entries totalSize time =
      match mergeEntries listed.entries entries totalSize with
      | .ok merged => readSnapshotLoop memory descriptors merged.1 merged.2 later
      | .error fault => (.error fault, later) := by
  rw [readSnapshotLoop, bind_of_ok hread]
  cases hmerge : mergeEntries listed.entries entries totalSize with
  | ok merged =>
    refine bind_of_ok ?_
    rfl
  | error fault =>
    refine bind_of_error ?_
    rfl

/-- By induction on the descriptors: the lists are read one after the other, and each is put to
those before. -/
theorem readSnapshotLoop_eq_ok (memory : Memory) (descriptors : List (ℕ × JitDescriptor))
    (nodes : List (ℕ → Option JitCodeEntry)) (time : ℕ)
    (hsteady : Steady memory time descriptors nodes)
    (entries : BTreeMap ℕ JitCodeEntry) (hlimits : WithinLimits entries)
    (joined : BTreeMap ℕ JitCodeEntry) :
    (readSnapshotLoop memory descriptors entries (entries.sum JitCodeEntry.symfileSize) time).1 =
        .ok joined ↔
      ∃ lists, ListsOf descriptors nodes lists ∧ Joins entries lists.flatten joined ∧
        WithinLimits joined := by
  induction descriptors generalizing nodes time entries with
  | nil =>
    cases nodes with
    | cons node nodes => exact hsteady.elim
    | nil =>
      constructor
      · intro h
        cases h
        exact ⟨[], trivial, joins_nil.mpr rfl, hlimits⟩
      · rintro ⟨lists, hlists, hjoins, -⟩
        cases lists with
        | nil =>
          rw [joins_nil.mp hjoins]
          rfl
        | cons list lists => exact hlists.elim
  | cons first descriptors ih =>
    obtain ⟨location, descriptor⟩ := first
    cases nodes with
    | nil => exact hsteady.elim
    | cons node nodes =>
      obtain ⟨hnode, hrest⟩ := hsteady
      have hlist := (readEntries_traversed memory node descriptor.firstEntry time).2 hnode
      rcases hread : readEntries memory descriptor.firstEntry time with ⟨fault | listed, later⟩ <;>
        rw [hread] at hlist hrest
      · rw [readSnapshotLoop, bind_of_error hread]
        constructor
        · intro h
          cases h
        · rintro ⟨lists, hlists, hjoins, -⟩
          obtain ⟨list, rest, rfl, hvalid, -⟩ := hlists.exists_cons
          have hfail := (hlist _).mpr ⟨list, hvalid, joins_part hjoins⟩
          cases hfail
      · rw [readSnapshotLoop_of_read hread]
        constructor
        · intro h
          cases hmerge : mergeEntries listed.entries entries
            (entries.sum JitCodeEntry.symfileSize) with
          | error fault =>
            rw [hmerge] at h
            cases h
          | ok merged =>
            obtain ⟨between, total⟩ := merged
            rw [hmerge] at h
            obtain ⟨hbetween, hwithin, rfl⟩ := (mergeEntries_eq_ok hlimits _ _).mp hmerge
            obtain ⟨lists, hlists, hjoins, hall⟩ := (ih nodes later hrest between hwithin).mp h
            obtain ⟨list, hvalid, hlisted⟩ := (hlist listed).mp rfl
            refine ⟨list :: lists, ⟨hvalid, hlists⟩, ?_, hall⟩
            rw [List.flatten_cons]
            exact joins_append.mpr ⟨between, (joins_entries hlisted).mp hbetween, hjoins⟩
        · rintro ⟨lists, hlists, hjoins, hall⟩
          obtain ⟨list, rest, rfl, hvalid, hrests⟩ := hlists.exists_cons
          have hpart := joins_part hjoins
          have hlisted : Joins .empty list listed := by
            have hsame := (hlist _).mpr ⟨list, hvalid, hpart⟩
            cases hsame
            exact hpart
          rw [List.flatten_cons] at hjoins
          obtain ⟨between, hfirst, hsecond⟩ := joins_append.mp hjoins
          have hwithin := hall.of_subset (joins_subset hsecond)
          have hmerge := (mergeEntries_eq_ok hlimits between _).mpr
            ⟨(joins_entries hlisted).mpr hfirst, hwithin, rfl⟩
          rw [hmerge]
          exact (ih nodes later hrest between hwithin).mpr ⟨rest, hrests, hsecond, hall⟩

/-- Whether nodes that lists share agree. -/
def Agree (lists : List (List (ℕ × JitCodeEntry))) : Prop :=
  ∀ list ∈ lists, ∀ list' ∈ lists, ∀ a entry entry', (a, entry) ∈ list → (a, entry') ∈ list' →
    entry = entry'

/-- A list is accepted exactly when it is valid, and its nodes are returned; no traversal reads more
than 4096 nodes. Lists are accepted exactly when each is valid, they agree where they share nodes,
and the distinct nodes stay within the limits. -/
theorem registrations_read_exactly :
    (∀ (memory : Memory) (node : ℕ → Option JitCodeEntry) (firstEntry time : ℕ),
      (readEntries memory firstEntry time).2 ≤ time + MAX_JIT_ENTRIES ∧
      ((∀ t, time ≤ t → t ≤ (readEntries memory firstEntry time).2 → nodeAt memory t = node) →
        ∀ listed, (readEntries memory firstEntry time).1 = .ok listed ↔
          ∃ nodes, ValidList node firstEntry nodes ∧
            ∀ a entry, listed.get a = some entry ↔ (a, entry) ∈ nodes)) ∧
    ∀ (memory : Memory) (descriptors : List (ℕ × JitDescriptor))
      (nodes : List (ℕ → Option JitCodeEntry)) (time : ℕ), Steady memory time descriptors nodes →
      ∀ snapshot, (readSnapshot memory descriptors time).1 = .ok snapshot ↔
        ∃ lists, ListsOf descriptors nodes lists ∧ Agree lists ∧
          (∀ a entry, snapshot.entries.get a = some entry ↔ ∃ list ∈ lists, (a, entry) ∈ list) ∧
          snapshot.entries.len ≤ MAX_JIT_ENTRIES ∧
          snapshot.entries.sum JitCodeEntry.symfileSize ≤ MAX_JIT_TOTAL_SIZE ∧
          snapshot.descriptors = descriptors := by
  refine ⟨fun memory node firstEntry time => ?_,
    fun memory descriptors nodes time hsteady snapshot => ?_⟩
  · obtain ⟨hreads, hfollows⟩ := readEntries_traversed memory node firstEntry time
    refine ⟨hreads, fun hsteady listed => ?_⟩
    rw [hfollows hsteady listed]
    simp only [joins_empty_iff]
  · have hloop := readSnapshotLoop_eq_ok memory descriptors nodes time hsteady .empty
      ⟨Nat.zero_le _, Nat.zero_le _⟩
    rw [sum_empty] at hloop
    have hresult : (readSnapshot memory descriptors time).1 = .ok snapshot ↔
        (readSnapshotLoop memory descriptors .empty 0 time).1 = .ok snapshot.entries ∧
          snapshot.descriptors = descriptors := by
      unfold readSnapshot
      rcases hrun : readSnapshotLoop memory descriptors .empty 0 time with ⟨fault | entries, later⟩
      · rw [bind_of_error hrun]
        simp only [reduceCtorEq, false_and]
      · rw [bind_of_ok hrun]
        show Except.ok (⟨descriptors, entries⟩ : JitSnapshot) = _ ↔ _
        obtain ⟨listed, joined⟩ := snapshot
        simp only [Except.ok.injEq, JitSnapshot.mk.injEq, and_comm, eq_comm]
    rw [hresult, hloop]
    constructor
    · rintro ⟨⟨lists, hlists, hjoins, hwithin⟩, hdescriptors⟩
      have hentries : ∀ a entry, snapshot.entries.get a = some entry ↔
          ∃ list ∈ lists, (a, entry) ∈ list := by
        intro a entry
        rw [joins_empty_iff.mp hjoins a entry, List.mem_flatten]
      refine ⟨lists, hlists, ?_, hentries, hwithin.count, hwithin.size, hdescriptors⟩
      intro list hlist list' hlist' a entry entry' hmem hmem'
      have hget := (hentries a entry).mpr ⟨list, hlist, hmem⟩
      have hget' := (hentries a entry').mpr ⟨list', hlist', hmem'⟩
      exact Option.some.inj (hget.symm.trans hget')
    · rintro ⟨lists, hlists, -, hentries, hcount, hsize, hdescriptors⟩
      refine ⟨⟨lists, hlists, joins_empty_iff.mpr fun a entry => ?_, hcount, hsize⟩, hdescriptors⟩
      rw [hentries a entry, List.mem_flatten]

/-- Two nodes: one at 64 with an image of 16 bytes, and one at 128 with an image of 32 bytes. -/
def twoNodes : Memory where
  read := fun _ address size => .ok ((List.range size).map fun i =>
    match address + i with
    | 64 => 128
    | 88 => 16
    | 136 => 64
    | 152 => 32
    | _ => 0)
  length_read := by
    rintro time address size bytes ⟨⟩
    rw [List.length_map, List.length_range]

def twoNodesDescriptor : ℕ × JitDescriptor := (4096, ⟨1, 0, 0, 64⟩)

/-- Two descriptors with the same list: its nodes are counted once. -/
theorem registrations_read_exactly_shared : ∃ snapshot lists,
    (readSnapshot twoNodes [twoNodesDescriptor, twoNodesDescriptor] 0).1 = .ok snapshot ∧
      ListsOf [twoNodesDescriptor, twoNodesDescriptor] [nodeAt twoNodes 0, nodeAt twoNodes 0]
        lists ∧
      snapshot.entries.len = 2 ∧ snapshot.entries.sum JitCodeEntry.symfileSize = 48 := by
  have hrun : ((readSnapshot twoNodes [twoNodesDescriptor, twoNodesDescriptor] 0).1.toOption.map
      fun snapshot => (snapshot.entries.len, snapshot.entries.sum JitCodeEntry.symfileSize)) =
      some (2, 48) := by decide +kernel
  obtain ⟨snapshot, hsnapshot, heq⟩ := Option.map_eq_some_iff.mp hrun
  have hok : (readSnapshot twoNodes [twoNodesDescriptor, twoNodesDescriptor] 0).1 =
      .ok snapshot := by
    cases hresult : (readSnapshot twoNodes [twoNodesDescriptor, twoNodesDescriptor] 0).1 with
    | error fault =>
      rw [hresult] at hsnapshot
      cases hsnapshot
    | ok found =>
      rw [hresult] at hsnapshot
      cases hsnapshot
      rfl
  obtain ⟨lists, hlists, -⟩ := (registrations_read_exactly.2 twoNodes
    [twoNodesDescriptor, twoNodesDescriptor] [nodeAt twoNodes 0, nodeAt twoNodes 0] 0
    ⟨fun _ _ _ => rfl, fun _ _ _ => rfl, trivial⟩ snapshot).mp hok
  obtain ⟨hlen, hsum⟩ := Prod.mk.inj heq
  exact ⟨snapshot, lists, hok, hlists, hlen, hsum⟩

end StackPulse.JitTraversal
