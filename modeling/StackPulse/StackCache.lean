import StackPulse.Model

/-!
The values that a caller of the live session keeps for stacks, in a dense vector with an index over
its keys. Removing an entry moves the last one into its place, so the sweep over the processes of an
invalidation looks at the same place again.
-/
namespace StackPulse.StackCache

open Model

variable {α T : Type}

structure StackKey where
  sourceId : UInt64
  processId : Pid
  stackId : UInt32
  deriving DecidableEq

structure Invalidation where
  all : Bool
  processes : List Pid

def Invalidation.affectsProcess (invalidation : Invalidation) (process : Pid) : Bool :=
  invalidation.all || decide (process ∈ invalidation.processes)

/-- `Vec::swap_remove` at a place inside the vector: the last element comes there. -/
def swapRemove (values : List α) (index : ℕ) : List α :=
  match values.getLast? with
  | none => values
  | some last => (values.set index last).dropLast

structure TransformedStacks (T : Type) where
  indices : FxHashMap StackKey ℕ
  values : List (StackKey × T)
  capacity : ℕ

namespace TransformedStacks

def new (capacity : ℕ) : TransformedStacks T := ⟨∅, [], capacity⟩

def clear (s : TransformedStacks T) : TransformedStacks T := { s with indices := ∅, values := [] }

def push (s : TransformedStacks T) (key : StackKey) (value : T) : TransformedStacks T :=
  { s with
    values := s.values ++ [(key, value)]
    indices := s.indices.insert key s.values.length }

def insert (s : TransformedStacks T) (key : StackKey) (value : T) : TransformedStacks T :=
  if s.indices.keys.length = s.capacity then s.clear.push key value else s.push key value

def removeAt (s : TransformedStacks T) (index : ℕ) (key : StackKey) : TransformedStacks T :=
  let indices := s.indices.erase key
  let values := swapRemove s.values index
  { s with
    values
    indices := match values[index]? with
      | some (moved, _) => indices.insert moved index
      | none => indices }

/-- The loop of `invalidate`. Every round passes an entry or removes one, so there are as many
rounds as entries. -/
def sweep (invalidation : Invalidation) : ℕ → ℕ → TransformedStacks T → TransformedStacks T
  | 0, _, s => s
  | left + 1, index, s =>
      match s.values[index]? with
      | none => s
      | some (key, _) =>
          if invalidation.affectsProcess key.processId then
            sweep invalidation left index (s.removeAt index key)
          else sweep invalidation left (index + 1) s

def invalidate (s : TransformedStacks T) (invalidation : Invalidation) : TransformedStacks T :=
  if invalidation.all then s.clear
  else if invalidation.processes ≠ [] then sweep invalidation s.values.length 0 s
  else s

end TransformedStacks

inductive StackEntry (T : Type)
  | occupied (value : T)
  | vacant

inductive EntryError where
  | invalidInput (message : String)
  /-- The index names a place outside the vector. -/
  | panic

/-- `CachedBatch::entry`; a stack of another source is refused before the cache is looked at. -/
def entry (sourceId : Option UInt64) (s : TransformedStacks T) (key : StackKey) :
    Except EntryError (StackEntry T) :=
  if sourceId ≠ some key.sourceId then
    .error (.invalidInput "stack belongs to a different spool source")
  else match s.indices.lookup key with
    | none => .ok .vacant
    | some index =>
        match s.values[index]? with
        | some (_, value) => .ok (.occupied value)
        | none => .error .panic

/-- What callers of the session do. A vacant entry is left alone, or resolved and a value inserted
for its stack, which is kept if the resolution may be cached. A poll that brings a batch invalidates
first. -/
inductive Call (T : Type)
  | entry (sourceId : Option UInt64) (key : StackKey) (resolved : Option (Bool × T))
  | poll (invalidation : Invalidation)
  | clearCache

/-- The cache and the values inserted so far, the newest first. -/
structure World (T : Type) where
  cache : TransformedStacks T
  inserted : List (StackKey × T)

def step (w : World T) : Call T → World T
  | .entry sourceId key resolved =>
      match entry sourceId w.cache key, resolved with
      | .ok .vacant, some (isCacheable, value) =>
          if isCacheable ∧ w.cache.capacity ≠ 0 then
            ⟨w.cache.insert key value, (key, value) :: w.inserted⟩
          else w
      | _, _ => w
  | .poll invalidation => { w with cache := w.cache.invalidate invalidation }
  | .clearCache => { w with cache := w.cache.clear }

def run (capacity : ℕ) (calls : List (Call T)) : World T :=
  calls.foldl step ⟨.new capacity, []⟩

theorem getElem?_swapRemove {values : List α} {i : ℕ} (hi : i < values.length) (j : ℕ) :
    (swapRemove values i)[j]? =
      if j + 1 < values.length then if j = i then values[values.length - 1]? else values[j]?
      else none := by
  have hlast : values.length - 1 < values.length := by omega
  unfold swapRemove
  rw [List.getLast?_eq_getElem?, List.getElem?_eq_getElem hlast]
  simp only [List.getElem?_dropLast, List.length_set, List.getElem?_set]
  grind

/-- The index finds each entry where it stands, and nothing else. -/
def Indexed (s : TransformedStacks T) : Prop :=
  ∀ key index, s.indices.lookup key = some index ↔ ∃ value, s.values[index]? = some (key, value)

variable {s : TransformedStacks T} {key : StackKey} {value : T} {index : ℕ}

theorem indexed_empty (s : TransformedStacks T) : Indexed s.clear := by
  intro key index
  simp [TransformedStacks.clear]

namespace Indexed

theorem inj (h : Indexed s) {i j : ℕ} {v v' : T}
    (hi : s.values[i]? = some (key, v)) (hj : s.values[j]? = some (key, v')) : i = j :=
  Option.some.inj (((h key i).mpr ⟨v, hi⟩).symm.trans ((h key j).mpr ⟨v', hj⟩))

theorem nodup_keys (h : Indexed s) : (s.values.map Prod.fst).Nodup := by
  refine List.nodup_iff_getElem?_ne_getElem?.mpr fun i j hij hj heq => ?_
  rw [List.length_map] at hj
  obtain ⟨⟨key, value⟩, hvalue⟩ : ∃ entry, s.values[j]? = some entry :=
    ⟨_, List.getElem?_eq_getElem hj⟩
  rw [List.getElem?_map, List.getElem?_map, hvalue] at heq
  obtain ⟨⟨_, value'⟩, hvalue', rfl⟩ := Option.map_eq_some_iff.mp heq
  exact hij.ne (h.inj hvalue' hvalue)

/-- The index has as many keys as there are entries. -/
theorem length (h : Indexed s) : s.indices.keys.length = s.values.length := by
  rw [← List.length_map Prod.fst]
  refine List.Perm.length_eq
    ((List.perm_ext_iff_of_nodup s.indices.keys_nodup h.nodup_keys).mpr fun key => ?_)
  rw [← AList.mem_keys, ← AList.lookup_isSome, Option.isSome_iff_exists]
  simp [h key, List.mem_iff_getElem?, Option.map_eq_some_iff]

/-- A removal keeps the other entries, and the index follows the one that moves. -/
theorem removeAt (h : Indexed s) (hget : s.values[index]? = some (key, value)) :
    Indexed (s.removeAt index key) := by
  obtain ⟨hlt, -⟩ := List.getElem?_eq_some_iff.mp hget
  have hvalues := getElem?_swapRemove hlt
  intro k j
  obtain ⟨⟨moved, last⟩, hlast⟩ : ∃ entry, s.values[s.values.length - 1]? = some entry :=
    ⟨_, List.getElem?_eq_getElem (by omega)⟩
  have hkey := (h key _).mpr ⟨value, hget⟩
  have hk := h k j
  simp only [TransformedStacks.removeAt, hvalues]
  by_cases hend : index + 1 < s.values.length
  · simp only [if_pos hend, if_true, hlast, lookup_insert_eq, lookup_erase_eq]
    have hmoved := (h moved _).mpr ⟨last, hlast⟩
    grind
  · simp only [if_neg hend, lookup_erase_eq]
    grind

theorem mem_removeAt (h : Indexed s) (hget : s.values[index]? = some (key, value))
    (entry : StackKey × T) :
    entry ∈ (s.removeAt index key).values ↔ entry ∈ s.values ∧ entry.1 ≠ key := by
  obtain ⟨hlt, -⟩ := List.getElem?_eq_some_iff.mp hget
  simp only [TransformedStacks.removeAt, List.mem_iff_getElem?, getElem?_swapRemove hlt]
  constructor
  · rintro ⟨j, hj⟩
    obtain ⟨i, hi, hne⟩ : ∃ i, s.values[i]? = some entry ∧ i ≠ index := by grind
    exact ⟨⟨i, hi⟩, fun heq => hne (h.inj (hi.trans (by rw [← heq])) hget)⟩
  · rintro ⟨⟨j, hj⟩, hne⟩
    have hj' : j ≠ index := by
      rintro rfl
      grind
    by_cases hend : j + 1 < s.values.length
    · exact ⟨j, by rw [if_pos hend, if_neg hj', hj]⟩
    · -- the entry was the last one, which now stands at the removed place
      exact ⟨index, by grind⟩

end Indexed

variable {invalidation : Invalidation}

/-- No entry before `index` is of a process of the invalidation. -/
def Passed (invalidation : Invalidation) (index : ℕ) (s : TransformedStacks T) : Prop :=
  ∀ j < index, ∀ entry, s.values[j]? = some entry →
    invalidation.affectsProcess entry.1.processId = false

theorem Passed.mem_iff (h : Passed invalidation index s) (hend : s.values.length ≤ index)
    (entry : StackKey × T) :
    entry ∈ s.values ↔
      entry ∈ s.values ∧ invalidation.affectsProcess entry.1.processId = false := by
  refine ⟨fun hmem => ⟨hmem, ?_⟩, And.left⟩
  obtain ⟨j, hj⟩ := List.mem_iff_getElem?.mp hmem
  obtain ⟨hlt, -⟩ := List.getElem?_eq_some_iff.mp hj
  exact h j (by omega) entry hj

theorem length_removeAt (hlt : index < s.values.length) :
    (s.removeAt index key).values.length = s.values.length - 1 := by
  have hlast : s.values[s.values.length - 1]? = some s.values[s.values.length - 1] :=
    List.getElem?_eq_getElem (by omega)
  simp [TransformedStacks.removeAt, swapRemove, List.getLast?_eq_getElem?, hlast]

theorem Passed.removeAt (h : Passed invalidation index s) (hlt : index < s.values.length) :
    Passed invalidation index (s.removeAt index key) := by
  intro j hj entry hentry
  refine h j hj entry ?_
  simp only [TransformedStacks.removeAt, getElem?_swapRemove hlt] at hentry
  grind

/-- The sweep keeps what it passes. An entry that moves into a gap is looked at next. -/
theorem Indexed.sweep (h : Indexed s) {left : ℕ} (hleft : s.values.length ≤ index + left)
    (hpassed : Passed invalidation index s) :
    let after := TransformedStacks.sweep invalidation left index s
    Indexed after ∧ after.capacity = s.capacity ∧ after.values.length ≤ s.values.length ∧
      ∀ entry, entry ∈ after.values ↔
        entry ∈ s.values ∧ invalidation.affectsProcess entry.1.processId = false := by
  induction left generalizing s index with
  | zero => exact ⟨h, rfl, le_rfl, hpassed.mem_iff hleft⟩
  | succ left ih =>
    unfold TransformedStacks.sweep
    cases hget : s.values[index]? with
    | none => exact ⟨h, rfl, le_rfl, hpassed.mem_iff (List.getElem?_eq_none_iff.mp hget)⟩
    | some entry =>
      obtain ⟨key, value⟩ := entry
      obtain ⟨hlt, -⟩ := List.getElem?_eq_some_iff.mp hget
      by_cases haffected : invalidation.affectsProcess key.processId
      · have hlength : (s.removeAt index key).values.length = _ := length_removeAt hlt
        obtain ⟨hindexed, hcapacity, hle, hmem⟩ :=
          ih (h.removeAt hget) (by omega) (hpassed.removeAt hlt)
        simp only [if_pos haffected]
        refine ⟨hindexed, hcapacity, by omega, fun entry => ?_⟩
        rw [hmem, h.mem_removeAt hget, and_assoc]
        refine and_congr_right fun _ => and_iff_right_of_imp fun hkept heq => ?_
        rw [heq, haffected] at hkept
        cases hkept
      · simp only [if_neg haffected]
        refine ih h (by omega) fun j hj entry hentry => ?_
        rcases Nat.lt_succ_iff_lt_or_eq.mp hj with hj | rfl
        · exact hpassed j hj entry hentry
        · rw [hget] at hentry
          cases hentry
          exact Bool.eq_false_iff.mpr haffected

/-- The cache is indexed and within its capacity, and holds for a key what was last inserted under
it. -/
structure Sound (limit : ℕ) (w : World T) : Prop where
  indexed : Indexed w.cache
  capacity : w.cache.capacity = limit
  bounded : w.cache.values.length ≤ limit
  inserted : ∀ entry ∈ w.cache.values, w.inserted.lookup entry.1 = some entry.2

namespace Sound

variable {limit : ℕ} {w : World T}

theorem clear (h : Sound limit w) : Sound limit { w with cache := w.cache.clear } :=
  ⟨indexed_empty _, h.capacity, Nat.zero_le _, fun _ hentry => nomatch hentry⟩

theorem push (h : Sound limit w) (value : T) (hnew : w.cache.indices.lookup key = none)
    (hroom : w.cache.values.length < limit) :
    Sound limit ⟨w.cache.push key value, (key, value) :: w.inserted⟩ := by
  refine ⟨fun k j => ?_, h.capacity, ?_, fun entry hentry => ?_⟩
  · have hk := h.indexed k j
    simp only [TransformedStacks.push]
    rw [lookup_insert_eq]
    rcases Nat.lt_trichotomy j w.cache.values.length with hj | rfl | hj
    · rw [List.getElem?_append_left hj]
      grind
    · have hout : w.cache.values[w.cache.values.length]? = none := List.getElem?_eq_none le_rfl
      simp only [List.getElem?_concat_length, Option.some.injEq, Prod.mk.injEq, exists_and_left,
        exists_eq', and_true]
      grind
    · rw [List.getElem?_eq_none (by rw [List.length_append]; exact hj)]
      grind
  · rw [TransformedStacks.push, List.length_append]
    exact hroom
  · rcases List.mem_append.mp hentry with hold | hlast
    · obtain ⟨j, hj⟩ := List.mem_iff_getElem?.mp hold
      have hne : entry.1 ≠ key := by
        rintro rfl
        rw [(h.indexed entry.1 j).mpr ⟨entry.2, hj⟩] at hnew
        cases hnew
      rw [List.lookup_cons, beq_false_of_ne hne]
      exact h.inserted entry hold
    · rw [List.mem_singleton.mp hlast]
      exact List.lookup_cons_self

/-- A full cache is emptied first, so there is room unless there never is. -/
theorem insert (h : Sound limit w) (value : T) (hnew : w.cache.indices.lookup key = none)
    (hlimit : limit ≠ 0) :
    Sound limit ⟨w.cache.insert key value, (key, value) :: w.inserted⟩ := by
  have hcount := h.indexed.length
  have hbounded := h.bounded
  unfold TransformedStacks.insert
  rw [h.capacity]
  split
  · exact h.clear.push value (AList.lookup_empty _) (Nat.pos_of_ne_zero hlimit)
  · exact h.push value hnew (by omega)

theorem invalidate (h : Sound limit w) (invalidation : Invalidation) :
    Sound limit { w with cache := w.cache.invalidate invalidation } ∧
      ∀ entry, entry ∈ (w.cache.invalidate invalidation).values ↔
        entry ∈ w.cache.values ∧ invalidation.affectsProcess entry.1.processId = false := by
  unfold TransformedStacks.invalidate
  by_cases hall : invalidation.all
  · simp only [if_pos hall]
    refine ⟨h.clear, fun entry => ?_⟩
    simp [TransformedStacks.clear, Invalidation.affectsProcess, hall]
  · simp only [if_neg hall]
    by_cases hnone : invalidation.processes = []
    · simp only [if_neg (not_not.mpr hnone)]
      exact ⟨h, fun entry => by simp [Invalidation.affectsProcess, hall, hnone]⟩
    · simp only [if_pos hnone]
      obtain ⟨hindexed, hcapacity, hle, hmem⟩ :=
        h.indexed.sweep (Nat.le_add_left _ 0) fun _ hj => absurd hj (Nat.not_lt_zero _)
      exact ⟨⟨hindexed, hcapacity.trans h.capacity, hle.trans h.bounded,
        fun entry hentry => h.inserted entry ((hmem entry).mp hentry).1⟩, hmem⟩

theorem lookup_of_vacant {sourceId : Option UInt64}
    (h : entry sourceId s key = .ok .vacant) : s.indices.lookup key = none := by
  unfold entry at h
  grind

theorem step (h : Sound limit w) (call : Call T) : Sound limit (step w call) := by
  cases call with
  | entry sourceId key resolved =>
    simp only [StackCache.step]
    split
    · rename_i hvacant
      split
      · rename_i hkept
        exact h.insert _ (lookup_of_vacant hvacant) (h.capacity ▸ hkept.2)
      · exact h
    · exact h
  | poll invalidation => exact (h.invalidate invalidation).1
  | clearCache => exact h.clear

end Sound

theorem sound_run (capacity : ℕ) (calls : List (Call T)) : Sound capacity (run capacity calls) := by
  induction calls using List.reverseRecOn with
  | nil =>
    exact ⟨indexed_empty (.new capacity), rfl, Nat.zero_le _, fun _ hentry => nomatch hentry⟩
  | append_singleton calls call ih =>
    rw [run, List.foldl_append]
    exact ih.step call

/-- After any calls the index and the entries are in bijection and within the capacity, an
invalidation removes the entries of its processes and no other, and each key finds the value last
inserted under it. -/
theorem transformed_stacks_consistent (capacity : ℕ) (calls : List (Call T)) :
    let w := run capacity calls
    Indexed w.cache ∧ w.cache.indices.keys.length = w.cache.values.length ∧
      w.cache.values.length ≤ capacity ∧
      (∀ invalidation entry, entry ∈ (w.cache.invalidate invalidation).values ↔
        entry ∈ w.cache.values ∧ invalidation.affectsProcess entry.1.processId = false) ∧
      ∀ entry ∈ w.cache.values, w.inserted.lookup entry.1 = some entry.2 ∧
        StackCache.entry (some entry.1.sourceId) w.cache entry.1 = .ok (.occupied entry.2) := by
  intro w
  have h : Sound capacity w := sound_run capacity calls
  refine ⟨h.indexed, h.indexed.length, h.bounded, fun invalidation => (h.invalidate invalidation).2,
    fun entry hentry => ⟨h.inserted entry hentry, ?_⟩⟩
  obtain ⟨j, hj⟩ := List.mem_iff_getElem?.mp hentry
  unfold StackCache.entry
  rw [if_neg (not_not.mpr rfl), (h.indexed entry.1 j).mpr ⟨entry.2, hj⟩]
  simp only [hj]

end StackPulse.StackCache
