import Mathlib.Algebra.GroupWithZero.Nat
import Mathlib.Data.List.Basic

/-!
Sequences stored in chunks of one size. Every chunk except the last is full and
no chunk is empty, so an index splits into a chunk number and an offset. The
operations are compared with those of the flat list.
-/
namespace StackPulse.Chunks

/-- Full chunks followed by one nonempty chunk, or nothing at all. -/
def WellChunked {α : Type*} (size : ℕ) : List (List α) → Prop
  | [] => True
  | [chunk] => 0 < chunk.length ∧ chunk.length ≤ size
  | chunk :: next :: chunks =>
      0 < size ∧ chunk.length = size ∧ WellChunked size (next :: chunks)

structure Chunked (size : ℕ) (α : Type*) where
  chunks : List (List α)
  wellChunked : WellChunked size chunks

variable {size : ℕ} {α : Type*}

namespace WellChunked

variable {chunks : List (List α)}

theorem tail {chunk : List α} (h : WellChunked size (chunk :: chunks)) :
    WellChunked size chunks := by
  cases chunks with
  | nil => trivial
  | cons next chunks => exact h.2.2

theorem head_pos {chunk : List α} (h : WellChunked size (chunk :: chunks)) :
    0 < chunk.length ∧ chunk.length ≤ size := by
  cases chunks with
  | nil => exact h
  | cons next chunks =>
    obtain ⟨hpos, hlen, _⟩ := h
    omega

theorem ne_nil (h : WellChunked size chunks) : ∀ chunk ∈ chunks, chunk ≠ [] := by
  induction chunks with
  | nil => simp
  | cons chunk chunks ih =>
    exact List.forall_mem_cons.mpr ⟨List.ne_nil_of_length_pos h.head_pos.1, ih h.tail⟩

/-- Chunk number and offset address the flat list. -/
theorem getElem?_flatten (h : WellChunked size chunks) (i : ℕ) :
    (chunks[i / size]?.bind fun chunk => chunk[i % size]?) = chunks.flatten[i]? := by
  induction chunks generalizing i with
  | nil => simp
  | cons chunk chunks ih =>
    have hpos : 0 < size := Nat.lt_of_lt_of_le h.head_pos.1 h.head_pos.2
    rw [List.flatten_cons]
    by_cases hi : i < size
    · rw [Nat.div_eq_of_lt hi, Nat.mod_eq_of_lt hi]
      simp only [List.getElem?_cons_zero, Option.bind_some]
      cases chunks with
      | nil => simp
      | cons next chunks =>
        rw [List.getElem?_append_left (by rw [h.2.1]; exact hi)]
    · have hsplit : i = (i - size) + size := by omega
      have hdiv : i / size = (i - size) / size + 1 := by
        conv_lhs => rw [hsplit]
        exact Nat.add_div_right _ hpos
      have hmod : i % size = (i - size) % size := by
        conv_lhs => rw [hsplit]
        exact Nat.add_mod_right _ _
      rw [hdiv, hmod, List.getElem?_cons_succ, ih h.tail]
      cases chunks with
      | nil =>
        have hlen := h.2
        rw [List.getElem?_append_right (by omega)]
        simp
      | cons next chunks =>
        rw [List.getElem?_append_right (by rw [h.2.1]; omega), h.2.1]

end WellChunked

namespace Chunked

def toList (c : Chunked size α) : List α := c.chunks.flatten

def empty : Chunked size α := ⟨[], trivial⟩

def get (c : Chunked size α) (i : ℕ) : Option α :=
  c.chunks[i / size]?.bind fun chunk => chunk[i % size]?

theorem ext {c c' : Chunked size α} (h : c.chunks = c'.chunks) : c = c' := by
  cases c
  cases c'
  simpa using h

theorem get_eq (c : Chunked size α) (i : ℕ) : c.get i = c.toList[i]? :=
  c.wellChunked.getElem?_flatten i

@[simp] theorem toList_empty : (empty : Chunked size α).toList = [] := rfl

/-- Append to the last chunk when it has room, else open a new one. -/
def pushChunks (size : ℕ) (value : α) : List (List α) → List (List α)
  | [] => [[value]]
  | [chunk] => if chunk.length < size then [chunk ++ [value]] else [chunk, [value]]
  | chunk :: next :: chunks => chunk :: pushChunks size value (next :: chunks)

theorem wellChunked_pushChunks (hsize : 0 < size) (value : α) (chunks : List (List α))
    (h : WellChunked size chunks) : WellChunked size (pushChunks size value chunks) := by
  induction chunks with
  | nil => exact ⟨Nat.one_pos, hsize⟩
  | cons chunk chunks ih =>
    cases chunks with
    | nil =>
      unfold pushChunks
      split
      · refine ⟨?_, ?_⟩ <;> simp only [List.length_append, List.length_singleton] <;> omega
      · have hle := h.2
        exact ⟨hsize, by omega, Nat.one_pos, hsize⟩
    | cons next chunks =>
      have hrest := ih h.2.2
      rw [pushChunks]
      cases hp : pushChunks size value (next :: chunks) with
      | nil =>
        cases chunks with
        | nil =>
          unfold pushChunks at hp
          split at hp <;> cases hp
        | cons _ _ => cases hp
      | cons first rest =>
        rw [hp] at hrest
        exact ⟨h.1, h.2.1, hrest⟩

theorem flatten_pushChunks (value : α) (chunks : List (List α)) :
    (pushChunks size value chunks).flatten = chunks.flatten ++ [value] := by
  induction chunks with
  | nil => rfl
  | cons chunk chunks ih =>
    cases chunks with
    | nil =>
      unfold pushChunks
      split <;> simp
    | cons next chunks =>
      rw [pushChunks, List.flatten_cons, ih, List.flatten_cons (l := chunk),
        List.append_assoc]

def push [NeZero size] (c : Chunked size α) (value : α) : Chunked size α :=
  ⟨pushChunks size value c.chunks,
    wellChunked_pushChunks (Nat.pos_of_neZero size) value c.chunks c.wellChunked⟩

@[simp] theorem toList_push [NeZero size] (c : Chunked size α) (value : α) :
    (c.push value).toList = c.toList ++ [value] :=
  flatten_pushChunks value c.chunks

theorem wellChunked_modify (chunks : List (List α)) (h : WellChunked size chunks)
    (n i : ℕ) (value : α) : WellChunked size (chunks.modify n fun chunk => chunk.set i value) := by
  induction chunks generalizing n with
  | nil => simpa using h
  | cons chunk chunks ih =>
    cases n with
    | zero =>
      cases chunks with
      | nil => simpa [WellChunked] using h
      | cons next chunks => simpa [WellChunked] using h
    | succ n =>
      rw [List.modify_succ_cons]
      have hrest := ih h.tail n
      cases chunks with
      | nil => simpa using h
      | cons next chunks =>
        cases n with
        | zero =>
          rw [List.modify_zero_cons] at hrest ⊢
          exact ⟨h.1, h.2.1, hrest⟩
        | succ n =>
          rw [List.modify_succ_cons] at hrest ⊢
          exact ⟨h.1, h.2.1, hrest⟩

/-- Overwrite the element at an index. -/
def set (c : Chunked size α) (i : ℕ) (value : α) : Chunked size α :=
  ⟨c.chunks.modify (i / size) fun chunk => chunk.set (i % size) value,
    wellChunked_modify c.chunks c.wellChunked _ _ _⟩

@[simp] theorem toList_set (c : Chunked size α) (i : ℕ) (value : α) :
    (c.set i value).toList = c.toList.set i value := by
  apply List.ext_getElem?
  intro j
  rw [← get_eq, List.getElem?_set, ← get_eq]
  have hlen : i < c.toList.length ↔ (c.get i).isSome := by
    rw [get_eq]
    simp
  unfold get at hlen ⊢
  simp only [set, List.getElem?_modify]
  by_cases hij : i = j
  · subst hij
    rw [if_pos rfl, Option.map_eq_map]
    cases hchunk : c.chunks[i / size]? with
    | none =>
      rw [hchunk] at hlen
      simp only [Option.bind_none, Option.isSome_none, Bool.false_eq_true, iff_false] at hlen
      simp [hlen]
    | some chunk =>
      rw [hchunk] at hlen
      have hget : chunk[i % size]?.isSome ↔ i % size < chunk.length := by simp
      rw [Option.bind_some, hget] at hlen
      by_cases hi : i < c.toList.length
      · simp [hi, hlen.mp hi]
      · have hout : ¬ i % size < chunk.length := fun hc => hi (hlen.mpr hc)
        simp [hi, hout]
  · rw [if_neg hij]
    by_cases hdiv : i / size = j / size
    · have hmod : i % size ≠ j % size := by
        intro hmod
        apply hij
        rw [← Nat.div_add_mod i size, ← Nat.div_add_mod j size, hdiv, hmod]
      rw [hdiv]
      cases c.chunks[j / size]? with
      | none => simp
      | some chunk => simp [hmod]
    · simp [hdiv]

end Chunked
end StackPulse.Chunks
