import StackPulse.Chunks

/-!
Reference-counted cells that are copied before they are written when another
pointer sees them. A pointer is an address into the list of cells; a cell that
lost its last pointer stays in the list and is never read again. On top of the
cells stand sequences of chunks: a spine is a cell of pointers to chunk cells.
Writing through one pointer is seen through that pointer only.
-/
namespace StackPulse.SharedCells

open Chunks

section

variable {α : Type} [Inhabited α]

def read (cells : List α) (address : ℕ) : α := cells.getD address default

/-- `Arc::make_mut` followed by a write: in place when `others`, the other
pointers to cells of this kind, do not hold the address, else on a copy. -/
def makeMut (others : List ℕ) (cells : List α) (address : ℕ) (write : α → α) : List α × ℕ :=
  if address ∈ others then (cells ++ [write (read cells address)], cells.length)
  else (cells.modify address write, address)

theorem read_append_left {cells more : List α} {address : ℕ} (h : address < cells.length) :
    read (cells ++ more) address = read cells address := by
  simp [read, List.getD_eq_getElem?_getD, List.getElem?_append_left h]

theorem read_append_length (cells : List α) (value : α) :
    read (cells ++ [value]) cells.length = value := by
  simp [read, List.getD_eq_getElem?_getD]

theorem read_modify {cells : List α} {address : ℕ} (h : address < cells.length)
    (write : α → α) : read (cells.modify address write) address = write (read cells address) := by
  simp [read, List.getD_eq_getElem?_getD, h]

theorem read_modify_ne {cells : List α} {address a : ℕ} (h : a ≠ address) (write : α → α) :
    read (cells.modify address write) a = read cells a := by
  simp [read, List.getD_eq_getElem?_getD, Ne.symm h]

variable (others : List ℕ) {cells : List α} {address : ℕ} (write : α → α)

theorem read_makeMut (h : address < cells.length) :
    read (makeMut others cells address write).1 (makeMut others cells address write).2 =
      write (read cells address) := by
  unfold makeMut
  split
  · exact read_append_length cells _
  · exact read_modify h write

/-- What the other pointers see stays. -/
theorem read_makeMut_other {others : List ℕ} {a : ℕ} (ha : a ∈ others) (hlt : a < cells.length) :
    read (makeMut others cells address write).1 a = read cells a := by
  unfold makeMut
  split
  · exact read_append_left hlt
  · next hnot =>
    apply read_modify_ne
    rintro rfl
    exact hnot ha

theorem length_le_makeMut (cells : List α) (address : ℕ) :
    cells.length ≤ (makeMut others cells address write).1.length := by
  unfold makeMut
  split <;> simp

theorem makeMut_lt (h : address < cells.length) :
    (makeMut others cells address write).2 < (makeMut others cells address write).1.length := by
  unfold makeMut
  split
  · simp
  · simpa using h

/-- The pointer that was written through is the only one to its cell. -/
theorem makeMut_notMem {others : List ℕ} (hothers : ∀ a ∈ others, a < cells.length) :
    (makeMut others cells address write).2 ∉ others := by
  unfold makeMut
  split
  · intro hmem
    exact absurd (hothers _ hmem) (Nat.lt_irrefl _)
  · next hnot => exact hnot

end

/-- Spines and chunks behind the pointers of chunked sequences. -/
structure ChunkCells (α : Type) where
  spines : List (List ℕ)
  chunks : List (List α)

namespace ChunkCells

variable {α : Type}

def empty : ChunkCells α := ⟨[], []⟩

/-- The chunks behind the pointer to a spine. -/
def view (s : ChunkCells α) (root : ℕ) : List (List α) :=
  (read s.spines root).map (read s.chunks)

/-- The spines behind these pointers are allocated, and so are their chunks. -/
def Valid (s : ChunkCells α) (roots : List ℕ) : Prop :=
  ∀ root ∈ roots, root < s.spines.length ∧ ∀ c ∈ read s.spines root, c < s.chunks.length

/-- Chunk pointers of the spines behind these pointers. -/
def pointers (s : ChunkCells α) (roots : List ℕ) : List ℕ := roots.flatMap (read s.spines)

/-- A fresh spine without chunks. -/
def alloc (s : ChunkCells α) : ChunkCells α × ℕ :=
  ({ s with spines := s.spines ++ [[]] }, s.spines.length)

/-- Make the spine behind `root` exclusive; a copied spine shares its chunks. -/
def own (s : ChunkCells α) (others : List ℕ) (root : ℕ) : ChunkCells α × ℕ :=
  let (spines, root) := makeMut others s.spines root id
  ({ s with spines := spines }, root)

/-- Write to the chunk at a position of an exclusive spine. -/
def writeChunk (s : ChunkCells α) (others : List ℕ) (root position : ℕ)
    (write : List α → List α) : ChunkCells α :=
  let spine := read s.spines root
  let (chunks, chunk) := makeMut (spine.eraseIdx position ++ s.pointers others) s.chunks
    (spine.getD position 0) write
  { spines := s.spines.modify root fun spine => spine.set position chunk
    chunks := chunks }

/-- Append a fresh chunk to an exclusive spine. -/
def appendChunk (s : ChunkCells α) (root : ℕ) (chunk : List α) : ChunkCells α where
  spines := s.spines.modify root fun spine => spine ++ [s.chunks.length]
  chunks := s.chunks ++ [chunk]

def push (size : ℕ) (s : ChunkCells α) (others : List ℕ) (root : ℕ) (value : α) :
    ChunkCells α × ℕ :=
  let (s, root) := s.own others root
  match (s.view root).getLast? with
  | some chunk =>
      if chunk.length < size then
        (s.writeChunk others root ((read s.spines root).length - 1) (· ++ [value]), root)
      else (s.appendChunk root [value], root)
  | none => (s.appendChunk root [value], root)

/-- `get_mut(index)` followed by a write, where the index exists. -/
def update (size : ℕ) (s : ChunkCells α) (others : List ℕ) (root index : ℕ)
    (write : α → α) : ChunkCells α × ℕ :=
  let (s, root) := s.own others root
  if index / size < (read s.spines root).length then
    (s.writeChunk others root (index / size) fun chunk => chunk.modify (index % size) write, root)
  else (s, root)

/-- Writing through `root` gave `root'`, behind which the chunks are now `chunks`; the
other pointers see what they saw before. -/
structure Writes (s s' : ChunkCells α) (others : List ℕ) (root' : ℕ)
    (chunks : List (List α)) : Prop where
  valid : s'.Valid (root' :: others)
  exclusive : root' ∉ others
  written : s'.view root' = chunks
  kept : ∀ r ∈ others, s'.view r = s.view r

variable {s : ChunkCells α} {others : List ℕ} {root : ℕ}

theorem Valid.tail (h : s.Valid (root :: others)) : s.Valid others := fun r hr =>
  h r (.tail _ hr)

theorem view_congr {s' : ChunkCells α} {r : ℕ} (hspine : read s'.spines r = read s.spines r)
    (hchunks : ∀ c ∈ read s.spines r, read s'.chunks c = read s.chunks c) :
    s'.view r = s.view r := by
  unfold view
  rw [hspine]
  exact List.map_congr_left hchunks

/-- The spine behind the new pointer has the old chunks and no other pointer to it. -/
theorem own_writes (h : s.Valid (root :: others)) :
    Writes s (s.own others root).1 others (s.own others root).2 (s.view root) := by
  obtain ⟨hroot, hchunks⟩ := h root (.head _)
  have hbelow : ∀ r ∈ others, r < s.spines.length := fun r hr => (h.tail r hr).1
  have hlen := length_le_makeMut others id s.spines root
  have hread := read_makeMut others id hroot
  refine ⟨?_, makeMut_notMem id hbelow, ?_, ?_⟩
  · intro r hr
    rcases List.mem_cons.mp hr with rfl | hr
    · refine ⟨makeMut_lt others id hroot, ?_⟩
      intro c hc
      apply hchunks c
      rw [own, hread] at hc
      exact hc
    · refine ⟨Nat.lt_of_lt_of_le (hbelow r hr) hlen, ?_⟩
      intro c hc
      apply (h.tail r hr).2 c
      rw [own, read_makeMut_other id hr (hbelow r hr)] at hc
      exact hc
  · unfold view own
    rw [hread]
    rfl
  · intro r hr
    exact view_congr (read_makeMut_other id hr (hbelow r hr)) fun _ _ => rfl

theorem mem_pointers {r c : ℕ} (hr : r ∈ others) (hc : c ∈ read s.spines r) :
    c ∈ s.pointers others :=
  List.mem_flatMap.mpr ⟨r, hr, hc⟩

/-- A spine whose chunk at one position was replaced, seen through the written chunk cells. -/
theorem map_set_eq_modify {spine : List ℕ} {position chunk : ℕ} {before after : ℕ → List α}
    {write : List α → List α} (hposition : position < spine.length)
    (hwritten : after chunk = write (before spine[position]))
    (hkept : ∀ c ∈ spine.eraseIdx position, after c = before c) :
    (spine.set position chunk).map after = (spine.map before).modify position write := by
  apply List.ext_getElem?
  intro i
  rw [List.getElem?_map, List.getElem?_set, List.getElem?_modify, List.getElem?_map]
  by_cases hi : position = i
  · subst hi
    simp [hposition, hwritten]
  · rw [if_neg hi]
    rcases hget : spine[i]? with _ | c
    · rfl
    · have hmem : c ∈ spine.eraseIdx position :=
        List.mem_eraseIdx_iff_getElem?.mpr ⟨i, Ne.symm hi, hget⟩
      simp [hi, hkept c hmem]

theorem writeChunk_writes (h : s.Valid (root :: others)) (hown : root ∉ others) {position : ℕ}
    (hposition : position < (read s.spines root).length) (write : List α → List α) :
    Writes s (s.writeChunk others root position write) others root
      ((s.view root).modify position write) := by
  obtain ⟨hroot, hchunks⟩ := h root (.head _)
  have hget : (read s.spines root).getD position 0 = (read s.spines root)[position] := by
    simp [List.getD_eq_getElem?_getD, hposition]
  have haddress : (read s.spines root).getD position 0 < s.chunks.length := by
    rw [hget]
    exact hchunks _ (List.getElem_mem hposition)
  have hlen := length_le_makeMut ((read s.spines root).eraseIdx position ++ s.pointers others)
    write s.chunks ((read s.spines root).getD position 0)
  have hread := read_makeMut ((read s.spines root).eraseIdx position ++ s.pointers others)
    write haddress
  have hlt := makeMut_lt ((read s.spines root).eraseIdx position ++ s.pointers others)
    write haddress
  have hne : ∀ r ∈ others, r ≠ root := fun r hr heq => hown (heq ▸ hr)
  refine ⟨?_, hown, ?_, ?_⟩
  · intro r hr
    rcases List.mem_cons.mp hr with rfl | hr
    · refine ⟨by simpa [writeChunk] using hroot, ?_⟩
      intro c hc
      unfold writeChunk at hc ⊢
      rw [read_modify hroot] at hc
      rcases List.mem_or_eq_of_mem_set hc with hold | rfl
      · exact Nat.lt_of_lt_of_le (hchunks c hold) hlen
      · exact hlt
    · refine ⟨by simpa [writeChunk] using (h.tail r hr).1, ?_⟩
      intro c hc
      unfold writeChunk at hc ⊢
      rw [read_modify_ne (hne r hr)] at hc
      exact Nat.lt_of_lt_of_le ((h.tail r hr).2 c hc) hlen
  · unfold view writeChunk
    rw [read_modify hroot]
    apply map_set_eq_modify hposition
    · rw [hread, hget]
    · intro c hc
      exact read_makeMut_other write (List.mem_append_left _ hc)
        (hchunks c (List.mem_of_mem_eraseIdx hc))
  · intro r hr
    apply view_congr
    · exact read_modify_ne (hne r hr) _
    · intro c hc
      exact read_makeMut_other write (List.mem_append_right _ (mem_pointers hr hc))
        ((h.tail r hr).2 c hc)

theorem appendChunk_writes (h : s.Valid (root :: others)) (hown : root ∉ others) (chunk : List α) :
    Writes s (s.appendChunk root chunk) others root (s.view root ++ [chunk]) := by
  obtain ⟨hroot, hchunks⟩ := h root (.head _)
  have hne : ∀ r ∈ others, r ≠ root := fun r hr heq => hown (heq ▸ hr)
  refine ⟨?_, hown, ?_, ?_⟩
  · intro r hr
    unfold appendChunk
    rcases List.mem_cons.mp hr with rfl | hr
    · refine ⟨by simpa using hroot, ?_⟩
      intro c hc
      rw [read_modify hroot] at hc
      rw [List.length_append, List.length_singleton]
      rcases List.mem_append.mp hc with hold | hnew
      · have := hchunks c hold
        omega
      · rw [List.mem_singleton.mp hnew]
        omega
    · refine ⟨by simpa using (h.tail r hr).1, ?_⟩
      intro c hc
      rw [read_modify_ne (hne r hr)] at hc
      have := (h.tail r hr).2 c hc
      rw [List.length_append, List.length_singleton]
      omega
  · unfold view appendChunk
    rw [read_modify hroot, List.map_append]
    congr 1
    · apply List.map_congr_left
      intro c hc
      exact read_append_left (hchunks c hc)
    · rw [List.map_singleton, read_append_length]
  · intro r hr
    apply view_congr
    · exact read_modify_ne (hne r hr) _
    · intro c hc
      exact read_append_left ((h.tail r hr).2 c hc)

/-- Two writes through one pointer. -/
theorem Writes.trans {s' s'' : ChunkCells α} {root' root'' : ℕ} {chunks chunks' : List (List α)}
    (h : Writes s s' others root' chunks) (h' : Writes s' s'' others root'' chunks') :
    Writes s s'' others root'' chunks' :=
  ⟨h'.valid, h'.exclusive, h'.written, fun r hr => (h'.kept r hr).trans (h.kept r hr)⟩

theorem pushChunks_eq (size : ℕ) (value : α) (chunks : List (List α)) :
    Chunked.pushChunks size value chunks =
      match chunks.getLast? with
      | some chunk =>
          if chunk.length < size then chunks.modify (chunks.length - 1) (· ++ [value])
          else chunks ++ [[value]]
      | none => chunks ++ [[value]] := by
  induction chunks with
  | nil => rfl
  | cons chunk chunks ih =>
    cases chunks with
    | nil => rfl
    | cons next chunks =>
      rw [Chunked.pushChunks, ih, List.getLast?_cons_cons]
      rcases hlast : (next :: chunks).getLast? with _ | last
      · simp at hlast
      · simp only [List.length_cons, Nat.add_sub_cancel]
        split <;> rfl

theorem push_writes (size : ℕ) (h : s.Valid (root :: others)) (value : α) :
    Writes s (s.push size others root value).1 others (s.push size others root value).2
      (Chunked.pushChunks size value (s.view root)) := by
  have hown := own_writes h
  unfold push
  rw [pushChunks_eq, ← hown.written]
  rcases hlast : ((s.own others root).1.view (s.own others root).2).getLast? with _ | chunk
  · simp only [hlast]
    exact hown.trans (appendChunk_writes hown.valid hown.exclusive [value])
  · simp only [hlast]
    have hlen : ((s.own others root).1.view (s.own others root).2).length =
        (read (s.own others root).1.spines (s.own others root).2).length := by
      simp [view]
    have hpos : 0 < ((s.own others root).1.view (s.own others root).2).length :=
      List.length_pos_of_mem (List.mem_of_getLast? hlast)
    by_cases hroom : chunk.length < size
    · rw [if_pos hroom, if_pos hroom]
      have hposition : (read (s.own others root).1.spines (s.own others root).2).length - 1 <
          (read (s.own others root).1.spines (s.own others root).2).length := by
        omega
      rw [hlen]
      exact hown.trans (writeChunk_writes hown.valid hown.exclusive hposition _)
    · rw [if_neg hroom, if_neg hroom]
      exact hown.trans (appendChunk_writes hown.valid hown.exclusive [value])

theorem update_writes (size : ℕ) (h : s.Valid (root :: others)) (index : ℕ) (write : α → α) :
    Writes s (s.update size others root index write).1 others
      (s.update size others root index write).2
      ((s.view root).modify (index / size) fun chunk => chunk.modify (index % size) write) := by
  have hown := own_writes h
  unfold update
  rw [← hown.written]
  simp only
  by_cases hlt : index / size < (read (s.own others root).1.spines (s.own others root).2).length
  · rw [if_pos hlt]
    exact hown.trans (writeChunk_writes hown.valid hown.exclusive hlt _)
  · rw [if_neg hlt, List.modify_eq_self (by simpa [view] using hlt)]
    exact ⟨hown.valid, hown.exclusive, rfl, hown.kept⟩

end ChunkCells
end StackPulse.SharedCells
