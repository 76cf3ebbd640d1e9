import StackPulse.SharedCells
import StackPulse.FrameContexts

/-!
The module contexts behind reference-counted pointers, as a reader and the
snapshots cloned from it share them. Each operation gets the other live handles,
whose pointers decide what has to be copied.
-/
namespace StackPulse.SharedContexts

open Chunks SharedCells Model FrameContexts

variable {owner : ModuleOwner}

section

variable {V W : Type} {m : FxHashMap ModuleOwner V}

def values (m : FxHashMap ModuleOwner V) : List V := m.entries.map fun e => e.2

def mapValues (f : V → W) (m : FxHashMap ModuleOwner V) : FxHashMap ModuleOwner W where
  entries := m.entries.map fun e => ⟨e.1, f e.2⟩
  nodupKeys := by
    have hkeys : (m.entries.map fun e => (⟨e.1, f e.2⟩ : Sigma fun _ => W)).keys =
        m.entries.keys := by
      simp [List.keys, Function.comp_def]
    unfold List.NodupKeys
    rw [hkeys]
    exact m.nodupKeys

theorem lookup_mapValues (f : V → W) (m : FxHashMap ModuleOwner V) (owner : ModuleOwner) :
    (mapValues f m).lookup owner = (m.lookup owner).map f := by
  have hmap := List.dlookup_map₂ (l := m.entries) (f := fun _ => f) owner
  exact hmap

theorem mapValues_congr {f g : V → W} (h : ∀ v ∈ values m, f v = g v) :
    mapValues f m = mapValues g m := by
  apply AList.ext
  apply List.map_congr_left
  intro e he
  rw [h e.2 (List.mem_map_of_mem he)]

theorem map_kerase (f : V → W) (owner : ModuleOwner) (l : List (Sigma fun _ : ModuleOwner => V)) :
    (l.kerase owner).map (fun e => (⟨e.1, f e.2⟩ : Sigma fun _ => W)) =
      (l.map fun e => (⟨e.1, f e.2⟩ : Sigma fun _ => W)).kerase owner := by
  induction l with
  | nil => rfl
  | cons e l ih =>
    obtain ⟨key, value⟩ := e
    by_cases h : owner = key
    · rw [List.kerase_cons_eq h, List.map_cons, List.kerase_cons_eq (by exact h)]
    · rw [List.kerase_cons_ne h, List.map_cons, List.map_cons, ih,
        List.kerase_cons_ne (by exact h)]

/-- The other values of a map may be read in another way. -/
theorem mapValues_insert {f g : V → W} (h : ∀ v ∈ values (m.erase owner), f v = g v) (v : V) :
    mapValues f (m.insert owner v) = (mapValues g m).insert owner (f v) := by
  apply AList.ext
  rw [AList.entries_insert]
  change ((m.insert owner v).entries.map fun e => (⟨e.1, f e.2⟩ : Sigma fun _ => W)) = _
  rw [AList.entries_insert, List.map_cons]
  congr 1
  refine Eq.trans ?_ (map_kerase g owner m.entries)
  apply List.map_congr_left
  intro e he
  have hvalue : f e.2 = g e.2 := h e.2 (List.mem_map_of_mem (f := fun e => e.2) he)
  rw [hvalue]

theorem values_insert (m : FxHashMap ModuleOwner V) (owner : ModuleOwner) (v : V) :
    values (m.insert owner v) = v :: values (m.erase owner) := rfl

theorem mem_values_of_erase {v : V} (h : v ∈ values (m.erase owner)) : v ∈ values m :=
  ((List.kerase_sublist owner m.entries).map _).subset h

theorem mem_values_of_lookup {v : V} (h : m.lookup owner = some v) : v ∈ values m :=
  List.mem_map_of_mem (f := fun e : Sigma fun _ : ModuleOwner => V => e.2)
    (AList.mem_lookup_iff.mp h)

end

/-- One value of the program's contexts: a pointer for each part. -/
structure Handle where
  limits : ℕ
  deactivated : ℕ
  owned : ℕ

/-- The allocations behind all handles. -/
structure ContextCells where
  limits : ChunkCells ℕ
  deactivated : ChunkCells (Option ℕ)
  maps : List (FxHashMap ModuleOwner ℕ)
  owned : ChunkCells ℕ

instance : Inhabited (FxHashMap ModuleOwner ℕ) := ⟨∅⟩

instance decidableWellChunked {α : Type} (size : ℕ) :
    (chunks : List (List α)) → Decidable (WellChunked size chunks)
  | [] => isTrue trivial
  | [chunk] => inferInstanceAs (Decidable (0 < chunk.length ∧ chunk.length ≤ size))
  | chunk :: next :: chunks =>
      have := decidableWellChunked size (next :: chunks)
      inferInstanceAs (Decidable (0 < size ∧ chunk.length = size ∧ _))

/-- A chunked sequence as a value. -/
def chunked {α : Type} (chunks : List (List α)) : ChunkedFrameContext α :=
  if h : WellChunked FRAME_CONTEXT_CHUNK_SIZE chunks then ⟨chunks, h⟩ else .empty

namespace ContextCells

/-- Pointers to the sequences in the maps of these handles. -/
def ownedPointers (cells : ContextCells) (handles : List Handle) : List ℕ :=
  handles.flatMap fun h => values (read cells.maps h.owned)

/-- What is read through a handle. -/
def contexts (cells : ContextCells) (h : Handle) : SpoolFrameModuleContexts where
  frameModuleLimits := chunked (cells.limits.view h.limits)
  moduleDeactivatedAt := chunked (cells.deactivated.view h.deactivated)
  ownedModules := mapValues (fun root => chunked (cells.owned.view root)) (read cells.maps h.owned)

/-- `SpoolFrameModuleContexts::default()`, the first handle. -/
def default : ContextCells × Handle :=
  let (limits, l) := ChunkCells.empty.alloc
  let (deactivated, d) := ChunkCells.empty.alloc
  ({ limits := limits, deactivated := deactivated, maps := [∅], owned := .empty }, ⟨l, d, 0⟩)

/-- `entry(owner).or_default()`. -/
def entry (owned : ChunkCells ℕ) (roots : FxHashMap ModuleOwner ℕ) (owner : ModuleOwner) :
    ChunkCells ℕ × ℕ :=
  match roots.lookup owner with
  | some root => (owned, root)
  | none => owned.alloc

/-- Push to the sequence of an owner in an exclusive map. -/
def pushOwned (cells : ContextCells) (others : List Handle) (map moduleIndex : ℕ)
    (owner : ModuleOwner) : ContextCells :=
  let roots := read cells.maps map
  let elsewhere := values (roots.erase owner) ++ cells.ownedPointers others
  let (owned, root) := entry cells.owned roots owner
  let (owned, root) := owned.push FRAME_CONTEXT_CHUNK_SIZE elsewhere root moduleIndex
  { cells with
    owned := owned
    maps := cells.maps.modify map fun roots => roots.insert owner root }

def pushModule (cells : ContextCells) (others : List Handle) (h : Handle) (moduleIndex : ℕ)
    (owner : ModuleOwner) : ContextCells × Handle :=
  let (deactivated, d) := cells.deactivated.push FRAME_CONTEXT_CHUNK_SIZE
    (others.map (·.deactivated)) h.deactivated none
  let (maps, m) := makeMut (others.map (·.owned)) cells.maps h.owned id
  let cells := { cells with deactivated := deactivated, maps := maps }
  (cells.pushOwned others m moduleIndex owner, { h with deactivated := d, owned := m })

def pushFrame (cells : ContextCells) (others : List Handle) (h : Handle) (moduleLimit : ℕ) :
    ContextCells × Handle :=
  let (limits, l) := cells.limits.push FRAME_CONTEXT_CHUNK_SIZE (others.map (·.limits)) h.limits
    moduleLimit
  ({ cells with limits := limits }, { h with limits := l })

/-- A slot keeps its first time. -/
def deactivateModule (cells : ContextCells) (others : List Handle) (h : Handle)
    (moduleId deactivatedAt : ℕ) : ContextCells × Handle :=
  let (deactivated, d) := cells.deactivated.update FRAME_CONTEXT_CHUNK_SIZE
    (others.map (·.deactivated)) h.deactivated moduleId fun slot => slot.or (some deactivatedAt)
  ({ cells with deactivated := deactivated }, { h with deactivated := d })

def deactivateAll (others : List Handle) (deactivatedAt : ℕ) :
    List ℕ → ContextCells → Handle → ContextCells × Handle
  | [], cells, h => (cells, h)
  | moduleId :: moduleIds, cells, h =>
      let (cells, h) := cells.deactivateModule others h moduleId deactivatedAt
      deactivateAll others deactivatedAt moduleIds cells h

def deactivateOwner (cells : ContextCells) (others : List Handle) (h : Handle)
    (owner : ModuleOwner) (deactivatedAt : ℕ) : ContextCells × Handle :=
  match (read cells.maps h.owned).lookup owner with
  | none => (cells, h)
  | some root => deactivateAll others deactivatedAt (cells.owned.view root).flatten cells h

end ContextCells

end StackPulse.SharedContexts
