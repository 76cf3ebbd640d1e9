import StackPulse.ContextFacts
import StackPulse.SharedContexts

/-!
Operations on shared contexts compared with those on contexts as values. Read
back through its handle, every operation is the one on the value, and all other
handles read what they read before.
-/
namespace StackPulse.SharedIsolation

open Chunks SharedCells Model FrameContexts SharedContexts ContextCells

variable {α : Type} {chunks : List (List α)} {x : α}

/-- Everything behind the handles is allocated and chunked as its type promises. -/
structure Valid (cells : ContextCells) (handles : List Handle) : Prop where
  limits : cells.limits.Valid (handles.map (·.limits))
  deactivated : cells.deactivated.Valid (handles.map (·.deactivated))
  maps : ∀ h ∈ handles, h.owned < cells.maps.length
  owned : cells.owned.Valid (cells.ownedPointers handles)
  limitChunks : ∀ h ∈ handles, WellChunked FRAME_CONTEXT_CHUNK_SIZE (cells.limits.view h.limits)
  deactivatedChunks : ∀ h ∈ handles,
    WellChunked FRAME_CONTEXT_CHUNK_SIZE (cells.deactivated.view h.deactivated)
  ownedChunks : ∀ root ∈ cells.ownedPointers handles,
    WellChunked FRAME_CONTEXT_CHUNK_SIZE (cells.owned.view root)

theorem Valid.mono {cells : ContextCells} {handles handles' : List Handle}
    (h : Valid cells handles) (hsub : ∀ o ∈ handles', o ∈ handles) : Valid cells handles' := by
  have hmap : ∀ (f : Handle → ℕ) {a : ℕ}, a ∈ handles'.map f → a ∈ handles.map f := by
    intro f a ha
    obtain ⟨o, ho, rfl⟩ := List.mem_map.mp ha
    exact List.mem_map_of_mem (hsub o ho)
  have hpointers : ∀ a ∈ cells.ownedPointers handles', a ∈ cells.ownedPointers handles := by
    intro a ha
    obtain ⟨o, ho, hroot⟩ := List.mem_flatMap.mp ha
    exact List.mem_flatMap.mpr ⟨o, hsub o ho, hroot⟩
  exact ⟨fun a ha => h.limits a (hmap _ ha), fun a ha => h.deactivated a (hmap _ ha),
    fun o ho => h.maps o (hsub o ho), fun a ha => h.owned a (hpointers a ha),
    fun o ho => h.limitChunks o (hsub o ho), fun o ho => h.deactivatedChunks o (hsub o ho),
    fun a ha => h.ownedChunks a (hpointers a ha)⟩

/-- An operation through one handle: afterwards `h'` reads `ctx`, the others what they read
before. -/
structure Yields (cells cells' : ContextCells) (others : List Handle) (h' : Handle)
    (ctx : SpoolFrameModuleContexts) : Prop where
  valid : Valid cells' (h' :: others)
  written : cells'.contexts h' = ctx
  kept : ∀ o ∈ others, cells'.contexts o = cells.contexts o

variable {cells : ContextCells} {others : List Handle} {h : Handle}

theorem Yields.trans {cells' cells'' : ContextCells} {h' h'' : Handle}
    {ctx ctx' : SpoolFrameModuleContexts} (hfirst : Yields cells cells' others h' ctx)
    (hthen : Yields cells' cells'' others h'' ctx') : Yields cells cells'' others h'' ctx' :=
  ⟨hthen.valid, hthen.written, fun o ho => (hthen.kept o ho).trans (hfirst.kept o ho)⟩

section

variable (hwell : WellChunked FRAME_CONTEXT_CHUNK_SIZE chunks)

include hwell

theorem chunked_of_wellChunked : chunked chunks = ⟨chunks, hwell⟩ := dif_pos hwell

theorem wellChunked_push (value : α) :
    WellChunked FRAME_CONTEXT_CHUNK_SIZE
      (Chunked.pushChunks FRAME_CONTEXT_CHUNK_SIZE value chunks) :=
  Chunked.wellChunked_pushChunks (Nat.pos_of_neZero _) value chunks hwell

theorem chunked_push (value : α) :
    chunked (Chunked.pushChunks FRAME_CONTEXT_CHUNK_SIZE value chunks) =
      (chunked chunks).push value := by
  rw [chunked_of_wellChunked hwell, chunked_of_wellChunked (wellChunked_push hwell value)]
  rfl

end

section

variable (hvalid : Valid cells (h :: others))

include hvalid

/-- Writing the limits of frames. -/
theorem limits_yields {limits : ChunkCells ℕ} {l : ℕ} {chunks : List (List ℕ)}
    (hw : ChunkCells.Writes cells.limits limits (others.map (·.limits)) l chunks)
    (hwell : WellChunked FRAME_CONTEXT_CHUNK_SIZE chunks) :
    Yields cells { cells with limits := limits } others { h with limits := l }
      { cells.contexts h with frameModuleLimits := chunked chunks } := by
  have hkept : ∀ o ∈ others, limits.view o.limits = cells.limits.view o.limits :=
    fun o ho => hw.kept _ (List.mem_map_of_mem ho)
  refine ⟨⟨hw.valid, hvalid.deactivated, ?_, hvalid.owned, ?_, ?_, hvalid.ownedChunks⟩, ?_, ?_⟩
  · exact List.forall_mem_cons.mpr (List.forall_mem_cons.mp hvalid.maps)
  · refine List.forall_mem_cons.mpr ⟨?_, ?_⟩
    · rw [hw.written]
      exact hwell
    · intro o ho
      rw [hkept o ho]
      exact hvalid.limitChunks o (.tail _ ho)
  · exact List.forall_mem_cons.mpr (List.forall_mem_cons.mp hvalid.deactivatedChunks)
  · unfold contexts
    rw [hw.written]
  · intro o ho
    unfold contexts
    rw [hkept o ho]

/-- Writing the times of deactivation. -/
theorem deactivated_yields {deactivated : ChunkCells (Option ℕ)} {d : ℕ}
    {chunks : List (List (Option ℕ))}
    (hw : ChunkCells.Writes cells.deactivated deactivated (others.map (·.deactivated)) d chunks)
    (hwell : WellChunked FRAME_CONTEXT_CHUNK_SIZE chunks) :
    Yields cells { cells with deactivated := deactivated } others { h with deactivated := d }
      { cells.contexts h with moduleDeactivatedAt := chunked chunks } := by
  have hkept : ∀ o ∈ others,
      deactivated.view o.deactivated = cells.deactivated.view o.deactivated :=
    fun o ho => hw.kept _ (List.mem_map_of_mem ho)
  refine ⟨⟨hvalid.limits, hw.valid, ?_, hvalid.owned, ?_, ?_, hvalid.ownedChunks⟩, ?_, ?_⟩
  · exact List.forall_mem_cons.mpr (List.forall_mem_cons.mp hvalid.maps)
  · exact List.forall_mem_cons.mpr (List.forall_mem_cons.mp hvalid.limitChunks)
  · refine List.forall_mem_cons.mpr ⟨?_, ?_⟩
    · rw [hw.written]
      exact hwell
    · intro o ho
      rw [hkept o ho]
      exact hvalid.deactivatedChunks o (.tail _ ho)
  · unfold contexts
    rw [hw.written]
  · intro o ho
    unfold contexts
    rw [hkept o ho]

theorem pushFrame_yields (moduleLimit : ℕ) :
    Yields cells (cells.pushFrame others h moduleLimit).1 others
      (cells.pushFrame others h moduleLimit).2 ((cells.contexts h).pushFrame moduleLimit) := by
  have hwell := hvalid.limitChunks h (.head _)
  have hyields := limits_yields hvalid
    (ChunkCells.push_writes FRAME_CONTEXT_CHUNK_SIZE hvalid.limits moduleLimit)
    (wellChunked_push hwell moduleLimit)
  rw [chunked_push hwell] at hyields
  exact hyields

end

theorem ownedPointers_cons : cells.ownedPointers (h :: others) =
    values (read cells.maps h.owned) ++ cells.ownedPointers others := rfl

theorem mem_ownedPointers {o : Handle} {root : ℕ} (ho : o ∈ others)
    (hroot : root ∈ values (read cells.maps o.owned)) : root ∈ cells.ownedPointers others :=
  List.mem_flatMap.mpr ⟨o, ho, hroot⟩

/-- The handles see the same maps. -/
theorem ownedPointers_congr {cells' : ContextCells}
    (hmaps : ∀ o ∈ others, read cells'.maps o.owned = read cells.maps o.owned) :
    cells'.ownedPointers others = cells.ownedPointers others := by
  apply List.flatMap_congr
  intro o ho
  rw [hmaps o ho]

theorem ownMap_yields (hvalid : Valid cells (h :: others)) :
    Yields cells
      { cells with maps := (makeMut (others.map (·.owned)) cells.maps h.owned id).1 } others
      { h with owned := (makeMut (others.map (·.owned)) cells.maps h.owned id).2 }
      (cells.contexts h) := by
  have hroot : h.owned < cells.maps.length := hvalid.maps h (.head _)
  have hlen := length_le_makeMut (others.map (·.owned)) id cells.maps h.owned
  have hread := read_makeMut (others.map (·.owned)) id hroot
  have hothers : ∀ o ∈ others, o.owned < cells.maps.length := fun o ho => hvalid.maps o (.tail _ ho)
  have hkept : ∀ o ∈ others, read (makeMut (others.map (·.owned)) cells.maps h.owned id).1
      o.owned = read cells.maps o.owned :=
    fun o ho => read_makeMut_other id (List.mem_map_of_mem ho) (hothers o ho)
  have hpointers : ContextCells.ownedPointers
      { cells with maps := (makeMut (others.map (·.owned)) cells.maps h.owned id).1 }
      ({ h with owned := (makeMut (others.map (·.owned)) cells.maps h.owned id).2 } :: others) =
      cells.ownedPointers (h :: others) := by
    rw [ownedPointers_cons, ownedPointers_cons, ownedPointers_congr hkept]
    simp only [hread, id]
  refine ⟨⟨hvalid.limits, hvalid.deactivated, ?_, ?_, ?_, ?_, ?_⟩, ?_, ?_⟩
  · refine List.forall_mem_cons.mpr ⟨makeMut_lt _ id hroot, ?_⟩
    intro o ho
    exact Nat.lt_of_lt_of_le (hothers o ho) hlen
  · rw [hpointers]
    exact hvalid.owned
  · exact List.forall_mem_cons.mpr (List.forall_mem_cons.mp hvalid.limitChunks)
  · exact List.forall_mem_cons.mpr (List.forall_mem_cons.mp hvalid.deactivatedChunks)
  · rw [hpointers]
    exact hvalid.ownedChunks
  · unfold contexts
    simp only [hread, id]
  · intro o ho
    unfold contexts
    simp only [hkept o ho]

/-- The sequence that `entry(owner).or_default()` finds or creates. -/
theorem entry_spec (owner : ModuleOwner) {owned : ChunkCells ℕ}
    {roots : FxHashMap ModuleOwner ℕ} {elsewhere : List ℕ} (hroots : owned.Valid (values roots))
    (helsewhere : owned.Valid elsewhere) :
    (entry owned roots owner).1.Valid ((entry owned roots owner).2 :: elsewhere) ∧
      (∀ r ∈ elsewhere, (entry owned roots owner).1.view r = owned.view r) ∧
      (entry owned roots owner).1.view (entry owned roots owner).2 =
        ((roots.lookup owner).map owned.view).getD [] := by
  unfold entry
  rcases hlookup : roots.lookup owner with _ | root
  · have hspine : ∀ r ∈ elsewhere, read (owned.alloc).1.spines r = read owned.spines r :=
      fun r hr => read_append_left (helsewhere r hr).1
    have hfresh : read (owned.alloc).1.spines owned.spines.length = [] :=
      read_append_length owned.spines []
    refine ⟨?_, ?_, ?_⟩
    · refine List.forall_mem_cons.mpr ⟨⟨by simp [ChunkCells.alloc], ?_⟩, ?_⟩
      · intro c hc
        change c ∈ read (owned.alloc).1.spines owned.spines.length at hc
        rw [hfresh] at hc
        exact absurd hc List.not_mem_nil
      · intro r hr
        have hlt := (helsewhere r hr).1
        refine ⟨by simp only [ChunkCells.alloc, List.length_append]; omega, ?_⟩
        rw [hspine r hr]
        exact (helsewhere r hr).2
    · intro r hr
      exact ChunkCells.view_congr (hspine r hr) fun _ _ => rfl
    · change (read (owned.alloc).1.spines owned.spines.length).map _ = _
      rw [hfresh]
      rfl
  · refine ⟨List.forall_mem_cons.mpr ⟨hroots root (mem_values_of_lookup hlookup), helsewhere⟩,
      fun _ _ => rfl, rfl⟩

/-- Pushing to the sequence of an owner in an exclusive map. -/
theorem pushOwned_yields (hvalid : Valid cells (h :: others))
    (hexclusive : h.owned ∉ others.map (·.owned)) (moduleIndex : ℕ) (owner : ModuleOwner) :
    Yields cells (cells.pushOwned others h.owned moduleIndex owner) others h
      { cells.contexts h with
        ownedModules := (cells.contexts h).ownedModules.insert owner
          ((((cells.contexts h).ownedModules.lookup owner).getD .empty).push moduleIndex) } := by
  obtain ⟨roots, hroots⟩ : ∃ roots, read cells.maps h.owned = roots := ⟨_, rfl⟩
  obtain ⟨elsewhere, helsewhere⟩ : ∃ elsewhere,
      values (roots.erase owner) ++ cells.ownedPointers others = elsewhere := ⟨_, rfl⟩
  have hmap : h.owned < cells.maps.length := hvalid.maps h (.head _)
  have hpointers : cells.ownedPointers (h :: others) =
      values roots ++ cells.ownedPointers others := by
    rw [ownedPointers_cons, hroots]
  have hsubset : ∀ r ∈ elsewhere, r ∈ cells.ownedPointers (h :: others) := by
    intro r hr
    rw [← helsewhere] at hr
    rw [hpointers]
    rcases List.mem_append.mp hr with hsame | hother
    · exact List.mem_append_left _ (mem_values_of_erase hsame)
    · exact List.mem_append_right _ hother
  obtain ⟨hentry, hkept, hview⟩ := entry_spec owner
    (fun r hr => hvalid.owned r (by rw [hpointers]; exact List.mem_append_left _ hr))
    (fun r hr => hvalid.owned r (hsubset r hr))
  have hwell : WellChunked FRAME_CONTEXT_CHUNK_SIZE
      (((roots.lookup owner).map cells.owned.view).getD []) := by
    rcases hlookup : roots.lookup owner with _ | root
    · trivial
    · apply hvalid.ownedChunks
      rw [hpointers]
      exact List.mem_append_left _ (mem_values_of_lookup hlookup)
  have hw := ChunkCells.push_writes FRAME_CONTEXT_CHUNK_SIZE hentry moduleIndex
  have hdef : cells.pushOwned others h.owned moduleIndex owner =
      { cells with
        owned := ((entry cells.owned roots owner).1.push FRAME_CONTEXT_CHUNK_SIZE elsewhere
          (entry cells.owned roots owner).2 moduleIndex).1
        maps := cells.maps.modify h.owned fun roots' => roots'.insert owner
          ((entry cells.owned roots owner).1.push FRAME_CONTEXT_CHUNK_SIZE elsewhere
            (entry cells.owned roots owner).2 moduleIndex).2 } := by
    simp only [pushOwned, hroots, helsewhere]
  rw [hdef]
  rw [hview] at hw
  revert hw
  -- what is pushed to no longer matters, only what the push wrote
  generalize (entry cells.owned roots owner).1.push FRAME_CONTEXT_CHUNK_SIZE elsewhere
    (entry cells.owned roots owner).2 moduleIndex = pushed
  intro hw
  have hmapsKept : ∀ o ∈ others, read (cells.maps.modify h.owned fun roots' =>
      roots'.insert owner pushed.2) o.owned = read cells.maps o.owned := by
    intro o ho
    apply read_modify_ne
    intro heq
    exact hexclusive (heq ▸ List.mem_map_of_mem (f := fun o : Handle => o.owned) ho)
  have hmapsRead : read (cells.maps.modify h.owned fun roots' => roots'.insert owner pushed.2)
      h.owned = roots.insert owner pushed.2 := by
    rw [read_modify hmap, hroots]
  have hpointers' : ContextCells.ownedPointers
      { cells with owned := pushed.1, maps := cells.maps.modify h.owned fun roots' =>
          roots'.insert owner pushed.2 } (h :: others) = pushed.2 :: elsewhere := by
    rw [ownedPointers_cons, ownedPointers_congr hmapsKept, hmapsRead, values_insert, ← helsewhere]
    rfl
  have hsame : ∀ r ∈ elsewhere, pushed.1.view r = cells.owned.view r :=
    fun r hr => (hw.kept r hr).trans (hkept r hr)
  refine ⟨⟨hvalid.limits, hvalid.deactivated, ?_, ?_, hvalid.limitChunks,
    hvalid.deactivatedChunks, ?_⟩, ?_, ?_⟩
  · intro o ho
    simpa using hvalid.maps o ho
  · rw [hpointers']
    exact hw.valid
  · rw [hpointers']
    refine List.forall_mem_cons.mpr ⟨?_, ?_⟩
    · rw [hw.written]
      exact wellChunked_push hwell moduleIndex
    · intro r hr
      rw [hsame r hr]
      exact hvalid.ownedChunks r (hsubset r hr)
  · unfold contexts
    simp only [hmapsRead, hroots]
    congr 1
    rw [mapValues_insert (g := fun root => chunked (cells.owned.view root)), hw.written,
      chunked_push hwell, lookup_mapValues]
    · rcases roots.lookup owner with _ | root
      · rfl
      · rfl
    · intro r hr
      rw [hsame r (by rw [← helsewhere]; exact List.mem_append_left _ hr)]
  · intro o ho
    unfold contexts
    simp only [hmapsKept o ho]
    congr 1
    apply mapValues_congr
    intro r hr
    rw [hsame r (by rw [← helsewhere]; exact List.mem_append_right _ (mem_ownedPointers ho hr))]

theorem pushModule_yields (hvalid : Valid cells (h :: others)) (moduleIndex : ℕ)
    (owner : ModuleOwner) :
    Yields cells (cells.pushModule others h moduleIndex owner).1 others
      (cells.pushModule others h moduleIndex owner).2
      ((cells.contexts h).pushModule moduleIndex owner) := by
  have hwell := hvalid.deactivatedChunks h (.head _)
  have hdeactivated := deactivated_yields hvalid
    (ChunkCells.push_writes FRAME_CONTEXT_CHUNK_SIZE hvalid.deactivated none)
    (wellChunked_push hwell none)
  rw [chunked_push hwell] at hdeactivated
  have hmap := ownMap_yields hdeactivated.valid
  have hexclusive : (makeMut (others.map (·.owned)) cells.maps h.owned id).2 ∉
      others.map (·.owned) := by
    apply makeMut_notMem
    intro a ha
    obtain ⟨o, ho, rfl⟩ := List.mem_map.mp ha
    exact hvalid.maps o (.tail _ ho)
  have howned := pushOwned_yields hmap.valid hexclusive moduleIndex owner
  rw [hmap.written, hdeactivated.written] at howned
  exact (hdeactivated.trans hmap).trans howned

/-- A write through chunk number and offset depends on the element there only. -/
theorem modify_modify_eq {q j : ℕ} (hget : (chunks[q]?.bind fun chunk => chunk[j]?) = some x)
    (write : α → α) :
    (chunks.modify q fun chunk => chunk.modify j write) =
      chunks.modify q fun chunk => chunk.set j (write x) := by
  obtain ⟨chunk, hchunk, hx⟩ := Option.bind_eq_some_iff.mp hget
  apply List.ext_getElem?
  intro i
  rw [List.getElem?_modify, List.getElem?_modify]
  by_cases hi : q = i
  · subst hi
    rw [hchunk]
    simp only [if_true, Option.map_eq_map, Option.map_some]
    congr 1
    apply List.ext_getElem?
    intro n
    rw [List.getElem?_modify, List.getElem?_set]
    by_cases hn : j = n
    · subst hn
      simp [(List.getElem?_eq_some_iff.mp hx).1, (List.getElem?_eq_some_iff.mp hx).2]
    · simp [hn]
  · simp [hi]

theorem set_self {c : ChunkedFrameContext α} {index : ℕ} (hget : c.get index = some x) :
    c.set index x = c := by
  apply Chunked.ext
  have hmodify := modify_modify_eq hget id
  simp only [List.modify_id, id] at hmodify
  exact hmodify.symm.trans (List.modify_id _ _)

/-- Writing one element of a chunked sequence. -/
theorem chunked_update (hwell : WellChunked FRAME_CONTEXT_CHUNK_SIZE chunks) {index : ℕ}
    (hget : (chunked chunks).get index = some x) (write : α → α) :
    WellChunked FRAME_CONTEXT_CHUNK_SIZE (chunks.modify (index / FRAME_CONTEXT_CHUNK_SIZE)
        fun chunk => chunk.modify (index % FRAME_CONTEXT_CHUNK_SIZE) write) ∧
      chunked (chunks.modify (index / FRAME_CONTEXT_CHUNK_SIZE)
        fun chunk => chunk.modify (index % FRAME_CONTEXT_CHUNK_SIZE) write) =
          (chunked chunks).set index (write x) := by
  rw [chunked_of_wellChunked hwell] at hget ⊢
  rw [modify_modify_eq hget write]
  have hset := ((⟨chunks, hwell⟩ : ChunkedFrameContext α).set index (write x)).wellChunked
  exact ⟨hset, chunked_of_wellChunked hset⟩

theorem deactivateModule_yields (hvalid : Valid cells (h :: others)) {moduleId : ℕ}
    (deactivatedAt : ℕ)
    (hlt : moduleId < (cells.contexts h).moduleDeactivatedAt.toList.length) :
    ∃ wasActive ctx,
      (cells.contexts h).deactivateModule moduleId deactivatedAt = .ok (wasActive, ctx) ∧
        Yields cells (cells.deactivateModule others h moduleId deactivatedAt).1 others
          (cells.deactivateModule others h moduleId deactivatedAt).2 ctx := by
  obtain ⟨slot, hslot⟩ :
      ∃ slot, (cells.contexts h).moduleDeactivatedAt.get moduleId = some slot := by
    rw [Chunked.get_eq]
    exact ⟨_, List.getElem?_eq_getElem hlt⟩
  obtain ⟨hwell, hset⟩ := chunked_update (hvalid.deactivatedChunks h (.head _)) hslot
    (fun slot => slot.or (some deactivatedAt))
  have hyields := deactivated_yields hvalid
    (ChunkCells.update_writes FRAME_CONTEXT_CHUNK_SIZE hvalid.deactivated moduleId
      (fun slot => slot.or (some deactivatedAt))) hwell
  rw [hset] at hyields
  unfold SpoolFrameModuleContexts.deactivateModule
  rw [hslot]
  rcases slot with _ | time
  · exact ⟨true, _, rfl, hyields⟩
  · refine ⟨false, _, rfl, ?_⟩
    have hsame : (chunked (cells.deactivated.view h.deactivated)).set moduleId (some time) =
        (cells.contexts h).moduleDeactivatedAt := set_self hslot
    rw [Option.some_or, hsame] at hyields
    exact hyields

theorem deactivateAll_yields (deactivatedAt : ℕ) {moduleIds : List ℕ}
    (hvalid : Valid cells (h :: others))
    (hlt : ∀ moduleId ∈ moduleIds,
      moduleId < (cells.contexts h).moduleDeactivatedAt.toList.length) :
    ∃ deactivated ctx,
      SpoolFrameModuleContexts.deactivateAll deactivatedAt moduleIds (cells.contexts h) =
        .ok (deactivated, ctx) ∧
      Yields cells (deactivateAll others deactivatedAt moduleIds cells h).1 others
        (deactivateAll others deactivatedAt moduleIds cells h).2 ctx := by
  induction moduleIds generalizing cells h with
  | nil => exact ⟨[], _, rfl, hvalid, rfl, fun _ _ => rfl⟩
  | cons moduleId moduleIds ih =>
    obtain ⟨wasActive, mid, hone, hmid⟩ :=
      deactivateModule_yields hvalid deactivatedAt (hlt moduleId (.head _))
    obtain ⟨_, _, hone', hretires⟩ := ContextFacts.deactivateModule_eq deactivatedAt
      (hlt moduleId (.head _))
    rw [hone] at hone'
    cases hone'
    obtain ⟨deactivated, ctx, hall, hctx⟩ := ih hmid.valid fun id hid => by
      rw [hmid.written, hretires.times, ContextFacts.length_retire]
      exact hlt id (.tail _ hid)
    rw [hmid.written] at hall
    refine ⟨if wasActive then moduleId :: deactivated else deactivated, ctx, ?_, hmid.trans hctx⟩
    rw [SpoolFrameModuleContexts.deactivateAll, hone]
    simp only [bind, Except.bind]
    rw [hall]
    rfl

theorem deactivateOwner_yields (hvalid : Valid cells (h :: others)) {modules : List ModuleRecord}
    {frameCount : ℕ} (hctx : ContextFacts.Coherent (cells.contexts h) modules frameCount)
    (owner : ModuleOwner) (deactivatedAt : ℕ) :
    ∃ deactivated ctx,
      (cells.contexts h).deactivateOwner owner deactivatedAt = .ok (deactivated, ctx) ∧
        Yields cells (cells.deactivateOwner others h owner deactivatedAt).1 others
          (cells.deactivateOwner others h owner deactivatedAt).2 ctx := by
  have hlookup : (cells.contexts h).ownedModules.lookup owner =
      ((read cells.maps h.owned).lookup owner).map fun root => chunked (cells.owned.view root) :=
    lookup_mapValues _ _ _
  unfold SpoolFrameModuleContexts.deactivateOwner deactivateOwner
  rw [hlookup]
  rcases hroot : (read cells.maps h.owned).lookup owner with _ | root
  · exact ⟨[], _, rfl, hvalid, rfl, fun _ _ => rfl⟩
  · have hwell : WellChunked FRAME_CONTEXT_CHUNK_SIZE (cells.owned.view root) := by
      apply hvalid.ownedChunks
      exact mem_ownedPointers (.head _) (mem_values_of_lookup hroot)
    have hlist : (chunked (cells.owned.view root)).toList = (cells.owned.view root).flatten := by
      rw [chunked_of_wellChunked hwell]
      rfl
    simp only [Option.map_some]
    rw [hlist]
    apply deactivateAll_yields deactivatedAt hvalid
    intro moduleId hmem
    have howned := hctx.owned owner
    rw [ContextFacts.ownedIndices, hlookup, hroot] at howned
    rw [← hlist] at hmem
    have hmem' : moduleId ∈ ContextFacts.ownedBy modules owner := by
      rw [← howned]
      exact hmem
    obtain ⟨m, hm, -⟩ := ContextFacts.mem_ownedBy.mp hmem'
    rw [hctx.deactivated_length]
    exact (List.getElem?_eq_some_iff.mp hm).1

end StackPulse.SharedIsolation
