import StackPulse.KernelEntries
import Mathlib.Data.Finset.Option

/-!
The table of kernel symbols whose names share one arena and whose modules are
interned. It is built from the included symbols, and shows their names and modules
as long as these fit the indices of the table.
-/
namespace StackPulse.KernelTable

open Model (Stop lookup_insert_cases)
open StableSort TextLines BufferedInput Kallsyms KernelEntries

variable {b : FullKernelSymbolsBuilder} {entries : List Entry}

def pushEntry (b : FullKernelSymbolsBuilder) (e : Entry) : Except Stop FullKernelSymbolsBuilder :=
  b.push e.address e.name.name e.name.module

/-- The loop over the reader pushes the included symbols, however the bytes are cut
into buffers. -/
theorem parseFullLoop_eq (sizes : ℕ → ℕ) {rounds : ℕ} {r : Reader}
    (hrounds : r.rest.length < rounds) (textAddr : Option ℕ) (builder : FullKernelSymbolsBuilder) :
    parseFullLoop sizes rounds r textAddr builder =
      (scanLines textAddr (splitInclusive newline r.rest)).1.foldlM pushEntry builder >>= fun b =>
        .ok (if (scanLines textAddr (splitInclusive newline r.rest)).2 then .default
          else b.finish) := by
  induction rounds generalizing r textAddr builder with
  | zero => exact absurd hrounds (Nat.not_lt_zero _)
  | succ rounds ih =>
    obtain ⟨r', line, hread, hempty, hfull⟩ :=
      readUntil_spec sizes newline (Nat.lt_succ_self r.rest.length) List.not_mem_nil
    unfold parseFullLoop
    rw [hread]
    by_cases hnil : line = []
    · rw [(hempty hnil).2]
      simp only [if_pos hnil]
      rfl
    · obtain ⟨hshorter, hsplit⟩ := hfull hnil
      rw [List.nil_append] at hshorter hsplit
      have hrest : r'.rest.length < rounds := by omega
      rw [hsplit]
      simp only [if_neg hnil]
      unfold scanLines classify
      rcases hparse : parseKernelSymbolLineBytes line with _ | ⟨address, name⟩
      · exact ih hrest textAddr builder
      · by_cases hrestricted : isRestrictedKernelText address name = true
        · simp only [if_pos hrestricted]
          rfl
        · simp only [if_neg hrestricted]
          rcases shouldIncludeKernelSymbol textAddr address name with ⟨_ | _, textAddr'⟩
          · exact ih hrest textAddr' builder
          · show (builder.push address name.name name.module >>= fun builder =>
              parseFullLoop sizes rounds r' textAddr' builder) = _
            rw [List.foldlM_cons, bind_assoc]
            show _ = builder.push address name.name name.module >>= _
            congr 1
            funext builder'
            exact ih hrest textAddr' builder'

/-- A symbol of the table, as a lookup shows it. -/
def resolve (names : List UInt8) (modules : List (List UInt8)) (symbol : FullKernelSymbol) :
    ℕ × List UInt8 × Option (List UInt8) :=
  (symbol.address, (names.drop symbol.nameStart).take symbol.nameLen,
    symbol.module.map fun module => modules.getD module [])

def view (symbol : KernelSymbol) : ℕ × List UInt8 × Option (List UInt8) :=
  (symbol.address, symbol.name, symbol.module)

/-- The bytes that the names take in the arena. -/
def arenaSize (entries : List Entry) : ℕ := (entries.map fun e => e.symbol.name.length).sum

/-- The modules that are named, each once. -/
def moduleNames (entries : List Entry) : Finset (List UInt8) :=
  (entries.filterMap (·.name.module)).toFinset

/-- A builder that holds the given symbols. -/
structure Holds (b : FullKernelSymbolsBuilder) (entries : List Entry) : Prop where
  symbols : b.symbols.map (resolve b.names b.modules) = entries.map fun e => view e.symbol
  bounds : ∀ s ∈ b.symbols, s.nameStart + s.nameLen ≤ b.names.length ∧
    ∀ m, s.module = some m → m < b.modules.length
  ids : ∀ m id, b.moduleIds.lookup m = some id →
    b.modules[id]? = some (kernelSymbolModuleToString m)
  known : ∀ m ∈ moduleNames entries, m ∈ b.moduleIds
  arena : b.names.length = arenaSize entries
  interned : b.modules.length ≤ (moduleNames entries).card

theorem holds_default : Holds .default [] where
  symbols := rfl
  bounds := fun s hs => absurd hs List.not_mem_nil
  ids := fun m id h => by cases h
  known := fun m hm => absurd hm (Finset.notMem_empty m)
  arena := rfl
  interned := Nat.le_refl _

/-- What a symbol shows does not change when the arena and the modules grow. -/
theorem resolve_append {names : List UInt8} {modules : List (List UInt8)} {s : FullKernelSymbol}
    (hname : s.nameStart + s.nameLen ≤ names.length)
    (hmodule : ∀ m, s.module = some m → m < modules.length) (names' : List UInt8)
    (modules' : List (List UInt8)) :
    resolve (names ++ names') (modules ++ modules') s = resolve names modules s := by
  have hslice : ((names ++ names').drop s.nameStart).take s.nameLen =
      (names.drop s.nameStart).take s.nameLen := by
    rw [List.drop_append_of_le_length (by omega), List.take_append_of_le_length]
    rw [List.length_drop]
    omega
  have hmodules : (s.module.map fun m => (modules ++ modules').getD m []) =
      s.module.map fun m => modules.getD m [] := by
    rcases hm : s.module with _ | m
    · rfl
    · show some ((modules ++ modules').getD m []) = some (modules.getD m [])
      rw [List.getD_eq_getElem?_getD, List.getD_eq_getElem?_getD,
        List.getElem?_append_left (hmodule m hm)]
  unfold resolve
  rw [hslice, hmodules]

/-- The module of a symbol gets an index that shows its text. -/
theorem moduleId_spec (hids : ∀ m id, b.moduleIds.lookup m = some id →
      b.modules[id]? = some (kernelSymbolModuleToString m)) (hsize : b.modules.length < 2 ^ 32)
    (module : List UInt8) : ∃ id more ids, b.moduleId module =
        .ok (id, { b with modules := b.modules ++ more, moduleIds := ids }) ∧
      (more = [] ∨ (more.length = 1 ∧ module ∉ b.moduleIds)) ∧
      (b.modules ++ more)[id]? = some (kernelSymbolModuleToString module) ∧
      (∀ m id, ids.lookup m = some id →
        (b.modules ++ more)[id]? = some (kernelSymbolModuleToString m)) ∧
      ∀ m, m = module ∨ m ∈ b.moduleIds → m ∈ ids := by
  unfold FullKernelSymbolsBuilder.moduleId
  rcases hlookup : b.moduleIds.lookup module with _ | id
  · have hindex : kernelSymbolTableIndex b.modules.length = .ok b.modules.length := if_pos hsize
    have hnew : (b.modules ++ [kernelSymbolModuleToString module])[b.modules.length]? =
        some (kernelSymbolModuleToString module) := by
      rw [List.getElem?_append_right le_rfl, Nat.sub_self]
      rfl
    refine ⟨b.modules.length, [kernelSymbolModuleToString module],
      b.moduleIds.insert module b.modules.length, ?_,
      .inr ⟨rfl, AList.lookup_eq_none.mp hlookup⟩, hnew, fun m id h => ?_,
      fun m hm => (AList.mem_insert _).mpr hm⟩
    · simp only [hindex]
      rfl
    · rcases lookup_insert_cases h with ⟨rfl, rfl⟩ | h
      · exact hnew
      · have hold := hids m id h
        rw [List.getElem?_append_left (List.getElem?_eq_some_iff.mp hold).1]
        exact hold
  · have hmem : module ∈ b.moduleIds := AList.lookup_isSome.mp (by rw [hlookup]; rfl)
    refine ⟨id, [], b.moduleIds, ?_, .inl rfl, ?_, fun m id h => ?_,
      fun m hm => hm.elim (fun heq => heq ▸ hmem) fun hm => hm⟩
    · simp only [List.append_nil]
    · rw [List.append_nil]
      exact hids module id hlookup
    · rw [List.append_nil]
      exact hids m id h

theorem arenaSize_snoc (entries : List Entry) (e : Entry) :
    arenaSize (entries ++ [e]) = arenaSize entries + (fromUtf8Lossy e.name.name).length := by
  unfold arenaSize
  rw [List.map_append, List.sum_append]
  rfl

theorem moduleNames_snoc (entries : List Entry) (e : Entry) :
    moduleNames (entries ++ [e]) = moduleNames entries ∪ e.name.module.toFinset := by
  unfold moduleNames
  rw [List.filterMap_append, List.toFinset_append]
  cases hm : e.name.module with
  | none => simp [hm]
  | some module => simp [hm]

/-- Adding a symbol to a builder whose tables are grown accordingly. -/
theorem Holds.add (h : Holds b entries) (e : Entry) (more : List (List UInt8))
    (ids : AList fun _ : List UInt8 => ℕ) (module : Option ℕ)
    (hmodule : (module.map fun m => (b.modules ++ more).getD m []) =
      e.name.module.map kernelSymbolModuleToString)
    (hbound : ∀ m, module = some m → m < (b.modules ++ more).length)
    (hids : ∀ m id, ids.lookup m = some id →
      (b.modules ++ more)[id]? = some (kernelSymbolModuleToString m))
    (hknown : ∀ m, m ∈ e.name.module ∨ m ∈ b.moduleIds → m ∈ ids)
    (hmore : (b.modules ++ more).length ≤ (moduleNames (entries ++ [e])).card) :
    Holds ⟨b.symbols ++ [⟨e.address, b.names.length, (fromUtf8Lossy e.name.name).length, module⟩],
      b.names ++ fromUtf8Lossy e.name.name, b.modules ++ more, ids⟩ (entries ++ [e]) where
  symbols := by
    show (b.symbols ++ [_]).map (resolve _ _) = _
    rw [List.map_append, List.map_append]
    have hold : b.symbols.map (resolve (b.names ++ fromUtf8Lossy e.name.name) (b.modules ++ more)) =
        entries.map fun e => view e.symbol := by
      rw [← h.symbols]
      apply List.map_congr_left
      intro s hs
      exact resolve_append (h.bounds s hs).1 (h.bounds s hs).2 _ _
    rw [hold]
    show _ ++ [(e.address, ((b.names ++ fromUtf8Lossy e.name.name).drop b.names.length).take _,
      module.map fun m => (b.modules ++ more).getD m [])] = _
    rw [List.drop_left, List.take_length, hmodule]
    rfl
  bounds := by
    intro s hs
    rw [List.length_append]
    rcases List.mem_append.mp hs with hs | hs
    · obtain ⟨hname, hm⟩ := h.bounds s hs
      refine ⟨by omega, fun m heq => ?_⟩
      have hlt := hm m heq
      rw [List.length_append]
      omega
    · rw [List.mem_singleton.mp hs]
      exact ⟨le_rfl, hbound⟩
  ids := hids
  known := by
    intro m hm
    rw [moduleNames_snoc, Finset.mem_union, Option.mem_toFinset] at hm
    exact hknown m (hm.symm.imp_right (h.known m))
  arena := by
    rw [arenaSize_snoc, List.length_append, h.arena]
  interned := hmore

/-- A module without an index is not named before. -/
theorem Holds.interned_snoc (h : Holds b entries) {e : Entry} {module : List UInt8}
    (hm : e.name.module = some module) {more : List (List UInt8)}
    (hmore : more = [] ∨ (more.length = 1 ∧ module ∉ b.moduleIds)) :
    (b.modules ++ more).length ≤ (moduleNames (entries ++ [e])).card := by
  have hinterned := h.interned
  rw [moduleNames_snoc, hm, Option.toFinset_some, List.length_append]
  rcases hmore with rfl | ⟨hone, hnew⟩
  · exact hinterned.trans (Finset.card_le_card Finset.subset_union_left)
  · have hdisjoint : Disjoint (moduleNames entries) {module} :=
      Finset.disjoint_singleton_right.mpr fun hmem => hnew (h.known module hmem)
    rw [Finset.card_union_of_disjoint hdisjoint, Finset.card_singleton, hone]
    exact Nat.add_le_add_right hinterned 1

theorem pushEntry_holds (h : Holds b entries) {e : Entry}
    (hnames : arenaSize (entries ++ [e]) < 2 ^ 32)
    (hmodules : (moduleNames entries).card < 2 ^ 32) :
    ∃ b', pushEntry b e = .ok b' ∧ Holds b' (entries ++ [e]) := by
  have harena := h.arena
  rw [arenaSize_snoc] at hnames
  have hstart : kernelSymbolTableIndex b.names.length = .ok b.names.length := if_pos (by omega)
  have hlength : (b.names ++ fromUtf8Lossy e.name.name).length - b.names.length =
      (fromUtf8Lossy e.name.name).length := by
    rw [List.length_append, Nat.add_sub_cancel_left]
  have hlen : kernelSymbolTableIndex (fromUtf8Lossy e.name.name).length =
      .ok (fromUtf8Lossy e.name.name).length := if_pos (by omega)
  unfold pushEntry FullKernelSymbolsBuilder.push
  simp only [hstart, hlength, hlen]
  rcases hm : e.name.module with _ | module
  · refine ⟨_, rfl, ?_⟩
    have hadd := h.add e [] b.moduleIds none (by rw [hm]; rfl)
      (fun m heq => by cases heq)
      (fun m id hid => by rw [List.append_nil]; exact h.ids m id hid)
      (fun m hmem => hmem.resolve_left (by rw [hm]; exact Option.not_mem_none m)) (by
        rw [List.append_nil, moduleNames_snoc]
        exact h.interned.trans (Finset.card_le_card Finset.subset_union_left))
    rw [List.append_nil] at hadd
    exact hadd
  · obtain ⟨id, more, ids, hid, hmore, hindex, hids, hknown⟩ := moduleId_spec
      (b := { b with names := b.names ++ fromUtf8Lossy e.name.name }) h.ids
      (h.interned.trans_lt hmodules) module
    refine ⟨⟨b.symbols ++
        [⟨e.address, b.names.length, (fromUtf8Lossy e.name.name).length, some id⟩],
      b.names ++ fromUtf8Lossy e.name.name, b.modules ++ more, ids⟩, ?_, ?_⟩
    · show ((FullKernelSymbolsBuilder.moduleId { b with names := _ } module) >>= _) = _
      rw [hid]
      rfl
    · apply h.add
      · rw [hm]
        show some ((b.modules ++ more).getD id []) = _
        rw [List.getD_eq_getElem?_getD]
        exact congrArg some (congrArg (Option.getD · []) hindex)
      · intro m heq
        cases heq
        exact (List.getElem?_eq_some_iff.mp hindex).1
      · exact hids
      · intro m hmem
        rw [hm] at hmem
        exact hknown m (hmem.imp_left fun heq => (Option.some.inj heq).symm)
      · exact h.interned_snoc hm hmore

theorem foldlM_holds {before : List Entry} (h : Holds b before)
    (hnames : arenaSize (before ++ entries) < 2 ^ 32)
    (hmodules : (moduleNames (before ++ entries)).card < 2 ^ 32) :
    ∃ b', entries.foldlM pushEntry b = .ok b' ∧ Holds b' (before ++ entries) := by
  induction entries generalizing b before with
  | nil =>
    rw [List.append_nil]
    exact ⟨b, rfl, h⟩
  | cons e entries ih =>
    have hbefore : (moduleNames before).card < 2 ^ 32 := by
      refine lt_of_le_of_lt (Finset.card_le_card ?_) hmodules
      unfold moduleNames
      rw [List.filterMap_append, List.toFinset_append]
      exact Finset.subset_union_left
    rw [List.append_cons] at hnames hmodules
    have hfirst : arenaSize (before ++ [e]) < 2 ^ 32 := by
      unfold arenaSize at hnames ⊢
      rw [List.map_append, List.sum_append] at hnames
      omega
    obtain ⟨b₁, hpush, hb₁⟩ := pushEntry_holds h hfirst hbefore
    obtain ⟨b₂, hrest, hb₂⟩ := ih hb₁ hnames hmodules
    refine ⟨b₂, ?_, by rw [List.append_cons]; exact hb₂⟩
    rw [List.foldlM_cons, hpush]
    exact hrest

theorem Holds.find (h : Holds b entries) (address : ℕ) : b.finish.find address =
      (nearest entries address).map fun e => view e.symbol := by
  have hbuilt : (latest FullKernelSymbol.address
      (fun s => decide (s.address ≤ address)) b.symbols).map (resolve b.names b.modules) =
      latest Prod.fst (fun v => decide (v.1 ≤ address))
        (b.symbols.map (resolve b.names b.modules)) := by
    rw [latest_map]
    rfl
  unfold FullKernelSymbols.find FullKernelSymbolsBuilder.finish
  rw [findByAddress_eq]
  show (latest FullKernelSymbol.address _ b.symbols).map (resolve b.names b.modules) = _
  rw [hbuilt, h.symbols, latest_map]
  rfl

end StackPulse.KernelTable
