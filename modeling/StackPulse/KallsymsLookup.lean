import StackPulse.KernelTable
import StackPulse.SparseScan

/-!
The three ways of parsing kallsyms agree: the list of symbols, the table with an
arena and the sparse scan give the same lookups for every file and every cutting of
it into buffers.
-/
namespace StackPulse.KallsymsLookup

open StableSort TextLines BufferedInput Kallsyms KernelEntries KernelTable SparseScan

/-- Some line of the file has a core text symbol at address zero. -/
def Restricted (data : List UInt8) : Prop :=
  ∃ line ∈ splitInclusive newline data, ∃ address name,
    parseKernelSymbolLineBytes line = some (address, name) ∧
      isRestrictedKernelText address name = true

theorem restricted_of_line {lines : List (List UInt8)} {line : List UInt8} (hline : line ∈ lines)
    {address : ℕ} {name : KernelSymbolMetadata}
    (hparse : parseKernelSymbolLineBytes line = some (address, name))
    (hrestricted : isRestrictedKernelText address name = true) (textAddr : Option ℕ) :
    (scanLines textAddr lines).2 = true := by
  induction lines generalizing textAddr with
  | nil => exact absurd hline List.not_mem_nil
  | cons first lines ih =>
    rcases List.mem_cons.mp hline with rfl | hline
    · have hkind : classify textAddr line = .restricted := by
        unfold classify
        rw [hparse]
        exact if_pos hrestricted
      unfold scanLines
      rw [hkind]
    · unfold scanLines
      rcases classify textAddr first with textAddr' | _ | ⟨textAddr', e⟩
      · exact ih hline textAddr'
      · rfl
      · exact ih hline textAddr'

theorem Restricted.scanned {data : List UInt8} (h : Restricted data) :
    (KernelEntries.scanned data).2 = true := by
  obtain ⟨line, hline, address, name, hparse, hrestricted⟩ := h
  exact restricted_of_line hline hparse hrestricted none

theorem parseSparse_eq (sizes : ℕ → ℕ) (data : List UInt8) {requested : List ℕ}
    (hsorted : requested.Pairwise (· < ·)) :
    parseSparseKernelSymbolsStreaming sizes data requested =
      .ok (requested.filterMap fun r =>
        ((nearest (includedEntries data) r).map Entry.symbol).map (r, ·)) := by
  have hnothing : carried requested (scanned data).1 0 = none := by
    have hspec := latest_spec Entry.address
      (fun e => decide (bucket requested e.address < 0)) (scanned data).1
    rcases hbest : latest Entry.address
      (fun e => decide (bucket requested e.address < 0)) (scanned data).1 with _ | e
    · exact hbest
    · rw [hbest] at hspec
      obtain ⟨j, hw⟩ := hspec
      exact absurd (of_decide_eq_true hw.satisfies) (Nat.not_lt_zero _)
  have hrounds : (Reader.mk data 0).rest.length < data.length + 1 := Nat.lt_succ_self _
  unfold parseSparseKernelSymbolsStreaming
  rw [parseSparseLoop_eq sizes hrounds List.not_mem_nil, processLines_eq]
  show Except.ok (Option.getD (if (scanned data).2 = true then none else some
    (SparseKernelSymbolScan.finishLoop none (requested.zip ((scanned data).1.foldl
      (place requested) (List.replicate requested.length none))))) []) = _
  unfold includedEntries
  by_cases hrestricted : (scanned data).2 = true
  · rw [if_pos hrestricted, if_pos hrestricted]
    have hnone : requested.filterMap (fun r => ((nearest [] r).map Entry.symbol).map (r, ·)) = [] :=
      List.filterMap_eq_nil_iff.mpr fun r _ => rfl
    rw [hnone]
    rfl
  · rw [if_neg hrestricted, if_neg hrestricted]
    have hparse : ∀ e ∈ (scanned data).1,
        parseKernelSymbolLineBytes e.line = some (e.address, e.name) :=
      fun e he => parse_of_mem_scanLines he
    have hfinish := finishLoop_eq hsorted hparse (List.nil_append requested).symm
      (length_placed requested (scanned data).1) fun i hi => by
        rw [List.length_nil, Nat.zero_add]
        exact getElem?_placed requested (scanned data).1 hi
    rw [List.length_nil, hnothing] at hfinish
    exact congrArg Except.ok hfinish

/-- What a lookup has to return: the included symbol with the largest address up to
the given one, the last one in the file among aliases. -/
def NearestAlias (data : List UInt8) (address : ℕ) : Option KernelSymbol → Prop
  | none => ∀ e ∈ includedEntries data, address < e.address
  | some symbol => ∃ i e, symbol = e.symbol ∧
      Winner Entry.address (fun e => decide (e.address ≤ address)) (includedEntries data) i e

theorem findKernelSymbol_nearest (data : List UInt8) (address : ℕ) :
    NearestAlias data address (findKernelSymbol (parseKernelSymbols data) address) := by
  rw [findKernelSymbol_eq]
  have hspec := latest_spec Entry.address (fun e => decide (e.address ≤ address))
    (includedEntries data)
  unfold nearest
  rcases hbest : latest Entry.address (fun e => decide (e.address ≤ address))
    (includedEntries data) with _ | e
  · rw [hbest] at hspec
    exact fun e he => Nat.not_le.mp (of_decide_eq_false (hspec e he))
  · rw [hbest] at hspec
    obtain ⟨i, hw⟩ := hspec
    exact ⟨i, e, rfl, hw⟩

/-- For every file whose names fit the arena and whose modules can be numbered, every cutting of it
into buffers and every sorted list of requests: the sparse scan, the table with an arena and the
list of symbols give the same lookups. These return the last alias of the nearest address, and
nothing if the table is restricted. -/
theorem kernel_symbol_lookups_agree (data : List UInt8) (sizes sizes' : ℕ → ℕ)
    (requested : List ℕ) (hsorted : requested.Pairwise (· < ·))
    (hnames : arenaSize (scanned data).1 < 2 ^ 32)
    (hmodules : (moduleNames (scanned data).1).card < 2 ^ 32) :
    parseSparseKernelSymbolsStreaming sizes data requested =
        .ok (requested.filterMap fun r =>
          (findKernelSymbol (parseKernelSymbols data) r).map (r, ·)) ∧
      (∃ table, parseFullKernelSymbols sizes' data = .ok table ∧
        (∀ address, table.find address =
          (findKernelSymbol (parseKernelSymbols data) address).map view) ∧
        (Restricted data → table = .default)) ∧
      (∀ address, NearestAlias data address
        (findKernelSymbol (parseKernelSymbols data) address)) ∧
      (Restricted data → parseKernelSymbols data = [] ∧
        parseSparseKernelSymbolsStreaming sizes data requested = .ok []) := by
  have hsparse := parseSparse_eq sizes data hsorted
  obtain ⟨b, hfold, hholds⟩ := foldlM_holds holds_default hnames hmodules
  have hfull : parseFullKernelSymbols sizes' data =
      .ok (if (scanned data).2 then .default else b.finish) := by
    have hrounds : (Reader.mk data 0).rest.length < data.length + 1 := Nat.lt_succ_self _
    unfold parseFullKernelSymbols
    rw [parseFullLoop_eq sizes' hrounds]
    show ((scanned data).1.foldlM pushEntry _ >>= _) = _
    rw [hfold]
    rfl
  refine ⟨?_, ⟨_, hfull, fun address => ?_, fun h => if_pos h.scanned⟩,
    findKernelSymbol_nearest data, fun h => ⟨?_, ?_⟩⟩
  · rw [hsparse]
    simp only [findKernelSymbol_eq]
  · rw [findKernelSymbol_eq]
    unfold includedEntries
    by_cases hrestricted : (scanned data).2 = true
    · rw [if_pos hrestricted, if_pos hrestricted]
      rfl
    · rw [if_neg hrestricted, if_neg hrestricted, hholds.find, Option.map_map]
      rfl
  · unfold parseKernelSymbols
    have hrestricted : (scanLines none (splitInclusive newline data)).2 = true := h.scanned
    rw [parseKernelSymbolsLoop_eq, if_pos hrestricted]
  · rw [hsparse]
    have hnone : includedEntries data = [] := if_pos h.scanned
    rw [hnone]
    exact congrArg Except.ok (List.filterMap_eq_nil_iff.mpr fun r _ => rfl)

/-- A table with two aliases, a module symbol out of order, a line that is not a
symbol, and no newline at the end. -/
def sampleKallsyms : List UInt8 :=
  ascii "1000 T _text\n3000 t late\t[mod]\nnot a symbol\n2000 T first\n2000 T second"

theorem kernel_symbol_lookups_agree_unsorted :
    parseSparseKernelSymbolsStreaming (fun k => k % 3) sampleKallsyms [0x0fff, 0x2008, 0x4000] =
        .ok [(0x2008, ⟨0x2000, ascii "second", none⟩),
          (0x4000, ⟨0x3000, ascii "late", some (ascii "[mod]")⟩)] ∧
      ∃ table, parseFullKernelSymbols (fun k => k % 5) sampleKallsyms = .ok table ∧
        table.find 0x2008 = some (0x2000, ascii "second", none) := by
  have hfound : [0x0fff, 0x2008, 0x4000].filterMap (fun r =>
      (findKernelSymbol (parseKernelSymbols sampleKallsyms) r).map (r, ·)) =
      [(0x2008, ⟨0x2000, ascii "second", none⟩),
        (0x4000, ⟨0x3000, ascii "late", some (ascii "[mod]")⟩)] := by decide +kernel
  have hview : (findKernelSymbol (parseKernelSymbols sampleKallsyms) 0x2008).map view =
      some (0x2000, ascii "second", none) := by decide +kernel
  obtain ⟨hsparse, ⟨table, htable, hfind, _⟩, _⟩ := kernel_symbol_lookups_agree sampleKallsyms
    (fun k => k % 3) (fun k => k % 5) [0x0fff, 0x2008, 0x4000] (by decide) (by decide +kernel)
    (by decide +kernel)
  refine ⟨?_, table, htable, ?_⟩
  · rw [hsparse, hfound]
  · rw [hfind, hview]

end StackPulse.KallsymsLookup
