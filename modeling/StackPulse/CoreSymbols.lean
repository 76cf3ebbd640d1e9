import StackPulse.KernelEntries

/-!
Core kernel symbols and the lines of loadable modules. The filter of kallsyms
takes its text anchor from the first line that names the start of the kernel
text. When that line is a core one, the module lines around the core lines decide
neither which core symbols are included nor which of them a lookup finds.
-/
namespace StackPulse.CoreSymbols

open StableSort TextLines Kallsyms KernelEntries

abbrev Line := ℕ × KernelSymbolMetadata

/-- The lines of the file that `KallSymIter` yields. -/
def parsedLines (data : List UInt8) : List Line :=
  (splitInclusive newline data).filterMap parseKernelSymbolLineBytes

def Line.isCore (line : Line) : Bool := line.2.module.isNone

def Line.symbol (line : Line) : KernelSymbol := kernelSymbolFromName line.1 line.2

/-- The line sets the text anchor if it is not set before. -/
def Line.anchors (line : Line) : Bool := (shouldIncludeKernelSymbol none line.1 line.2).2.isSome

/-- The included lines, or none at all if one shows the table as restricted. -/
def included : Option ℕ → List Line → Option (List Line)
  | _, [] => some []
  | textAddr, line :: lines =>
      if isRestrictedKernelText line.1 line.2 then none
      else (included (shouldIncludeKernelSymbol textAddr line.1 line.2).2 lines).map fun rest =>
        if (shouldIncludeKernelSymbol textAddr line.1 line.2).1 then line :: rest else rest

variable {data : List UInt8} {lines : List Line} {textAddr : Option ℕ}

theorem parseKernelSymbolsLoop_eq_included (symbols : List KernelSymbol)
    (raw : List (List UInt8)) : parseKernelSymbolsLoop textAddr symbols raw =
      (included textAddr (raw.filterMap parseKernelSymbolLineBytes)).map fun lines =>
        symbols ++ lines.map Line.symbol := by
  induction raw generalizing textAddr symbols with
  | nil => simp [parseKernelSymbolsLoop, included]
  | cons line raw ih =>
    unfold parseKernelSymbolsLoop
    rcases hparse : parseKernelSymbolLineBytes line with _ | ⟨address, name⟩
    · rw [List.filterMap_cons_none hparse]
      exact ih symbols
    · rw [List.filterMap_cons_some hparse]
      unfold included
      simp only [ih]
      split
      · rfl
      · rcases shouldIncludeKernelSymbol textAddr address name with ⟨_ | _, textAddr'⟩
        · simp
        · simp [Function.comp_def, Line.symbol]

/-- The symbols before they are sorted. -/
def symbols (data : List UInt8) : List KernelSymbol :=
  ((included none (parsedLines data)).getD []).map Line.symbol

theorem parseKernelSymbols_eq (data : List UInt8) :
    parseKernelSymbols data = sortAndKeepLastAlias KernelSymbol.address (symbols data) := by
  unfold parseKernelSymbols symbols parsedLines
  rw [parseKernelSymbolsLoop_eq_included]
  cases included none ((splitInclusive newline data).filterMap parseKernelSymbolLineBytes) with
  | none => rfl
  | some lines => rfl

theorem anchor_of_set {anchor address : ℕ} {name : KernelSymbolMetadata} :
    (shouldIncludeKernelSymbol (some anchor) address name).2 = some anchor := by
  unfold shouldIncludeKernelSymbol
  split <;> rfl

/-- The line that sets the anchor, if there is one, is of the core kernel. -/
def CoreAnchor (lines : List Line) : Prop := (lines.find? Line.anchors).all Line.isCore = true

instance (lines : List Line) : Decidable (CoreAnchor lines) :=
  inferInstanceAs (Decidable (_ = true))

/-- Module lines have no part in which core lines are included. -/
theorem included_filter (h : textAddr.isSome ∨ CoreAnchor lines) :
    (included textAddr lines).map (List.filter Line.isCore) =
      included textAddr (lines.filter Line.isCore) := by
  induction lines generalizing textAddr with
  | nil => rfl
  | cons line lines ih =>
    have hnext : (shouldIncludeKernelSymbol textAddr line.1 line.2).2.isSome ∨
      CoreAnchor lines := by
      cases textAddr with
      | some anchor => exact .inl (by rw [anchor_of_set]; rfl)
      | none =>
        by_cases hanchor : line.anchors = true
        · exact .inl hanchor
        · have hcore := h.resolve_left Bool.false_ne_true
          rw [CoreAnchor, List.find?_cons_of_neg hanchor] at hcore
          exact .inr hcore
    by_cases hcore : line.isCore = true
    · rw [List.filter_cons_of_pos hcore]
      unfold included
      split
      · rfl
      · rw [← ih hnext, Option.map_map, Option.map_map]
        congr 1
        funext rest
        simp only [Function.comp_apply]
        split
        · exact List.filter_cons_of_pos hcore
        · rfl
    · have hmodule : line.2.module ≠ none :=
        fun hnone => hcore (Option.isNone_iff_eq_none.mpr hnone)
      have hopen : isRestrictedKernelText line.1 line.2 = false := by
        simp [isRestrictedKernelText, hmodule]
      have hsame : (shouldIncludeKernelSymbol textAddr line.1 line.2).2 = textAddr := by
        cases textAddr with
        | some anchor => exact anchor_of_set
        | none =>
          by_contra hset
          have hanchor : line.anchors = true := Option.isSome_iff_ne_none.mpr hset
          have hline := h.resolve_left Bool.false_ne_true
          rw [CoreAnchor, List.find?_cons_of_pos hanchor] at hline
          exact hcore hline
      rw [hsame] at hnext
      rw [List.filter_cons_of_neg hcore, ← ih hnext, included, if_neg (by simp [hopen]), hsame,
        Option.map_map]
      congr 1
      funext rest
      simp only [Function.comp_apply]
      split
      · exact List.filter_cons_of_neg hcore
      · rfl

/-- Of the symbols at one address the last one is kept. -/
theorem mem_keepLast {α : Type} {key : α → ℕ} {l : List α} (hl : SortedBy key l) {a : α} :
    a ∈ keepLast key l ↔ (withKey key (key a) l).getLast? = some a := by
  induction l with
  | nil => simp [keepLast, withKey]
  | cons b l ih =>
    have hkeys := List.pairwise_cons.mp hl
    specialize ih hkeys.2
    rw [withKey_cons]
    cases l with
    | nil =>
      by_cases heq : key b = key a
      · simp [keepLast, withKey, heq, eq_comm]
      · simpa [keepLast, withKey, heq] using fun h => heq (congrArg key h.symm)
    | cons c l =>
      unfold keepLast
      by_cases hsame : key c = key b
      · rw [if_pos hsame, ih]
        split
        · rename_i heq
          rw [withKey_cons, if_pos (hsame.trans heq), List.getLast?_cons_cons]
        · rfl
      · have hlater : ∀ d ∈ c :: l, key b < key d := by
          intro d hd
          have hle := hkeys.1 c (.head _)
          rcases List.mem_cons.mp hd with rfl | hd
          · omega
          · have hnext := (List.pairwise_cons.mp hkeys.2).1 d hd
            omega
        rw [if_neg hsame, List.mem_cons, ih]
        split
        · rename_i heq
          have hnone : withKey key (key a) (c :: l) = [] :=
            List.filter_eq_nil_iff.mpr fun d hd => by
              have := hlater d hd
              simp only [decide_eq_true_eq]
              omega
          simp [hnone, eq_comm]
        · rename_i hne
          exact or_iff_right fun h => hne (congrArg key h.symm)

theorem mem_parseKernelSymbols {symbol : KernelSymbol} : symbol ∈ parseKernelSymbols data ↔
      (withKey KernelSymbol.address symbol.address (symbols data)).getLast? = some symbol := by
  rw [parseKernelSymbols_eq, sortAndKeepLastAlias, mem_keepLast (sorted_sortByKey _ _),
    withKey_sortByKey]

def isCore (symbol : KernelSymbol) : Bool := symbol.module.isNone

theorem symbols_filter (hanchor : CoreAnchor (parsedLines data)) :
    (symbols data).filter isCore =
      ((included none ((parsedLines data).filter Line.isCore)).getD []).map Line.symbol := by
  have hcore : isCore ∘ Line.symbol = Line.isCore := by
    funext line
    exact Option.isNone_map
  unfold symbols
  rw [← included_filter (.inr hanchor), List.filter_map, hcore]
  cases included none (parsedLines data) <;> rfl

end StackPulse.CoreSymbols
