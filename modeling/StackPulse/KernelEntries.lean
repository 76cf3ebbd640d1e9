import StackPulse.ContextFacts
import StackPulse.Kallsyms

/-!
The symbols that the filter of kallsyms includes, in the order of the file. The list
of symbols is made of them, and a lookup in it finds the one with the largest
address up to the requested one, the last one among aliases.
-/
namespace StackPulse.KernelEntries

open ContextFacts StableSort TextLines Kallsyms

/-- An included symbol with the line that it stands in. -/
structure Entry where
  address : ℕ
  name : KernelSymbolMetadata
  line : List UInt8
  deriving DecidableEq, Repr

def Entry.symbol (e : Entry) : KernelSymbol := kernelSymbolFromName e.address e.name

/-- What a line means for a scan that has seen the given text anchor. -/
inductive LineKind
  | skip (textAddr : Option ℕ)
  | restricted
  | entry (textAddr : Option ℕ) (e : Entry)

def classify (textAddr : Option ℕ) (line : List UInt8) : LineKind :=
  match parseKernelSymbolLineBytes line with
  | none => .skip textAddr
  | some (address, name) =>
      if isRestrictedKernelText address name then .restricted
      else
        match shouldIncludeKernelSymbol textAddr address name with
        | (false, textAddr) => .skip textAddr
        | (true, textAddr) => .entry textAddr ⟨address, name, line⟩

/-- The included symbols of some lines, up to one that shows the table as restricted,
and whether there is such a line. -/
def scanLines : Option ℕ → List (List UInt8) → List Entry × Bool
  | _, [] => ([], false)
  | textAddr, line :: lines =>
      match classify textAddr line with
      | .skip textAddr => scanLines textAddr lines
      | .restricted => ([], true)
      | .entry textAddr e => (e :: (scanLines textAddr lines).1, (scanLines textAddr lines).2)

/-- The scan of a whole file. -/
def scanned (data : List UInt8) : List Entry × Bool :=
  scanLines none (splitInclusive newline data)

/-- The symbols of a file; a restricted one has none. -/
def includedEntries (data : List UInt8) : List Entry :=
  if (scanned data).2 then [] else (scanned data).1

theorem parse_of_classify {textAddr textAddr' : Option ℕ} {line : List UInt8} {e : Entry}
    (h : classify textAddr line = .entry textAddr' e) :
    e.line = line ∧ parseKernelSymbolLineBytes e.line = some (e.address, e.name) := by
  unfold classify at h
  split at h
  · cases h
  · rename_i address name hparse
    split at h
    · cases h
    · split at h
      · cases h
      · cases h
        exact ⟨rfl, hparse⟩

theorem parse_of_mem_scanLines {textAddr : Option ℕ} {lines : List (List UInt8)} {e : Entry}
    (h : e ∈ (scanLines textAddr lines).1) :
    parseKernelSymbolLineBytes e.line = some (e.address, e.name) := by
  induction lines generalizing textAddr with
  | nil => exact absurd h List.not_mem_nil
  | cons line lines ih =>
    unfold scanLines at h
    split at h
    · exact ih h
    · exact absurd h List.not_mem_nil
    · rename_i textAddr' e' hkind
      rcases List.mem_cons.mp h with rfl | h
      · exact (parse_of_classify hkind).2
      · exact ih h

theorem parseKernelSymbolsLoop_cons (textAddr : Option ℕ) (symbols : List KernelSymbol)
    (line : List UInt8) (lines : List (List UInt8)) :
    parseKernelSymbolsLoop textAddr symbols (line :: lines) =
      match classify textAddr line with
      | .skip textAddr => parseKernelSymbolsLoop textAddr symbols lines
      | .restricted => none
      | .entry textAddr e => parseKernelSymbolsLoop textAddr (symbols ++ [e.symbol]) lines := by
  conv_lhs => unfold parseKernelSymbolsLoop
  unfold classify
  rcases hparse : parseKernelSymbolLineBytes line with _ | ⟨address, name⟩
  · rfl
  · by_cases hrestricted : isRestrictedKernelText address name = true
    · simp only [if_pos hrestricted]
    · simp only [if_neg hrestricted]
      rcases shouldIncludeKernelSymbol textAddr address name with ⟨_ | _, textAddr'⟩
      · rfl
      · rfl

theorem parseKernelSymbolsLoop_eq (textAddr : Option ℕ) (symbols : List KernelSymbol)
    (lines : List (List UInt8)) :
    parseKernelSymbolsLoop textAddr symbols lines =
      if (scanLines textAddr lines).2 then none
      else some (symbols ++ (scanLines textAddr lines).1.map Entry.symbol) := by
  induction lines generalizing textAddr symbols with
  | nil =>
    show some symbols = some (symbols ++ [])
    rw [List.append_nil]
  | cons line lines ih =>
    rw [parseKernelSymbolsLoop_cons]
    unfold scanLines
    rcases classify textAddr line with textAddr' | _ | ⟨textAddr', e⟩
    · exact ih textAddr' symbols
    · rfl
    · show parseKernelSymbolsLoop textAddr' (symbols ++ [e.symbol]) lines = _
      rw [ih, List.append_assoc]
      rfl

section

variable {α : Type} (key : α → ℕ)

theorem getLast?_keepLast (l : List α) : (keepLast key l).getLast? = l.getLast? := by
  induction l with
  | nil => rfl
  | cons a l ih =>
    cases l with
    | nil => rfl
    | cons b l =>
      unfold keepLast
      split
      · rw [ih, List.getLast?_cons_cons]
      · have hne : keepLast key (b :: l) ≠ [] := by
          intro hnil
          rw [hnil] at ih
          have hsome := List.getLast?_isSome.mpr (List.cons_ne_nil b l)
          rw [← ih] at hsome
          cases hsome
        rw [List.getLast?_cons, ih, List.getLast?_cons_cons]
        obtain ⟨c, hc⟩ := Option.isSome_iff_exists.mp
          (List.getLast?_isSome.mpr (List.cons_ne_nil b l))
        rw [hc]
        rfl

/-- Entries with one address are either all up to a bound or all behind it. -/
theorem takeWhile_keepLast (address : ℕ) (l : List α) :
    (keepLast key l).takeWhile (fun a => decide (key a ≤ address)) =
      keepLast key (l.takeWhile fun a => decide (key a ≤ address)) := by
  induction l with
  | nil => rfl
  | cons a l ih =>
    cases l with
    | nil =>
      show List.takeWhile _ [a] = keepLast key (List.takeWhile _ [a])
      rw [List.takeWhile_cons]
      split <;> rfl
    | cons b l =>
      by_cases hsame : key b = key a
      · have hkeep : ∀ l, keepLast key (a :: b :: l) = keepLast key (b :: l) :=
          fun _ => if_pos hsame
        rw [hkeep, ih]
        by_cases hle : key a ≤ address
        · simp [hsame, hle, hkeep]
        · simp [hsame, hle]
      · have hkeep : ∀ l, keepLast key (a :: b :: l) = a :: keepLast key (b :: l) :=
          fun _ => if_neg hsame
        rw [hkeep]
        by_cases hle : key a ≤ address
        · rw [List.takeWhile_cons_of_pos (by simpa using hle), ih,
            List.takeWhile_cons_of_pos (a := a) (by simpa using hle), List.takeWhile_cons]
          split
          · exact (hkeep _).symm
          · rfl
        · simp [hle, keepLast]

/-- The lookup in a sorted table without aliases finds the winner of the symbols. -/
theorem findByAddress_eq (l : List α) (address : ℕ) :
    findByAddress key (sortAndKeepLastAlias key l) address =
      latest key (fun a => decide (key a ≤ address)) l := by
  have hsorted := sorted_sortByKey key l
  unfold findByAddress sortAndKeepLastAlias
  rw [take_partitionPoint, takeWhile_keepLast, getLast?_keepLast, ← find?_sortByKey_eq_latest]
  generalize sortByKey key l = sorted at hsorted
  have hafter : (sorted.dropWhile fun a => decide (key a ≤ address)).reverse.find?
      (fun a => decide (key a ≤ address)) = none := by
    rw [List.find?_eq_none]
    intro a ha hle
    rw [decide_eq_true_eq] at hle
    exact absurd hle (not_le.mpr (lt_of_mem_dropWhile key hsorted (List.mem_reverse.mp ha)))
  conv_rhs =>
    rw [← List.takeWhile_append_dropWhile (p := fun a => decide (key a ≤ address)) (l := sorted)]
  rw [List.reverse_append, List.find?_append, hafter, Option.none_or]
  rcases List.eq_nil_or_concat (sorted.takeWhile fun a => decide (key a ≤ address)) with
    hnil | ⟨front, a, hlast⟩
  · rw [hnil]
    rfl
  · have hle : decide (key a ≤ address) = true := by
      have hmem : a ∈ sorted.takeWhile fun a => decide (key a ≤ address) := by
        rw [hlast, List.concat_eq_append]
        exact List.mem_append_right _ (List.mem_singleton_self a)
      simpa using List.mem_takeWhile_imp hmem
    rw [hlast, List.concat_eq_append, List.getLast?_append, List.reverse_append]
    show some a = List.find? _ (a :: front.reverse)
    rw [List.find?_cons, hle]

end

/-- The entry that answers a lookup. -/
def nearest (entries : List Entry) (address : ℕ) : Option Entry :=
  latest Entry.address (fun e => decide (e.address ≤ address)) entries

theorem findKernelSymbol_eq (data : List UInt8) (address : ℕ) :
    findKernelSymbol (parseKernelSymbols data) address =
      (nearest (includedEntries data) address).map Entry.symbol := by
  unfold parseKernelSymbols includedEntries findKernelSymbol
  rw [parseKernelSymbolsLoop_eq]
  have hscanned : scanLines none (splitInclusive newline data) = scanned data := rfl
  rw [hscanned]
  by_cases hrestricted : (scanned data).2 = true
  · rw [if_pos hrestricted, if_pos hrestricted]
    rfl
  · rw [if_neg hrestricted, if_neg hrestricted, List.nil_append]
    show findByAddress _ (sortAndKeepLastAlias _ ((scanned data).1.map Entry.symbol)) _ = _
    rw [findByAddress_eq, latest_map]
    rfl

end StackPulse.KernelEntries
