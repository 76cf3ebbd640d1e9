import StackPulse.ContextFacts
import StackPulse.PerfMaps
import Mathlib.Data.List.Find

/-!
Reloading a perf map and looking up addresses in it. A map that was loaded in
steps is the map of a fresh load, and the lookup returns the entry with the
largest start that covers the address, the latest one in the file among several.
-/
namespace StackPulse.PerfMapReload

open ContextFacts StableSort TextLines PerfMaps

variable {previous : Option PerfMap} {complete rest : List UInt8}

/-- Bytes that end with a newline, if there are any. -/
def EndsLine (bytes : List UInt8) : Prop := bytes = [] ∨ bytes.getLast? = some newline

theorem completeLen_of_notMem {bytes : List UInt8} (h : newline ∉ bytes) :
    completeLen bytes = 0 := by
  have hnone : bytes.reverse.findIdx? (· = newline) = none := by
    rw [List.findIdx?_eq_none_iff]
    intro b hb
    exact decide_eq_false fun heq => h (heq ▸ List.mem_reverse.mp hb)
  unfold completeLen
  rw [hnone]

theorem completeLen_of_last {front back : List UInt8} (h : newline ∉ back) :
    completeLen (front ++ newline :: back) = front.length + 1 := by
  have hfind : (front ++ newline :: back).reverse.findIdx? (· = newline) = some back.length := by
    rw [List.reverse_append, List.reverse_cons, List.append_assoc, List.findIdx?_append]
    have hnone : back.reverse.findIdx? (· = newline) = none := by
      rw [List.findIdx?_eq_none_iff]
      intro b hb
      exact decide_eq_false fun heq => h (heq ▸ List.mem_reverse.mp hb)
    rw [hnone, Option.none_or, List.singleton_append, List.findIdx?_cons, List.length_reverse]
    simp
  unfold completeLen
  rw [hfind]
  show (front ++ newline :: back).length - back.length = front.length + 1
  rw [List.length_append, List.length_cons]
  omega

/-- A file is its complete lines and a rest without a newline. -/
theorem exists_parts (bytes : List UInt8) :
    ∃ complete rest, bytes = complete ++ rest ∧ EndsLine complete ∧ newline ∉ rest := by
  by_cases h : newline ∈ bytes
  · obtain ⟨back, front, heq, hback⟩ := List.eq_append_cons_of_mem (List.mem_reverse.mpr h)
    refine ⟨front.reverse ++ [newline], back.reverse, ?_, .inr ?_, ?_⟩
    · rw [← List.reverse_reverse bytes, heq, List.reverse_append, List.reverse_cons]
    · rw [List.getLast?_append]
      rfl
    · exact fun hmem => hback (List.mem_reverse.mp hmem)
  · exact ⟨[], bytes, rfl, .inl rfl, h⟩

theorem completeLen_append (hcomplete : EndsLine complete) (hrest : newline ∉ rest) :
    completeLen (complete ++ rest) = complete.length := by
  rcases hcomplete with rfl | hlast
  · exact completeLen_of_notMem hrest
  · obtain ⟨front, rfl⟩ := List.getLast?_eq_some_iff.mp hlast
    rw [List.append_assoc, List.singleton_append, completeLen_of_last hrest, List.length_append]
    rfl

theorem EndsLine.append {text : List UInt8} (htext : EndsLine text)
    (hcomplete : EndsLine complete) : EndsLine (text ++ complete) := by
  rcases hcomplete with rfl | hlast
  · rw [List.append_nil]
    exact htext
  · refine .inr ?_
    rw [List.getLast?_append, hlast]
    rfl

/-- The parsed lines of a file, in their order. -/
def fileSymbols (bytes : List UInt8) : List PerfMapSymbol :=
  (textLines (decodeLossy bytes)).filterMap parsePerfMapLine

theorem fileSymbols_append (h : EndsLine complete) (rest : List UInt8) :
    fileSymbols (complete ++ rest) = fileSymbols complete ++ fileSymbols rest := by
  unfold fileSymbols
  rw [textLines_decodeLossy h, List.filterMap_append]

/-- The symbol of a line that is not terminated. -/
def lastSymbol (rest : List UInt8) : Option PerfMapSymbol :=
  (textLines (decodeLossy rest)).findSome? parsePerfMapLine

theorem fileSymbols_of_notMem (h : newline ∉ rest) :
    fileSymbols rest = (lastSymbol rest).toList := by
  unfold fileSymbols lastSymbol
  rw [textLines_of_notMem h]
  by_cases hnil : rest = []
  · rw [if_pos hnil]
    rfl
  · rw [if_neg hnil]
    rcases hparse : parsePerfMapLine (decodeLossy rest) with _ | symbol
    · rw [List.filterMap_cons_none hparse, List.findSome?_cons, hparse]
      rfl
    · rw [List.filterMap_cons_some hparse, List.findSome?_cons, hparse]
      rfl

/-- The map that a fresh load makes of a file in the given parts. -/
def freshMap (path : List Char) (complete rest : List UInt8) (reloadable : Bool) : PerfMap :=
  new (fileSymbols complete ++ (lastSymbol rest).toList) path
    (if reloadable then some ⟨complete, (lastSymbol rest).map PerfMapSymbol.start⟩ else none)

/-- Loading what comes after the lines that `reuse` has found. -/
theorem load_of_reuse {path : List Char} (text : List UInt8) {appended : List UInt8}
    {symbols : List PerfMapSymbol} {reloadable : Bool}
    (hreuse : reuse previous (text ++ (appended ++ rest)) = (symbols, text.length))
    (hsymbols : symbols = sortByKey PerfMapSymbol.start (fileSymbols text)) (htext : EndsLine text)
    (happended : EndsLine appended) (hrest : newline ∉ rest)
    (hsize : ¬MAX_PERF_MAP_SIZE < (text ++ (appended ++ rest)).length) :
    loadPerfMap path (some (text ++ (appended ++ rest))) previous reloadable =
      some (freshMap path (text ++ appended) rest reloadable) := by
  have hlen := completeLen_append happended hrest
  have hparsed : (text ++ (appended ++ rest)).take (text.length + appended.length) =
      text ++ appended := by
    rw [← List.append_assoc, ← List.length_append, List.take_left]
  have hsorted : ∀ parsed, new (symbols ++ fileSymbols appended ++ (lastSymbol rest).toList) path
      parsed = new (fileSymbols (text ++ appended) ++ (lastSymbol rest).toList) path parsed := by
    intro parsed
    unfold new
    rw [hsymbols, fileSymbols_append htext, List.append_assoc, sortByKey_append,
      ← List.append_assoc]
  unfold loadPerfMap
  simp only [if_neg hsize, hreuse, List.drop_left, hlen, List.take_left, hparsed]
  exact congrArg some (hsorted _)

/-- What a reload finds of a map that was loaded before: the sorted symbols of the
lines that are still there. -/
theorem reuse_eq (path : List Char) (complete rest : List UInt8) (reloadable : Bool)
    (bytes : List UInt8) :
    reuse (some (freshMap path complete rest reloadable)) bytes =
      if reloadable ∧ complete.isPrefixOf bytes then
        (sortByKey PerfMapSymbol.start (fileSymbols complete), complete.length)
      else ([], 0) := by
  cases reloadable with
  | false => rfl
  | true =>
    show (if complete.isPrefixOf bytes = true then _ else _) = _
    by_cases hstart : complete.isPrefixOf bytes = true
    · rw [if_pos hstart, if_pos ⟨rfl, hstart⟩]
      rcases hlast : lastSymbol rest with _ | symbol
      · show (sortByKey PerfMapSymbol.start (fileSymbols complete ++ []), complete.length) = _
        rw [List.append_nil]
      · exact congrArg (·, complete.length)
          (eraseIdx_sortByKey PerfMapSymbol.start (fileSymbols complete) symbol)
    · rw [if_neg hstart, if_neg fun h => hstart h.2]

/-- A load does not depend on an earlier load. -/
theorem load_eq_fresh (path : List Char) (file : Option (List UInt8)) (reloadable : Bool)
    (hprevious : previous = none ∨ ∃ path' complete rest reloadable', EndsLine complete ∧
      previous = some (freshMap path' complete rest reloadable')) :
    loadPerfMap path file previous reloadable = loadPerfMap path file none reloadable ∧
      (loadPerfMap path file none reloadable = none ∨ ∃ complete rest, EndsLine complete ∧
        newline ∉ rest ∧ file = some (complete ++ rest) ∧
        loadPerfMap path file none reloadable = some (freshMap path complete rest reloadable)) := by
  rcases file with _ | bytes
  · exact ⟨rfl, .inl rfl⟩
  by_cases hsize : MAX_PERF_MAP_SIZE < bytes.length
  · have htoo : ∀ previous, loadPerfMap path (some bytes) previous reloadable = none :=
      fun previous => if_pos hsize
    rw [htoo, htoo]
    exact ⟨rfl, .inl rfl⟩
  obtain ⟨complete, rest, rfl, hcomplete, hrest⟩ := exists_parts bytes
  have hnothing : ∀ previous, reuse previous (complete ++ rest) = ([], 0) →
      loadPerfMap path (some (complete ++ rest)) previous reloadable =
        some (freshMap path complete rest reloadable) := fun previous hreuse =>
    load_of_reuse [] hreuse rfl (.inl rfl) hcomplete hrest hsize
  have hfresh := hnothing none rfl
  refine ⟨?_, .inr ⟨complete, rest, hcomplete, hrest, rfl, hfresh⟩⟩
  rw [hfresh]
  rcases hprevious with rfl | ⟨path', text, rest', reloadable', htext, rfl⟩
  · exact hfresh
  have hreuse := reuse_eq path' text rest' reloadable' (complete ++ rest)
  by_cases hkept : reloadable' = true ∧ text.isPrefixOf (complete ++ rest) = true
  · rw [if_pos hkept] at hreuse
    -- the file is the lines known before, more complete lines, and a rest
    obtain ⟨more, hmore⟩ := List.isPrefixOf_iff_prefix.mp hkept.2
    obtain ⟨appended, rest'', rfl, happended, hrest''⟩ := exists_parts more
    rw [← hmore] at hreuse hsize ⊢
    rw [load_of_reuse text hreuse rfl htext happended hrest'' hsize]
    have hcut : (text ++ appended).length = complete.length := by
      have hlen := completeLen_append hcomplete hrest
      rw [← hmore, ← List.append_assoc,
        completeLen_append (htext.append happended) hrest''] at hlen
      exact hlen
    rw [← List.append_assoc] at hmore
    obtain ⟨hleft, hright⟩ := List.append_inj hmore hcut
    rw [hleft, hright]
  · rw [if_neg hkept] at hreuse
    exact hnothing _ hreuse

theorem runningMax_take (largest : ℕ) (symbols : List PerfMapSymbol) (n : ℕ) :
    (runningMax largest symbols).take n = runningMax largest (symbols.take n) := by
  induction symbols generalizing largest n with
  | nil => rw [List.take_nil, runningMax, List.take_nil]
  | cons symbol symbols ih =>
    cases n with
    | zero => rfl
    | succ n =>
      show max symbol.stop largest :: (runningMax _ symbols).take n = _
      rw [ih]
      rfl

theorem le_of_mem_runningMax {largest : ℕ} {symbols : List PerfMapSymbol} {m : ℕ}
    (h : m ∈ runningMax largest symbols) : largest ≤ m := by
  induction symbols generalizing largest with
  | nil => exact absurd h List.not_mem_nil
  | cons symbol symbols ih =>
    rcases List.mem_cons.mp h with rfl | h
    · exact le_max_right _ _
    · exact (le_max_right _ _).trans (ih h)

/-- The maximum at a symbol bounds its end and those of all symbols before it. -/
theorem bounds_runningMax (largest : ℕ) (symbols : List PerfMapSymbol) :
    ((symbols.zip (runningMax largest symbols)).Pairwise fun d e => d.1.stop ≤ e.2) ∧
      (∀ e ∈ symbols.zip (runningMax largest symbols), e.1.stop ≤ e.2) ∧
      (symbols.zip (runningMax largest symbols)).map Prod.fst = symbols := by
  induction symbols generalizing largest with
  | nil => exact ⟨List.Pairwise.nil, fun e he => absurd he List.not_mem_nil, rfl⟩
  | cons symbol symbols ih =>
    obtain ⟨hpairs, hown, hmap⟩ := ih (max symbol.stop largest)
    refine ⟨List.pairwise_cons.mpr ⟨fun e he => ?_, hpairs⟩, fun e he => ?_,
      congrArg (symbol :: ·) hmap⟩
    · exact (le_max_left _ _).trans (le_of_mem_runningMax (List.of_mem_zip he).2)
    · rcases List.mem_cons.mp he with rfl | he
      · exact le_max_left _ _
      · exact hown e he

/-- Stopping at a bound that the address has passed loses nothing. -/
theorem find?_takeWhile (address : ℕ) {entries : List (PerfMapSymbol × ℕ)}
    (hpairs : entries.Pairwise fun e d => d.1.stop ≤ e.2) (hown : ∀ e ∈ entries, e.1.stop ≤ e.2) :
    ((entries.takeWhile fun e => decide (address < e.2)).find? fun e =>
        decide (address < e.1.stop)) =
      entries.find? fun e => decide (address < e.1.stop) := by
  induction entries with
  | nil => rfl
  | cons e entries ih =>
    by_cases hbound : address < e.2
    · rw [List.takeWhile_cons_of_pos (by simpa using hbound), List.find?_cons, List.find?_cons,
        ih hpairs.of_cons fun d hd => hown d (List.mem_cons_of_mem e hd)]
    · rw [List.takeWhile_cons_of_neg (by simpa using hbound)]
      symm
      rw [List.find?_nil, List.find?_eq_none]
      intro d hd
      have hstop : d.1.stop ≤ e.2 := by
        rcases List.mem_cons.mp hd with rfl | hd
        · exact hown d (.head _)
        · exact (List.pairwise_cons.mp hpairs).1 d hd
      simp only [decide_eq_true_eq, not_lt]
      omega

def covers (address : ℕ) (symbol : PerfMapSymbol) : Bool :=
  symbol.start ≤ address && address < symbol.stop

/-- The lookup in a map is a search from its end. -/
theorem findPerfMapSymbol_new (symbols : List PerfMapSymbol) (path : List Char)
    (parsed : Option ParsedPerfMapText) (address : ℕ) :
    findPerfMapSymbol (new symbols path parsed) address =
      ((sortByKey PerfMapSymbol.start symbols).reverse.find? (covers address)).map (·, path) := by
  have hsorted := sorted_sortByKey PerfMapSymbol.start symbols
  unfold findPerfMapSymbol new
  dsimp only
  generalize sortByKey PerfMapSymbol.start symbols = sorted at hsorted ⊢
  rw [runningMax_take, take_partitionPoint]
  obtain ⟨hpairs, hown, hmap⟩ := bounds_runningMax 0
    (sorted.takeWhile fun symbol => decide (symbol.start ≤ address))
  rw [find?_takeWhile address (List.pairwise_reverse.mpr hpairs)
    fun e he => hown e (List.mem_reverse.mp he)]
  -- behind the candidates nothing starts at or before the address
  have hafter : (sorted.dropWhile fun symbol => decide (symbol.start ≤ address)).reverse.find?
      (covers address) = none := by
    rw [List.find?_eq_none]
    intro symbol hsymbol hcovers
    have hlt := lt_of_mem_dropWhile PerfMapSymbol.start hsorted (List.mem_reverse.mp hsymbol)
    have hle : symbol.start ≤ address := by
      unfold covers at hcovers
      rw [Bool.and_eq_true, decide_eq_true_eq] at hcovers
      exact hcovers.1
    exact absurd hle (not_le.mpr hlt)
  have hwhole : sorted.reverse.find? (covers address) =
      (sorted.takeWhile fun symbol => decide (symbol.start ≤ address)).reverse.find?
        (covers address) := by
    conv_lhs =>
      rw [← List.takeWhile_append_dropWhile (p := fun symbol => decide (symbol.start ≤ address))
        (l := sorted)]
    rw [List.reverse_append, List.find?_append, hafter, Option.none_or]
  have hcandidates : (sorted.takeWhile fun symbol => decide (symbol.start ≤ address)).reverse.find?
      (covers address) =
      (sorted.takeWhile fun symbol => decide (symbol.start ≤ address)).reverse.find?
        fun symbol => decide (address < symbol.stop) := by
    apply List.find?_congr
    intro symbol hsymbol
    have hle := List.mem_takeWhile_imp (List.mem_reverse.mp hsymbol)
    unfold covers
    rw [hle, Bool.true_and]
  rw [hwhole, hcandidates]
  conv_rhs => rw [← hmap]
  rw [← List.map_reverse, List.find?_map, Option.map_map]
  rfl

/-- The maps of a sequence of loads, each of which is given the map before it. -/
def loads (path : List Char) : Option PerfMap → List (Option (List UInt8) × Bool) →
    List (Option PerfMap)
  | _, [] => []
  | previous, (file, reloadable) :: rest =>
      let map := loadPerfMap path file previous reloadable
      map :: loads path map rest

theorem loads_eq_fresh (path : List Char) (inputs : List (Option (List UInt8) × Bool))
    (hprevious : previous = none ∨ ∃ path' complete rest reloadable', EndsLine complete ∧
      previous = some (freshMap path' complete rest reloadable')) :
    loads path previous inputs = inputs.map fun input => loadPerfMap path input.1 none input.2 := by
  induction inputs generalizing previous with
  | nil => rfl
  | cons input inputs ih =>
    obtain ⟨file, reloadable⟩ := input
    obtain ⟨heq, hmap⟩ := load_eq_fresh path file reloadable hprevious
    show loadPerfMap path file previous reloadable ::
      loads path (loadPerfMap path file previous reloadable) inputs = _
    rw [heq, List.map_cons]
    refine congrArg _ (ih ?_)
    rcases hmap with hnone | ⟨complete, rest, hcomplete, _, _, hsome⟩
    · exact .inl hnone
    · exact .inr ⟨path, complete, rest, reloadable, hcomplete, hsome⟩

/-- What the lookup of an address has to return, for the parsed lines of a file. -/
def LookupCorrect (path : List Char) (lines : List PerfMapSymbol) (address : ℕ) :
    Option (PerfMapSymbol × List Char) → Prop
  | none => ∀ symbol ∈ lines, covers address symbol = false
  | some (symbol, module) =>
      module = path ∧ ∃ i, Winner PerfMapSymbol.start (covers address) lines i symbol

theorem findPerfMapSymbol_correct (symbols : List PerfMapSymbol) (path : List Char)
    (parsed : Option ParsedPerfMapText) (address : ℕ) :
    LookupCorrect path symbols address (findPerfMapSymbol (new symbols path parsed) address) := by
  rw [findPerfMapSymbol_new, find?_sortByKey_eq_latest]
  have hfound := latest_spec PerfMapSymbol.start (covers address) symbols
  rcases hresult : latest PerfMapSymbol.start (covers address) symbols with _ | symbol
  · rw [hresult] at hfound
    exact hfound
  · rw [hresult] at hfound
    exact ⟨rfl, hfound⟩

/-- Each load of a sequence gives the map of a fresh load, and in a map that is
loaded every address finds the line with the largest start that covers it, the
latest one in the file among several. -/
theorem reloaded_perf_map_is_fresh (path : List Char)
    (inputs : List (Option (List UInt8) × Bool)) :
    (loads path none inputs = inputs.map fun input => loadPerfMap path input.1 none input.2) ∧
      ∀ bytes reloadable map, loadPerfMap path (some bytes) none reloadable = some map →
        ∀ address, LookupCorrect path (fileSymbols bytes) address
          (findPerfMapSymbol map address) := by
  refine ⟨loads_eq_fresh path inputs (.inl rfl), fun bytes reloadable map hload address => ?_⟩
  obtain ⟨_, hmap⟩ := load_eq_fresh path (some bytes) reloadable (.inl rfl)
  rw [hload] at hmap
  rcases hmap with hnone | ⟨complete, rest, hcomplete, hrest, hfile, hfresh⟩
  · cases hnone
  · cases hfile
    cases hfresh
    rw [fileSymbols_append hcomplete, fileSymbols_of_notMem hrest]
    exact findPerfMapSymbol_correct _ path _ address

/-- The bytes of a text. -/
def bytesOf (text : String) : List UInt8 := text.toUTF8.toList

/-- An unterminated line is completed, and the file is then rewritten. Two lines
start at the same address. -/
theorem reloaded_perf_map_is_fresh_rewritten :
    loads [] none [(some (bytesOf "1000 10 a\n2000 10 na"), true),
        (some (bytesOf "1000 10 a\n2000 10 name\n1000 20 b"), true),
        (some (bytesOf "3000 10 c\n"), true)] =
      [loadPerfMap [] (some (bytesOf "1000 10 a\n2000 10 na")) none true,
        loadPerfMap [] (some (bytesOf "1000 10 a\n2000 10 name\n1000 20 b")) none true,
        loadPerfMap [] (some (bytesOf "3000 10 c\n")) none true] ∧
    ∃ map, loadPerfMap [] (some (bytesOf "1000 10 a\n2000 10 name\n1000 20 b")) none true =
        some map ∧
      findPerfMapSymbol map 0x1008 = some (⟨0x1000, 0x1020, .native ['b']⟩, []) ∧
      LookupCorrect [] (fileSymbols (bytesOf "1000 10 a\n2000 10 name\n1000 20 b")) 0x1008
        (findPerfMapSymbol map 0x1008) := by
  refine ⟨(reloaded_perf_map_is_fresh [] _).1, ?_⟩
  have hload : (loadPerfMap [] (some (bytesOf "1000 10 a\n2000 10 name\n1000 20 b")) none
      true).map (fun map => findPerfMapSymbol map 0x1008) =
      some (some (⟨0x1000, 0x1020, .native ['b']⟩, [])) := by decide +kernel
  obtain ⟨map, hmap, hfind⟩ := Option.map_eq_some_iff.mp hload
  exact ⟨map, hmap, hfind, (reloaded_perf_map_is_fresh [] []).2 _ true map hmap 0x1008⟩

end StackPulse.PerfMapReload
