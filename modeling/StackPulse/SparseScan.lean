import StackPulse.KernelEntries

/-!
The one-pass scan of kallsyms for a sorted list of requests. The lines reach it
unchanged, however the reader cuts the file into buffers. Each bucket holds the
winner of its symbols, and a request sees the winner of all buckets up to its own.
-/
namespace StackPulse.SparseScan

open FrameContexts StableSort TextLines BufferedInput Kallsyms KernelEntries

/-- The request under which a symbol is kept: the first one at or above it. -/
def bucket (requested : List ℕ) (address : ℕ) : ℕ :=
  partitionPoint (fun r => decide (r < address)) requested

def place (requested : List ℕ) (best : List (Option (ℕ × List UInt8))) (e : Entry) :
    List (Option (ℕ × List UInt8)) :=
  match best[bucket requested e.address]? with
  | none => best
  | some old => best.set (bucket requested e.address)
      (SparseKernelSymbolScan.better old e.address e.line)

/-- All lines of a file, one after the other. -/
def processLines (scan : SparseKernelSymbolScan) (lines : List (List UInt8)) :
    Option SparseKernelSymbolScan :=
  lines.foldlM SparseKernelSymbolScan.processLine scan

theorem processLine_eq (scan : SparseKernelSymbolScan) (line : List UInt8) :
    scan.processLine line =
      match classify scan.textAddr line with
      | .skip textAddr => some { scan with textAddr := textAddr }
      | .restricted => none
      | .entry textAddr e => some { scan with
          textAddr := textAddr
          bestLines := place scan.requestedAddresses scan.bestLines e } := by
  unfold SparseKernelSymbolScan.processLine classify
  rcases hparse : parseKernelSymbolLineBytes line with _ | ⟨address, name⟩
  · rfl
  · by_cases hrestricted : isRestrictedKernelText address name = true
    · simp only [if_pos hrestricted]
    · simp only [if_neg hrestricted]
      rcases shouldIncludeKernelSymbol scan.textAddr address name with ⟨_ | _, textAddr'⟩
      · rfl
      · unfold place bucket
        simp only [if_true]
        rcases scan.bestLines[partitionPoint (fun r => decide (r < address))
          scan.requestedAddresses]? with _ | best
        · rfl
        · rfl

theorem processLines_eq (scan : SparseKernelSymbolScan) (lines : List (List UInt8)) :
    (processLines scan lines).map SparseKernelSymbolScan.finish =
      if (scanLines scan.textAddr lines).2 then none
      else some (SparseKernelSymbolScan.finishLoop none (scan.requestedAddresses.zip
        ((scanLines scan.textAddr lines).1.foldl (place scan.requestedAddresses)
          scan.bestLines))) := by
  induction lines generalizing scan with
  | nil => rfl
  | cons line lines ih =>
    show (scan.processLine line >>= fun scan => processLines scan lines).map _ = _
    rw [processLine_eq]
    unfold scanLines
    rcases classify scan.textAddr line with textAddr' | _ | ⟨textAddr', e⟩
    · exact ih { scan with textAddr := textAddr' }
    · rfl
    · exact ih { scan with
        textAddr := textAddr'
        bestLines := place scan.requestedAddresses scan.bestLines e }

/-- Scanning a buffer processes the lines that end in it; what is left without a
newline begins the next line. -/
theorem scanBuffer_spec {rounds : ℕ} {tail carry : List UInt8}
    (hrounds : tail.length < rounds) (hcarry : newline ∉ carry) :
    ∃ lines carry', newline ∉ carry' ∧
      (∀ rest, splitInclusive newline (carry ++ tail ++ rest) =
        lines ++ splitInclusive newline (carry' ++ rest)) ∧
      ∀ scan, scanBuffer rounds tail carry scan =
        (processLines scan lines).map (fun scan => (carry', scan)) := by
  induction rounds generalizing tail carry with
  | zero => exact absurd hrounds (Nat.not_lt_zero _)
  | succ rounds ih =>
    by_cases hnil : tail = []
    · refine ⟨[], carry, hcarry, fun rest => ?_, fun scan => if_pos hnil⟩
      rw [hnil, List.append_nil]
      rfl
    rcases findIdx?_cases newline tail with ⟨hnone, hfree⟩ | ⟨line, after, rfl, hline, hsome⟩
    · refine ⟨[], carry ++ tail, ?_, fun rest => rfl, fun scan => ?_⟩
      · exact fun hmem => (List.mem_append.mp hmem).elim hcarry hfree
      · unfold scanBuffer
        rw [if_neg hnil, hnone]
        rfl
    · have hshorter : after.length < rounds := by
        rw [List.length_append, List.length_cons] at hrounds
        omega
      obtain ⟨lines, carry', hcarry', hlines, hscan⟩ := ih hshorter List.not_mem_nil
      refine ⟨(carry ++ (line ++ [newline])) :: lines, carry', hcarry', fun rest => ?_,
        fun scan => ?_⟩
      · have hfirst := splitInclusive_first newline
          (fun hmem => (List.mem_append.mp hmem).elim hcarry hline) (after ++ rest)
        rw [List.cons_append, ← hlines, List.nil_append, ← List.append_assoc carry line [newline],
          ← hfirst]
        simp only [List.append_assoc, List.cons_append]
      · have htake : (line ++ newline :: after).take (line.length + 1) = line ++ [newline] := by
          rw [List.take_append, List.take_of_length_le (Nat.le_succ _), Nat.add_sub_cancel_left]
          rfl
        have hdrop : (line ++ newline :: after).drop (line.length + 1) = after := by
          rw [List.drop_append, List.drop_eq_nil_of_le (Nat.le_succ _), Nat.add_sub_cancel_left]
          rfl
        unfold scanBuffer processLines
        rw [if_neg hnil, hsome, List.foldlM_cons]
        simp only [htake, hdrop]
        rcases scan.processLine (carry ++ (line ++ [newline])) with _ | scan'
        · rfl
        · exact hscan scan'

/-- The streaming scan processes the lines of the file, however it is cut into
buffers. -/
theorem parseSparseLoop_eq (sizes : ℕ → ℕ) {rounds : ℕ} {r : Reader}
    (hrounds : r.rest.length < rounds) {carry : List UInt8} (hcarry : newline ∉ carry)
    (scan : SparseKernelSymbolScan) :
    parseSparseLoop sizes rounds r carry scan =
      .ok (((processLines scan (splitInclusive newline (carry ++ r.rest))).map
        SparseKernelSymbolScan.finish).getD []) := by
  induction rounds generalizing r carry scan with
  | zero => exact absurd hrounds (Nat.not_lt_zero _)
  | succ rounds ih =>
    unfold parseSparseLoop
    by_cases hend : r.rest = []
    · have hbuffer : fillBuf sizes r = [] := by
        unfold fillBuf
        rw [hend, List.take_nil]
      rw [hbuffer, hend, List.append_nil]
      simp only [if_true]
      by_cases hnil : carry = []
      · rw [if_pos hnil, hnil]
        rfl
      · rw [if_neg hnil, splitInclusive_of_notMem newline hcarry hnil]
        unfold processLines
        rw [List.foldlM_cons]
        rcases scan.processLine carry with _ | scan'
        · rfl
        · rfl
    · have hbuffer := fillBuf_ne_nil sizes hend
      obtain ⟨lines, carry', hcarry', hlines, hscan⟩ :=
        scanBuffer_spec (Nat.lt_succ_self (fillBuf sizes r).length) hcarry
      have hwhole := hlines (r.rest.drop (fillBuf sizes r).length)
      rw [List.append_assoc, fillBuf_append] at hwhole
      have hshorter : (consume r (fillBuf sizes r).length).rest.length < rounds := by
        have hpos := List.length_pos_iff.mpr hbuffer
        have hpos' := List.length_pos_iff.mpr hend
        show (r.rest.drop (fillBuf sizes r).length).length < rounds
        rw [List.length_drop]
        omega
      simp only [if_neg hbuffer, hscan, hwhole]
      unfold processLines
      rw [List.foldlM_append]
      rcases lines.foldlM SparseKernelSymbolScan.processLine scan with _ | scan'
      · rfl
      · exact ih hshorter hcarry' scan'

theorem bucket_mono (requested : List ℕ) {a b : ℕ} (h : a ≤ b) :
    bucket requested a ≤ bucket requested b := by
  unfold bucket partitionPoint
  induction requested with
  | nil => exact le_rfl
  | cons r requested ih =>
    by_cases ha : r < a
    · rw [List.takeWhile_cons_of_pos (by simpa using ha),
        List.takeWhile_cons_of_pos (by simpa using ha.trans_le h)]
      exact Nat.succ_le_succ ih
    · rw [List.takeWhile_cons_of_neg (by simpa using ha)]
      exact Nat.zero_le _

/-- A symbol is at or below a request when it is kept under it or an earlier one. -/
theorem bucket_le_iff {requested : List ℕ} (hsorted : requested.Pairwise (· < ·)) {i r : ℕ}
    (hr : requested[i]? = some r) (address : ℕ) :
    bucket requested address < i + 1 ↔ address ≤ r := by
  unfold bucket partitionPoint
  induction requested generalizing i with
  | nil => cases hr
  | cons q requested ih =>
    obtain ⟨hfirst, hrest⟩ := List.pairwise_cons.mp hsorted
    by_cases hq : q < address
    · rw [List.takeWhile_cons_of_pos (by simpa using hq), List.length_cons]
      cases i with
      | zero =>
        cases hr
        constructor
        · intro h
          omega
        · intro h
          omega
      | succ i =>
        rw [← ih hrest hr]
        omega
    · rw [List.takeWhile_cons_of_neg (by simpa using hq)]
      have hle : q ≤ r := by
        cases i with
        | zero =>
          cases hr
          exact le_rfl
        | succ i => exact (hfirst r (List.mem_of_getElem? hr)).le
      constructor
      · intro _
        omega
      · intro _
        exact Nat.succ_pos i

theorem length_place (requested : List ℕ) (best : List (Option (ℕ × List UInt8))) (e : Entry) :
    (place requested best e).length = best.length := by
  unfold place
  split
  · rfl
  · rw [List.length_set]

theorem length_placed (requested : List ℕ) (entries : List Entry) :
    (entries.foldl (place requested) (List.replicate requested.length none)).length =
      requested.length := by
  induction entries using List.reverseRecOn with
  | nil => exact List.length_replicate
  | append_singleton entries e ih =>
    rw [List.foldl_append]
    exact (length_place requested _ e).trans ih

/-- Each bucket holds the winner of the symbols that belong to it. -/
theorem getElem?_placed (requested : List ℕ) (entries : List Entry) {i : ℕ}
    (hi : i < requested.length) :
    (entries.foldl (place requested) (List.replicate requested.length none))[i]? =
      some ((latest Entry.address (fun e => decide (bucket requested e.address = i)) entries).map
        fun e => (e.address, e.line)) := by
  induction entries using List.reverseRecOn with
  | nil =>
    show (List.replicate requested.length none)[i]? = some none
    rw [List.getElem?_replicate, if_pos hi]
  | append_singleton entries e ih =>
    have hlen := length_placed requested entries
    rw [List.foldl_append, latest_snoc]
    show (place requested _ e)[i]? = _
    generalize entries.foldl (place requested) (List.replicate requested.length none) = best
      at ih hlen ⊢
    unfold place
    by_cases hbucket : bucket requested e.address = i
    · rw [hbucket, ih]
      simp only [decide_true, if_true]
      rw [List.getElem?_set_self (by omega)]
      unfold improve SparseKernelSymbolScan.better
      rcases latest Entry.address _ entries with _ | b
      · rfl
      · simp only [Option.map_some]
        split <;> rfl
    · have hpred : decide (bucket requested e.address = i) = false := decide_eq_false hbucket
      rw [hpred]
      simp only [Bool.false_eq_true, if_false]
      rcases best[bucket requested e.address]? with _ | old
      · exact ih
      · rw [List.getElem?_set_ne hbucket]
        exact ih

/-- What is carried on to a request: the winner of all buckets before it. -/
def carried (requested : List ℕ) (entries : List Entry) (i : ℕ) : Option Entry :=
  latest Entry.address (fun e => decide (bucket requested e.address < i)) entries

/-- A symbol in a later bucket is above those in earlier ones. -/
theorem carried_succ (requested : List ℕ) (entries : List Entry) (i : ℕ) :
    carried requested entries (i + 1) =
      (latest Entry.address (fun e => decide (bucket requested e.address = i)) entries).or
        (carried requested entries i) := by
  have hspec := latest_spec Entry.address
    (fun e => decide (bucket requested e.address = i)) entries
  rcases hbest : latest Entry.address (fun e => decide (bucket requested e.address = i))
    entries with
    _ | e
  · rw [hbest] at hspec
    rw [Option.none_or]
    apply latest_congr
    intro e he
    have hne : bucket requested e.address ≠ i := of_decide_eq_false (hspec e he)
    apply decide_eq_decide.mpr
    omega
  · rw [hbest] at hspec
    obtain ⟨j, hw⟩ := hspec
    have hin : bucket requested e.address = i := of_decide_eq_true hw.satisfies
    rw [Option.some_or]
    apply Winner.latest_eq (i := j)
    refine ⟨hw.entry, decide_eq_true (by omega), fun k b hb hpb => ?_⟩
    have hlt : bucket requested b.address < i + 1 := of_decide_eq_true hpb
    by_cases hsame : bucket requested b.address = i
    · exact hw.latest k b hb (decide_eq_true hsame)
    · left
      by_contra hge
      have hmono := bucket_mono requested (Nat.not_lt.mp hge)
      omega

/-- From a position on, the results are the lookups of the requests. -/
theorem finishLoop_eq {requested : List ℕ} (hsorted : requested.Pairwise (· < ·))
    {entries : List Entry}
    (hparse : ∀ e ∈ entries, parseKernelSymbolLineBytes e.line = some (e.address, e.name))
    {before rest : List ℕ} {best : List (Option (ℕ × List UInt8))}
    (hsplit : requested = before ++ rest) (hlength : best.length = rest.length)
    (hbest : ∀ i, i < rest.length → best[i]? =
      some ((latest Entry.address
        (fun e => decide (bucket requested e.address = before.length + i)) entries).map
          fun e => (e.address, e.line))) :
    SparseKernelSymbolScan.finishLoop
        ((carried requested entries before.length).map Entry.symbol) (rest.zip best) =
      rest.filterMap fun r => ((nearest entries r).map Entry.symbol).map (r, ·) := by
  induction rest generalizing before best with
  | nil => rfl
  | cons r rest ih =>
    cases best with
    | nil => cases hlength
    | cons b best =>
      have hb := Option.some.inj (hbest 0 (Nat.succ_pos _))
      rw [Nat.add_zero] at hb
      have hrequest : requested[before.length]? = some r := by
        rw [hsplit, List.getElem?_append_right le_rfl, Nat.sub_self]
        rfl
      have hnearest : nearest entries r = carried requested entries (before.length + 1) := by
        apply latest_congr
        intro e _
        exact decide_eq_decide.mpr (bucket_le_iff hsorted hrequest e.address).symm
      -- the symbol of this request is that of its bucket, or the one carried on
      have hsymbol : SparseKernelSymbolScan.symbolOr
          ((carried requested entries before.length).map Entry.symbol) b =
          (carried requested entries (before.length + 1)).map Entry.symbol := by
        rw [carried_succ, hb]
        rcases hfound : latest Entry.address
          (fun e => decide (bucket requested e.address = before.length)) entries with _ | e
        · rfl
        · have hspec := latest_spec Entry.address
            (fun e => decide (bucket requested e.address = before.length)) entries
          rw [hfound] at hspec
          obtain ⟨j, hw⟩ := hspec
          show (parseKernelSymbolLineBytes e.line).map _ = _
          rw [hparse e (List.mem_of_getElem? hw.entry)]
          rfl
      have hsplit' : requested = (before ++ [r]) ++ rest := by
        rw [hsplit, List.append_assoc]
        rfl
      have hrest := ih hsplit' (Nat.succ.inj hlength) fun i hi => by
        rw [List.length_append, List.length_singleton, Nat.add_assoc, Nat.add_comm 1 i]
        exact hbest (i + 1) (Nat.succ_lt_succ hi)
      rw [List.length_append, List.length_singleton] at hrest
      rw [List.zip_cons_cons]
      unfold SparseKernelSymbolScan.finishLoop
      simp only [hsymbol]
      rw [List.filterMap_cons, hnearest]
      rcases hcarried : (carried requested entries (before.length + 1)).map Entry.symbol with
        _ | symbol
      · rw [hcarried] at hrest
        exact hrest
      · rw [hcarried] at hrest
        exact congrArg ((r, symbol) :: ·) hrest

end StackPulse.SparseScan
