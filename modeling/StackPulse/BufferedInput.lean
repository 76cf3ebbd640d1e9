import StackPulse.TextLines

/-!
A buffered reader over bytes. Each call shows some bytes of what is still to be
read, at least one unless nothing is left; how many is up to the reader. Reading
up to a separator gives the same pieces, however the bytes are cut into buffers.
-/
namespace StackPulse.BufferedInput

open TextLines

/-- What is left to read, and the number of buffers that were shown so far. -/
structure Reader where
  rest : List UInt8
  calls : ℕ
  deriving DecidableEq, Repr

variable (sizes : ℕ → ℕ)

/-- The next buffer of a reader that shows `sizes k + 1` bytes at call `k`, or what
is left. -/
def fillBuf (r : Reader) : List UInt8 := r.rest.take (sizes r.calls + 1)

/-- The reader after a buffer was shown and some of it consumed. -/
def consume (r : Reader) (n : ℕ) : Reader := ⟨r.rest.drop n, r.calls + 1⟩

/-- `BufRead::read_until`, which appends to the line. Every round but the last one
consumes a byte. -/
def readUntil (sep : UInt8) : ℕ → Reader → List UInt8 → Reader × List UInt8
  | 0, r, line => (r, line)
  | rounds + 1, r, line =>
      let available := fillBuf sizes r
      match available.findIdx? (· = sep) with
      | some i => (consume r (i + 1), line ++ available.take (i + 1))
      | none =>
          if available = [] then (consume r 0, line)
          else readUntil sep rounds (consume r available.length) (line ++ available)

theorem fillBuf_ne_nil {r : Reader} (h : r.rest ≠ []) : fillBuf sizes r ≠ [] := by
  unfold fillBuf
  rw [Ne, List.take_eq_nil_iff, not_or]
  exact ⟨Nat.succ_ne_zero _, h⟩

/-- A buffer shows the beginning of what is left. -/
theorem fillBuf_append (r : Reader) :
    fillBuf sizes r ++ r.rest.drop (fillBuf sizes r).length = r.rest := by
  unfold fillBuf
  rw [List.length_take]
  rcases Nat.le_total (sizes r.calls + 1) r.rest.length with hle | hle
  · rw [Nat.min_eq_left hle, List.take_append_drop]
  · rw [Nat.min_eq_right hle, List.take_of_length_le hle, List.drop_length, List.append_nil]

/-- A buffer either has no separator, or begins with a piece. -/
theorem findIdx?_cases (sep : UInt8) (buffer : List UInt8) :
    (buffer.findIdx? (· = sep) = none ∧ sep ∉ buffer) ∨
      ∃ line rest, buffer = line ++ sep :: rest ∧ sep ∉ line ∧
        buffer.findIdx? (· = sep) = some line.length := by
  by_cases h : sep ∈ buffer
  · obtain ⟨line, rest, rfl, hline⟩ := List.eq_append_cons_of_mem h
    refine .inr ⟨line, rest, rfl, hline, ?_⟩
    have hnone : line.findIdx? (· = sep) = none := by
      rw [List.findIdx?_eq_none_iff]
      exact fun b hb => decide_eq_false fun heq => hline (heq ▸ hb)
    rw [List.findIdx?_append, hnone, List.findIdx?_cons]
    simp
  · refine .inl ⟨?_, h⟩
    rw [List.findIdx?_eq_none_iff]
    exact fun b hb => decide_eq_false fun heq => h (heq ▸ hb)

/-- Reading up to a separator takes the next piece, together with what the line
already had. -/
theorem readUntil_spec (sep : UInt8) {rounds : ℕ} {r : Reader} {line : List UInt8}
    (hrounds : r.rest.length < rounds) (hline : sep ∉ line) :
    ∃ r' line', readUntil sizes sep rounds r line = (r', line') ∧
      (line' = [] → line = [] ∧ r.rest = []) ∧
      (line' ≠ [] → r'.rest.length < (line ++ r.rest).length ∧
        splitInclusive sep (line ++ r.rest) = line' :: splitInclusive sep r'.rest) := by
  induction rounds generalizing r line with
  | zero => exact absurd hrounds (Nat.not_lt_zero _)
  | succ rounds ih =>
    have hsplit := fillBuf_append sizes r
    unfold readUntil
    rcases findIdx?_cases sep (fillBuf sizes r) with ⟨hnone, hfree⟩ |
      ⟨piece, rest, heq, hpiece, hsome⟩
    · by_cases hnil : fillBuf sizes r = []
      · have hrest : r.rest = [] := by
          by_contra hne
          exact fillBuf_ne_nil sizes hne hnil
        refine ⟨consume r 0, line, ?_, fun h => ⟨h, hrest⟩, fun hne => ?_⟩
        · simp only [hnone, if_pos hnil]
        · have hdrop : (consume r 0).rest = [] := by
            show r.rest.drop 0 = []
            rw [hrest, List.drop_nil]
          rw [hrest, List.append_nil, hdrop, splitInclusive_of_notMem sep hline hne]
          exact ⟨List.length_pos_iff.mpr hne, rfl⟩
      · have hshorter : (consume r (fillBuf sizes r).length).rest.length < rounds := by
          have hpos := List.length_pos_iff.mpr hnil
          have hlen := congrArg List.length hsplit
          rw [List.length_append] at hlen
          show (r.rest.drop (fillBuf sizes r).length).length < rounds
          omega
        have hfree' : sep ∉ line ++ fillBuf sizes r := fun hmem =>
          (List.mem_append.mp hmem).elim hline hfree
        obtain ⟨r', line', hread, hempty, hfull⟩ := ih hshorter hfree'
        have hwhole : line ++ fillBuf sizes r ++ (consume r (fillBuf sizes r).length).rest =
            line ++ r.rest := by
          show line ++ fillBuf sizes r ++ r.rest.drop (fillBuf sizes r).length = _
          rw [List.append_assoc, hsplit]
        rw [hwhole] at hfull
        refine ⟨r', line', ?_, fun h => ?_, hfull⟩
        · simp only [hnone, if_neg hnil]
          exact hread
        · exact absurd (List.append_eq_nil_iff.mp (hempty h).1).2 hnil
    · have hrest : r.rest = piece ++ sep :: (rest ++ r.rest.drop (fillBuf sizes r).length) := by
        calc r.rest = fillBuf sizes r ++ r.rest.drop (fillBuf sizes r).length := hsplit.symm
          _ = piece ++ sep :: rest ++ r.rest.drop (fillBuf sizes r).length :=
            congrArg (· ++ r.rest.drop (fillBuf sizes r).length) heq
          _ = _ := by rw [List.append_assoc, List.cons_append]
      have hdrop : (consume r (piece.length + 1)).rest =
          rest ++ r.rest.drop (fillBuf sizes r).length := by
        show r.rest.drop (piece.length + 1) = _
        conv_lhs => rw [hrest]
        rw [List.drop_append, List.drop_eq_nil_of_le (Nat.le_succ _), Nat.add_sub_cancel_left]
        rfl
      have htake : (fillBuf sizes r).take (piece.length + 1) = piece ++ [sep] := by
        rw [heq, List.take_append, List.take_of_length_le (Nat.le_succ _),
          Nat.add_sub_cancel_left]
        rfl
      refine ⟨consume r (piece.length + 1), line ++ (piece ++ [sep]), ?_, fun h => ?_, fun _ => ?_⟩
      · simp only [hsome, htake]
      · exact absurd (List.append_eq_nil_iff.mp (List.append_eq_nil_iff.mp h).2).2
          (List.cons_ne_nil _ _)
      · rw [hdrop]
        constructor
        · conv_rhs => rw [hrest]
          simp only [List.length_append, List.length_cons]
          omega
        · conv_lhs => rw [hrest]
          rw [← List.append_assoc, splitInclusive_first sep
            (fun hmem => (List.mem_append.mp hmem).elim hline hpiece), List.append_assoc]

end StackPulse.BufferedInput
