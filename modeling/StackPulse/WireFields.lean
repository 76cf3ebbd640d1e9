import StackPulse.Encode
import StackPulse.Records

/-!
Reading back what the writer encodes, field by field. On the encoding of a field
the reader gives the value that was written, and a check gives what it says of
that value.
-/
namespace StackPulse.WireFields

open Bytes.ByteReader Varint Model SpoolCursor SpoolVarint Decode DecodeFacts Encode

variable (V : IntegerEncoding)

theorem checkId_parses (id : UInt64) (expected : ℕ) (kind : String) :
    (checkId V expected kind).Parses (encodeVar V id) (matchId id expected kind) :=
  (readVarint_parses V id).bind_nil (Parses.ofExcept _)

theorem readIdWithin_parses (raw : UInt64) (limit : ℕ) (kind : String) :
    (readIdWithin V limit kind).Parses (encodeVar V raw) (boundedId raw limit kind) :=
  (readVarint_parses V raw).bind_nil (Parses.ofExcept _)

theorem readIndexWithin_parses (raw : UInt64) (limit : ℕ) (kind : String) :
    (readIndexWithin V limit kind).Parses (encodeVar V raw) (boundedIndex raw limit kind) :=
  (readVarint_parses V raw).bind_nil (Parses.ofExcept _)

theorem i32TryFrom_toInt64 (n : Int32) : i32TryFrom n.toInt64 = .ok n := by
  have hlower := n.le_toInt
  have hupper := n.toInt_lt
  unfold i32TryFrom
  rw [Int32.toInt_toInt64, if_pos ⟨hlower, hupper⟩, Int32.toInt32_toInt64]

theorem readProcessId_parses (processId : Int32) :
    (readProcessId V).Parses (encodeVar V processId.toInt64) (.ok processId) := by
  refine (readVarint_parses V processId.toInt64).bind_nil ?_
  rw [i32TryFrom_toInt64]
  exact Parses.ofExcept _

theorem readPid_parses (processId : Int32) :
    (readPid V).Parses (encodeVar V processId.toInt64) (pidTryFrom processId) :=
  (readProcessId_parses V processId).bind_nil (Parses.ofExcept _)

theorem readU32_parses (n : UInt32) (message : String) :
    (readU32 V message).Parses (encodeVar V n.toUInt64) (.ok n) := by
  have hn : u32TryFrom n.toUInt64 message = .ok n := u32TryFrom_ok.mpr (by simp)
  refine (readVarint_parses V n.toUInt64).bind_nil ?_
  rw [hn]
  exact Parses.ofExcept _

theorem readFlag_parses (flag : Bool) : readFlag.Parses [u8From flag] (.ok flag) := by
  refine (readBytesRange_parses [u8From flag]).bind_nil ?_
  cases flag <;> exact Parses.pure _

theorem toNat_ofNat_length {bytes : List UInt8} (h : bytes.length < 2 ^ 63) :
    (UInt64.ofNat bytes.length).toNat = bytes.length := by
  rw [UInt64.toNat_ofNat']
  omega

theorem readPath_parses (path : ModulePath) (h : path.bytes.length < 2 ^ 63) :
    (readPath V).Parses (encodeVar V (UInt64.ofNat path.bytes.length) ++ path.bytes)
      (.ok path) := by
  refine (readVarint_parses V (UInt64.ofNat path.bytes.length)).bind ?_
  rw [toNat_ofNat_length h]
  exact (readBytesRange_parses path.bytes).bind_nil (Parses.pure _)

/-- What the reader makes of a symbol, given the symbols before it. -/
def checkSymbol (module : ModuleRecord) (symbols : List JitSymbol) (symbol : JitSymbol) :
    Except Stop JitSymbol :=
  if symbol.stop ≤ symbol.start ∨ symbol.start < module.start ∨ module.stop < symbol.stop then
    .error (invalidData "JIT symbol outside its code range")
  else if MAX_JIT_SYMBOL_NAME < (JitSymbol.nameBytes symbol).length then
    .error (invalidData "JIT symbol name too large")
  else if symbols.getLast?.any fun before => symbol.start < before.start then
    .error (invalidData "JIT symbols are not sorted")
  else .ok symbol

def checkSymbols (module : ModuleRecord) :
    List JitSymbol → List JitSymbol → Except Stop (List JitSymbol)
  | symbols, [] => .ok symbols
  | symbols, symbol :: rest => do
      let symbol ← checkSymbol module symbols symbol
      checkSymbols module (symbols ++ [symbol]) rest

theorem checkSymbol_ok {module : ModuleRecord} {symbols : List JitSymbol} {symbol found : JitSymbol}
    (h : checkSymbol module symbols symbol = .ok found) : found = symbol := by
  unfold checkSymbol at h
  split at h
  · cases h
  · split at h
    · cases h
    · split at h
      · cases h
      · cases h
        rfl

/-- Symbols that pass are kept as they are. -/
theorem checkSymbols_ok {module : ModuleRecord} {symbols rest found : List JitSymbol}
    (h : checkSymbols module symbols rest = .ok found) : found = symbols ++ rest := by
  induction rest generalizing symbols with
  | nil =>
    cases h
    exact (List.append_nil _).symm
  | cons symbol rest ih =>
    unfold checkSymbols at h
    rcases hfirst : checkSymbol module symbols symbol with e | found'
    · rw [hfirst] at h
      cases h
    · rw [hfirst] at h
      rw [ih h, checkSymbol_ok hfirst, List.append_assoc]
      rfl

theorem fromUTF8_nameBytes (symbol : JitSymbol) :
    String.fromUTF8? (JitSymbol.nameBytes symbol).toByteArray = some symbol.name := by
  have hbytes : (JitSymbol.nameBytes symbol).toByteArray = symbol.name.toUTF8 := by
    unfold JitSymbol.nameBytes
    apply ByteArray.ext
    rw [List.data_toByteArray]
  rw [hbytes]
  exact dif_pos symbol.name.isValidUTF8

theorem readSymbol_parses (module : ModuleRecord) (symbols : List JitSymbol)
    (symbol : JitSymbol) (h : (JitSymbol.nameBytes symbol).length < 2 ^ 63) :
    (readSymbol V module symbols).Parses (symbolChunks V symbol).flatten
      (checkSymbol module symbols symbol) := by
  have hflat : (symbolChunks V symbol).flatten = encodeVar V symbol.start ++
      (encodeVar V symbol.stop ++ (encodeVar V (UInt64.ofNat (JitSymbol.nameBytes symbol).length) ++
        (JitSymbol.nameBytes symbol ++ []))) := by
    simp [symbolChunks, bytesChunks]
  rw [hflat]
  refine (readVarint_parses V symbol.start).bind ((readVarint_parses V symbol.stop).bind ?_)
  unfold checkSymbol
  by_cases hrange :
      symbol.stop ≤ symbol.start ∨ symbol.start < module.start ∨ module.stop < symbol.stop
  · rw [if_pos hrange, if_pos hrange]
    exact Parses.fail _ _
  rw [if_neg hrange, if_neg hrange]
  refine (readVarint_parses V (UInt64.ofNat (JitSymbol.nameBytes symbol).length)).bind ?_
  rw [toNat_ofNat_length h]
  by_cases hlong : MAX_JIT_SYMBOL_NAME < (JitSymbol.nameBytes symbol).length
  · rw [if_pos hlong, if_pos hlong]
    exact Parses.fail _ _
  rw [if_neg hlong, if_neg hlong]
  refine (readBytesRange_parses (JitSymbol.nameBytes symbol)).bind ?_
  rw [fromUTF8_nameBytes]
  by_cases horder : symbols.getLast?.any fun before => symbol.start < before.start
  · simp only [horder, if_true]
    exact Parses.fail _ _
  · simp only [horder, Bool.false_eq_true, if_false]
    exact Parses.pure symbol

theorem readSymbolsLoop_parses (module : ModuleRecord) (rest symbols : List JitSymbol)
    (h : ∀ symbol ∈ rest, (JitSymbol.nameBytes symbol).length < 2 ^ 63) :
    (readSymbolsLoop V module rest.length symbols).Parses
      (rest.flatMap (symbolChunks V)).flatten (checkSymbols module symbols rest) := by
  induction rest generalizing symbols with
  | nil => exact Parses.pure symbols
  | cons symbol rest ih =>
    rw [List.flatMap_cons, List.flatten_append]
    refine Parses.bind_except
      (readSymbol_parses V module symbols symbol (h symbol (.head _))) ?_
    intro found _
    exact ih (symbols ++ [found]) fun s hs => h s (List.mem_cons_of_mem symbol hs)

/-- The list that follows a module. -/
def symbolsFromWire (module : ModuleRecord) (symbols : List JitSymbol) :
    Except Stop (List JitSymbol) :=
  if MAX_JIT_SYMBOLS < symbols.length ∨ module.isKernel then
    .error (invalidData "invalid JIT module")
  else checkSymbols module [] symbols

theorem readSymbols_parses (module : ModuleRecord) (symbols : List JitSymbol)
    (hlen : symbols.length < 2 ^ 63)
    (hnames : ∀ symbol ∈ symbols, (JitSymbol.nameBytes symbol).length < 2 ^ 63) :
    (readSymbols V module).Parses (symbolsChunks V symbols).flatten
      (symbolsFromWire module symbols) := by
  have hcount : (UInt64.ofNat symbols.length).toNat = symbols.length := by
    rw [UInt64.toNat_ofNat']
    omega
  unfold symbolsChunks symbolsFromWire
  rw [List.flatten_cons]
  refine (readVarint_parses V (UInt64.ofNat symbols.length)).bind ?_
  rw [hcount]
  by_cases hbad : MAX_JIT_SYMBOLS < symbols.length ∨ module.isKernel
  · rw [if_pos hbad, if_pos hbad]
    exact Parses.fail _ _
  · rw [if_neg hbad, if_neg hbad]
    exact readSymbolsLoop_parses V module symbols [] hnames

end StackPulse.WireFields
