import StackPulse.BufferedInput
import StackPulse.FrameContexts
import StackPulse.StableSort

/-!
The kernel's symbol table in `/proc/kallsyms`. It is parsed in three ways: into a
list of symbols, into a table whose names share one arena, and, for a list of
requested addresses, in one pass that keeps the nearest symbol below each. Strings
are the bytes of their UTF-8 encoding.
-/
namespace StackPulse.Kallsyms

open Model (Stop invalidData)
open FrameContexts (partitionPoint)
open StableSort TextLines BufferedInput

/-- The bytes of an ASCII text. -/
def ascii (text : String) : List UInt8 := text.toList.map fun c => c.toNat.toUInt8

/-- `String::from_utf8_lossy`, as the bytes of the string. -/
def fromUtf8Lossy (bytes : List UInt8) : List UInt8 :=
  (decodeLossy bytes).flatMap String.utf8EncodeChar

structure KernelSymbolMetadata where
  symbolType : UInt8
  name : List UInt8
  module : Option (List UInt8)
  deriving DecidableEq, Repr

def PERF_KERNEL_SYMBOL_TYPES : List UInt8 := ascii "TWDB"

def hexDigit (b : UInt8) : Option ℕ :=
  if 0x30 ≤ b && b ≤ 0x39 then some (b.toNat - 0x30)
  else if 0x61 ≤ b && b ≤ 0x66 then some (b.toNat - 0x61 + 10)
  else if 0x41 ≤ b && b ≤ 0x46 then some (b.toNat - 0x41 + 10)
  else none

/-- The value and the number of the digits at the start of the input. -/
def hexDigits (value len : ℕ) : List UInt8 → ℕ × ℕ
  | [] => (value, len)
  | b :: rest =>
      match hexDigit b with
      | some digit => hexDigits (value * 16 + digit) (len + 1) rest
      | none => (value, len)

/-- At most sixteen digits are read, so the value stays in `u64`. -/
def parseHexU64 (input : List UInt8) : Option (ℕ × ℕ) :=
  let (value, len) := hexDigits 0 0 (input.take 16)
  if len ≠ 0 then some (value, len) else none

/-- Drops blanks and tabs at the end. -/
def trimAsciiEnd (data : List UInt8) : List UInt8 :=
  (data.reverse.dropWhile fun b => b = 0x20 || b = 0x09).reverse

/-- A name may be followed by its module in brackets. -/
def parseKernelSymbolName (symbolType : UInt8) (name : List UInt8) : KernelSymbolMetadata :=
  let plain : KernelSymbolMetadata := ⟨symbolType, name, none⟩
  if name.getLast? = some 0x5D then
    match name.reverse.findIdx? (· = 0x5B) with
    | none => plain
    | some i =>
        let bracketStart := name.length - 1 - i
        let module := (name.drop (bracketStart + 1)).dropLast
        if module ≠ [] then ⟨symbolType, trimAsciiEnd (name.take bracketStart), some module⟩
        else plain
  else plain

def parseKernelSymbolLineBytes (line : List UInt8) : Option (ℕ × KernelSymbolMetadata) := do
  let (address, addressLen) ← parseHexU64 line
  let symbolType ← (line)[addressLen + 1]?
  let nameStart := addressLen + 3
  if line.length < nameStart then none
  else
    let name := (line.drop nameStart).takeWhile (· ≠ newline)
    let name := if name.getLast? = some 0x0D then name.dropLast else name
    some (address, parseKernelSymbolName symbolType name)

def isKernelTextSymbol (name : List UInt8) : Bool := name = ascii "_text" || name = ascii "_stext"

/-- A core text symbol at address zero: the reader may not see addresses. -/
def isRestrictedKernelText (address : ℕ) (name : KernelSymbolMetadata) : Bool :=
  address = 0 && name.module.isNone && isKernelTextSymbol name.name

def toAsciiUppercase (b : UInt8) : UInt8 := if 0x61 ≤ b && b ≤ 0x7A then b - 0x20 else b

/-- The filter for symbols, with the text anchor that it has seen and sets. -/
def shouldIncludeKernelSymbol (textAddr : Option ℕ) (address : ℕ) (name : KernelSymbolMetadata) :
    Bool × Option ℕ :=
  if address = 0 || !PERF_KERNEL_SYMBOL_TYPES.contains (toAsciiUppercase name.symbolType) ||
      (ascii "$").isPrefixOf name.name || (ascii ".L").isPrefixOf name.name ||
      (ascii "L0").isPrefixOf name.name then
    (false, textAddr)
  else
    let textAddr :=
      if textAddr.isNone && isKernelTextSymbol name.name then some address else textAddr
    (name.module.isSome || textAddr.any (· ≤ address), textAddr)

structure KernelSymbol where
  address : ℕ
  name : List UInt8
  module : Option (List UInt8)
  deriving DecidableEq, Repr

def kernelSymbolModuleToString (module : List UInt8) : List UInt8 :=
  ascii "[" ++ fromUtf8Lossy module ++ ascii "]"

def kernelSymbolFromName (address : ℕ) (name : KernelSymbolMetadata) : KernelSymbol :=
  ⟨address, fromUtf8Lossy name.name, name.module.map kernelSymbolModuleToString⟩

/-- Neighbours with the same address are one entry, with the content of the last. -/
def keepLast {α : Type} (address : α → ℕ) : List α → List α
  | [] => []
  | [a] => [a]
  | a :: b :: rest =>
      if address b = address a then keepLast address (b :: rest)
      else a :: keepLast address (b :: rest)

def sortAndKeepLastAlias {α : Type} (address : α → ℕ) (symbols : List α) : List α :=
  keepLast address (sortByKey address symbols)

/-- The symbols that `KallSymIter` yields, until one shows the table as restricted. -/
def parseKernelSymbolsLoop : Option ℕ → List KernelSymbol → List (List UInt8) →
    Option (List KernelSymbol)
  | _, symbols, [] => some symbols
  | textAddr, symbols, line :: lines =>
      match parseKernelSymbolLineBytes line with
      | none => parseKernelSymbolsLoop textAddr symbols lines
      | some (address, name) =>
          if isRestrictedKernelText address name then none
          else
            let (included, textAddr) := shouldIncludeKernelSymbol textAddr address name
            let symbols :=
              if included then symbols ++ [kernelSymbolFromName address name] else symbols
            parseKernelSymbolsLoop textAddr symbols lines

def parseKernelSymbols (data : List UInt8) : List KernelSymbol :=
  match parseKernelSymbolsLoop none [] (splitInclusive newline data) with
  | none => []
  | some symbols => sortAndKeepLastAlias KernelSymbol.address symbols

def findByAddress {α : Type} (key : α → ℕ) (symbols : List α) (address : ℕ) : Option α :=
  (symbols.take (partitionPoint (fun s => decide (key s ≤ address)) symbols)).getLast?

def findKernelSymbol (symbols : List KernelSymbol) (address : ℕ) : Option KernelSymbol :=
  findByAddress KernelSymbol.address symbols address

structure FullKernelSymbol where
  address : ℕ
  nameStart : ℕ
  nameLen : ℕ
  module : Option ℕ
  deriving DecidableEq, Repr

structure FullKernelSymbols where
  symbols : List FullKernelSymbol
  names : List UInt8
  modules : List (List UInt8)
  deriving DecidableEq, Repr

def FullKernelSymbols.default : FullKernelSymbols := ⟨[], [], []⟩

def FullKernelSymbols.find (table : FullKernelSymbols) (address : ℕ) :
    Option (ℕ × List UInt8 × Option (List UInt8)) :=
  (findByAddress FullKernelSymbol.address table.symbols address).map fun symbol =>
    (symbol.address, (table.names.drop symbol.nameStart).take symbol.nameLen,
      symbol.module.map fun module => table.modules.getD module [])

structure FullKernelSymbolsBuilder where
  symbols : List FullKernelSymbol
  names : List UInt8
  modules : List (List UInt8)
  moduleIds : AList fun _ : List UInt8 => ℕ

def kernelSymbolTableIndex (value : ℕ) : Except Stop ℕ :=
  if value < 2 ^ 32 then .ok value else .error (invalidData "kernel symbol names exceed 4 GiB")

namespace FullKernelSymbolsBuilder

def default : FullKernelSymbolsBuilder := ⟨[], [], [], ∅⟩

def moduleId (b : FullKernelSymbolsBuilder) (module : List UInt8) :
    Except Stop (ℕ × FullKernelSymbolsBuilder) :=
  match b.moduleIds.lookup module with
  | some id => .ok (id, b)
  | none => do
      let id ← kernelSymbolTableIndex b.modules.length
      .ok (id, { b with
        modules := b.modules ++ [kernelSymbolModuleToString module]
        moduleIds := b.moduleIds.insert module id })

def push (b : FullKernelSymbolsBuilder) (address : ℕ) (name : List UInt8)
    (module : Option (List UInt8)) : Except Stop FullKernelSymbolsBuilder := do
  let nameStart := b.names.length
  let b := { b with names := b.names ++ fromUtf8Lossy name }
  let start ← kernelSymbolTableIndex nameStart
  let len ← kernelSymbolTableIndex (b.names.length - nameStart)
  match module with
  | none => .ok { b with symbols := b.symbols ++ [⟨address, start, len, none⟩] }
  | some module => do
      let (id, b) ← b.moduleId module
      .ok { b with symbols := b.symbols ++ [⟨address, start, len, some id⟩] }

def finish (b : FullKernelSymbolsBuilder) : FullKernelSymbols :=
  ⟨sortAndKeepLastAlias FullKernelSymbol.address b.symbols, b.names, b.modules⟩

end FullKernelSymbolsBuilder

/-- The loop over the lines of the reader. -/
def parseFullLoop (sizes : ℕ → ℕ) : ℕ → Reader → Option ℕ → FullKernelSymbolsBuilder →
    Except Stop FullKernelSymbols
  | 0, _, _, _ => .error .pending
  | rounds + 1, r, textAddr, builder =>
      let (r, line) := readUntil sizes newline (r.rest.length + 1) r []
      if line = [] then .ok builder.finish
      else
        match parseKernelSymbolLineBytes line with
        | none => parseFullLoop sizes rounds r textAddr builder
        | some (address, name) =>
            if isRestrictedKernelText address name then .ok .default
            else
              let (included, textAddr) := shouldIncludeKernelSymbol textAddr address name
              if included then do
                let builder ← builder.push address name.name name.module
                parseFullLoop sizes rounds r textAddr builder
              else parseFullLoop sizes rounds r textAddr builder

/-- Every round reads a line, so the bytes of the file bound the rounds. -/
def parseFullKernelSymbols (sizes : ℕ → ℕ) (data : List UInt8) : Except Stop FullKernelSymbols :=
  parseFullLoop sizes (data.length + 1) ⟨data, 0⟩ none .default

/-- Bucket `i` keeps the highest symbol above request `i - 1` and up to request `i`. -/
structure SparseKernelSymbolScan where
  requestedAddresses : List ℕ
  bestLines : List (Option (ℕ × List UInt8))
  textAddr : Option ℕ
  deriving DecidableEq, Repr

namespace SparseKernelSymbolScan

def new (requestedAddresses : List ℕ) : SparseKernelSymbolScan :=
  ⟨requestedAddresses, List.replicate requestedAddresses.length none, none⟩

/-- A later symbol replaces one at the same address. -/
def better (best : Option (ℕ × List UInt8)) (address : ℕ) (line : List UInt8) :
    Option (ℕ × List UInt8) :=
  match best with
  | some (bestAddress, bestLine) =>
      if bestAddress ≤ address then some (address, line) else some (bestAddress, bestLine)
  | none => some (address, line)

/-- One line of the file. There is no result if it shows the table as restricted. -/
def processLine (scan : SparseKernelSymbolScan) (line : List UInt8) :
    Option SparseKernelSymbolScan :=
  match parseKernelSymbolLineBytes line with
  | none => some scan
  | some (address, name) =>
      if isRestrictedKernelText address name then none
      else
        let (included, textAddr) := shouldIncludeKernelSymbol scan.textAddr address name
        let scan := { scan with textAddr := textAddr }
        if included then
          let bucket := partitionPoint (fun requested => decide (requested < address))
            scan.requestedAddresses
          match scan.bestLines[bucket]? with
          | none => some scan
          | some best =>
              some { scan with bestLines := scan.bestLines.set bucket (better best address line) }
        else some scan

/-- The symbol of a bucket, or the one that is carried on if the bucket is empty. -/
def symbolOr (symbol : Option KernelSymbol) : Option (ℕ × List UInt8) → Option KernelSymbol
  | some (_, line) =>
      (parseKernelSymbolLineBytes line).map fun entry => kernelSymbolFromName entry.1 entry.2
  | none => symbol

/-- The last symbol found so far is carried on to later requests. -/
def finishLoop : Option KernelSymbol → List (ℕ × Option (ℕ × List UInt8)) → List (ℕ × KernelSymbol)
  | _, [] => []
  | symbol, (requested, best) :: rest =>
      match symbolOr symbol best with
      | some found => (requested, found) :: finishLoop (some found) rest
      | none => finishLoop none rest

def finish (scan : SparseKernelSymbolScan) : List (ℕ × KernelSymbol) :=
  finishLoop none (scan.requestedAddresses.zip scan.bestLines)

end SparseKernelSymbolScan

/-- The lines that end in a buffer. What follows the last of them is carried over
to the next buffer. -/
def scanBuffer : ℕ → List UInt8 → List UInt8 → SparseKernelSymbolScan →
    Option (List UInt8 × SparseKernelSymbolScan)
  | 0, _, carry, scan => some (carry, scan)
  | rounds + 1, tail, carry, scan =>
      if tail = [] then some (carry, scan)
      else
        match tail.findIdx? (· = newline) with
        | none => some (carry ++ tail, scan)
        | some i =>
            match scan.processLine (carry ++ tail.take (i + 1)) with
            | none => none
            | some scan => scanBuffer rounds (tail.drop (i + 1)) [] scan

def parseSparseLoop (sizes : ℕ → ℕ) : ℕ → Reader → List UInt8 → SparseKernelSymbolScan →
    Except Stop (List (ℕ × KernelSymbol))
  | 0, _, _, _ => .error .pending
  | rounds + 1, r, carry, scan =>
      let buffer := fillBuf sizes r
      if buffer = [] then
        if carry = [] then .ok scan.finish
        else
          match scan.processLine carry with
          | none => .ok []
          | some scan => .ok scan.finish
      else
        match scanBuffer (buffer.length + 1) buffer carry scan with
        | none => .ok []
        | some (carry, scan) => parseSparseLoop sizes rounds (consume r buffer.length) carry scan

def parseSparseKernelSymbolsStreaming (sizes : ℕ → ℕ) (data : List UInt8)
    (requestedAddresses : List ℕ) : Except Stop (List (ℕ × KernelSymbol)) :=
  parseSparseLoop sizes (data.length + 1) ⟨data, 0⟩ [] (.new requestedAddresses)

end StackPulse.Kallsyms
