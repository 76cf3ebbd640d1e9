import StackPulse.FrameContexts
import StackPulse.StableSort
import StackPulse.TextLines

/-!
Perf maps: the text files in which runtimes list their generated code. A line has
the start and the size of a function in hexadecimal and its name. A map is loaded
from the whole file, or from the lines appended to a file that was loaded before.
-/
namespace StackPulse.PerfMaps

open FrameContexts (partitionPoint)
open StableSort TextLines

def isAsciiWhitespace (c : Char) : Bool :=
  c = ' ' || c = '\t' || c = '\n' || c = '\x0c' || c = '\r'

/-- The characters with the Unicode property White_Space. -/
def isWhitespace (c : Char) : Bool :=
  let n := c.toNat
  (9 ≤ n && n ≤ 13) || n = 0x20 || n = 0x85 || n = 0xA0 || n = 0x1680 ||
    (0x2000 ≤ n && n ≤ 0x200A) || n = 0x2028 || n = 0x2029 || n = 0x202F || n = 0x205F ||
    n = 0x3000

def isAsciiDigit (c : Char) : Bool := '0' ≤ c && c ≤ '9'

def trim (text : List Char) : List Char :=
  ((text.dropWhile isWhitespace).reverse.dropWhile isWhitespace).reverse

/-- The parts before and after the last colon. -/
def rsplitOnceColon (text : List Char) : Option (List Char × List Char) :=
  match text.reverse.findIdx? (· = ':') with
  | none => none
  | some i => some (text.take (text.length - i - 1), text.drop (text.length - i))

def hexDigit (c : Char) : Option ℕ :=
  if '0' ≤ c && c ≤ '9' then some (c.toNat - '0'.toNat)
  else if 'a' ≤ c && c ≤ 'f' then some (c.toNat - 'a'.toNat + 10)
  else if 'A' ≤ c && c ≤ 'F' then some (c.toNat - 'A'.toNat + 10)
  else none

def hexValue (digits : List Char) : Option ℕ :=
  digits.foldlM (fun value c => do
    let digit ← hexDigit c
    if value * 16 + digit < 2 ^ 64 then some (value * 16 + digit) else none) 0

/-- `u64::from_str_radix` with radix 16: there may be a plus sign, and there has to
be a digit. -/
def fromHex : List Char → Option ℕ
  | [] => none
  | ['+'] => none
  | '+' :: digits => hexValue digits
  | digits => hexValue digits

/-- `trim_start_matches("0x")`, which strips the mark as often as it is there. -/
def trimHexMark : List Char → List Char
  | '0' :: 'x' :: rest => trimHexMark rest
  | text => text

inductive PerfMapPayload
  | native (name : List Char)
  | python (function file : List Char)
  deriving DecidableEq, Repr

structure PerfMapSymbol where
  start : ℕ
  stop : ℕ
  payload : PerfMapPayload
  deriving DecidableEq, Repr

/-- A field up to the next white space, which is dropped, and the rest. -/
def takeAsciiField (input : List Char) : Option (List Char × List Char) :=
  let input := input.dropWhile isAsciiWhitespace
  match input.findIdx? isAsciiWhitespace with
  | none => none
  | some stop => some (input.take stop, input.drop (stop + 1))

/-- A line number at the end of a file name. -/
def stripPythonPerfMapLineSuffix (file : List Char) : List Char :=
  match rsplitOnceColon file with
  | some (path, line) => if path ≠ [] ∧ line ≠ [] ∧ line.all isAsciiDigit then path else file
  | none => file

def splitPythonBody (body : List Char) : List Char × List Char :=
  match body.findIdx? (· = ':'), body.findIdx? (· = ' ') with
  | some colon, some space =>
      if colon < space then (body.take colon, body.drop (colon + 1))
      else (body.take space, body.drop (space + 1))
  | some colon, none => (body.take colon, body.drop (colon + 1))
  | none, some space => (body.take space, body.drop (space + 1))
  | none, none => (body, ['~'])

def parsePythonPerfMapSymbol (name : List Char) : Option (List Char × List Char) :=
  match name with
  | 'p' :: 'y' :: ':' :: ':' :: rest =>
      let body := trim rest
      if body = [] then none
      else
        let (func, file) := splitPythonBody body
        let func := trim func
        if func = [] then none
        else
          let file := stripPythonPerfMapLineSuffix (trim file)
          some (func, if file = [] then ['~'] else file)
  | _ => none

def parsePerfMapLine (line : List Char) : Option PerfMapSymbol := do
  let (start, rest) ← takeAsciiField line
  let (len, name) ← takeAsciiField rest
  if name = [] then none
  else
    let start ← fromHex (trimHexMark start)
    let len ← fromHex (trimHexMark len)
    if len = 0 then none
    else if start + len < 2 ^ 64 then
      let payload :=
        match parsePythonPerfMapSymbol name with
        | some (function, file) => .python function file
        | none => .native name
      some ⟨start, start + len, payload⟩
    else none

/-- The complete lines that a map was parsed from, and the start of the symbol in
the line after them. -/
structure ParsedPerfMapText where
  text : List UInt8
  unterminatedStart : Option ℕ
  deriving DecidableEq, Repr

structure PerfMap where
  symbols : List PerfMapSymbol
  maxEnd : List ℕ
  module : List Char
  parsed : Option ParsedPerfMapText
  deriving DecidableEq, Repr

/-- The largest end up to each symbol. -/
def runningMax : ℕ → List PerfMapSymbol → List ℕ
  | _, [] => []
  | largest, symbol :: rest => max symbol.stop largest :: runningMax (max symbol.stop largest) rest

def new (symbols : List PerfMapSymbol) (module : List Char) (parsed : Option ParsedPerfMapText) :
    PerfMap :=
  let symbols := sortByKey PerfMapSymbol.start symbols
  ⟨symbols, runningMax 0 symbols, module, parsed⟩

/-- The lookup walks back from the last symbol that starts at or before the address,
as long as an end behind the address can still come. -/
def findPerfMapSymbol (map : PerfMap) (address : ℕ) : Option (PerfMapSymbol × List Char) :=
  let candidates := partitionPoint (fun symbol => decide (symbol.start ≤ address)) map.symbols
  let found := (((map.symbols.take candidates).zip (map.maxEnd.take candidates)).reverse.takeWhile
    fun entry => address < entry.2).find? fun entry => address < entry.1.stop
  found.map fun entry => (entry.1, map.module)

def MAX_PERF_MAP_SIZE : ℕ := 64 * 1024 * 1024

/-- The length of the part that ends with the last newline. -/
def completeLen (bytes : List UInt8) : ℕ :=
  match bytes.reverse.findIdx? (· = newline) with
  | none => 0
  | some i => bytes.length - i

/-- What a load starts from: the symbols of the lines that are already parsed and
the position after them, if the file still begins with these lines. -/
def reuse (previous : Option PerfMap) (bytes : List UInt8) : List PerfMapSymbol × ℕ :=
  match previous with
  | some ⟨symbols, _, _, some parsed⟩ =>
      if parsed.text.isPrefixOf bytes then
        let symbols :=
          match parsed.unterminatedStart with
          | some start =>
              symbols.eraseIdx
                (partitionPoint (fun symbol => decide (symbol.start ≤ start)) symbols - 1)
          | none => symbols
        (symbols, parsed.text.length)
      else ([], 0)
  | _ => ([], 0)

/-- Loads a file, which is absent if it cannot be read as a regular file. -/
def loadPerfMap (path : List Char) (file : Option (List UInt8)) (previous : Option PerfMap)
    (reloadable : Bool) : Option PerfMap :=
  match file with
  | none => none
  | some bytes =>
      if MAX_PERF_MAP_SIZE < bytes.length then none
      else
        let (symbols, offset) := reuse previous bytes
        let appended := bytes.drop offset
        let complete := appended.take (completeLen appended)
        let unterminated := appended.drop (completeLen appended)
        let symbols := symbols ++ (textLines (decodeLossy complete)).filterMap parsePerfMapLine
        let last := (textLines (decodeLossy unterminated)).findSome? parsePerfMapLine
        let parsed : ParsedPerfMapText :=
          ⟨bytes.take (offset + complete.length), last.map PerfMapSymbol.start⟩
        some (new (symbols ++ last.toList) path (if reloadable then some parsed else none))

end StackPulse.PerfMaps
