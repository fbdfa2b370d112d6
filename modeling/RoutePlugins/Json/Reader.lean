import RoutePlugins.Json.Basic

/-!
# Reading JSON

A reader of JSON documents that says where it stopped and what it expected there. Beside the
standard it takes `NaN`, `Infinity` and `-Infinity` as numbers. Of two fields with one name the
first keeps its place and the last gives the value. A half of a surrogate pair that stands alone
is kept. Two limits hold for documents that are otherwise well formed: on the digits
of a whole number, and on how deep lists and objects lie in one another.
-/

namespace RoutePlugins.Json

/-- What the reader missed. -/
inductive Expectation where
  | noByteOrderMark
  | value
  | propertyName
  | colon
  | comma
  | endOfText
  | printable
  | closingQuote
  | escape
  | hexEscape
  deriving DecidableEq, Repr

/-- Why the reader stopped. -/
inductive Stop where
  /-- It missed something, as it noticed at the character with this offset. -/
  | missed (what : Expectation) (offset : Nat)
  /-- A whole number has too many digits. -/
  | digits (count : Nat)
  /-- A list or an object lies too deep. -/
  | depth (isObject : Bool)
  deriving DecidableEq, Repr

/-- A place in a document: the offset of the next character, and the characters from it on. -/
structure Cursor where
  offset : Nat
  rest : List CodePoint

namespace Cursor

/-- The place `n` characters further on. -/
def skip (c : Cursor) (n : Nat) : Cursor := ⟨c.offset + n, c.rest.drop n⟩

/-- The failure to find `missed` here. -/
def stop {α : Type} (c : Cursor) (missed : Expectation) : Except Stop α :=
  .error (.missed missed c.offset)

/-- The characters that may stand between tokens. -/
def isGap (p : CodePoint) : Bool := p == ' ' || p == '\t' || p == '\n' || p == '\r'

/-- The next place that holds no gap. -/
def skipGaps (c : Cursor) : Cursor := c.skip (c.rest.takeWhile isGap).length

end Cursor

/-- The value of a hexadecimal digit. -/
def hexValue? (p : CodePoint) : Option Nat :=
  let n := p.code
  if 0x30 ≤ n && n ≤ 0x39 then some (n - 0x30)
  else if 0x61 ≤ n && n ≤ 0x66 then some (n - 0x61 + 10)
  else if 0x41 ≤ n && n ≤ 0x46 then some (n - 0x41 + 10)
  else none

/-- The value of four hexadecimal digits. -/
def hex4? (a b c d : CodePoint) : Option Nat := do
  return (((← hexValue? a) * 16 + (← hexValue? b)) * 16 + (← hexValue? c)) * 16 + (← hexValue? d)

/-- The character of a one-letter escape. -/
def shortEscape? : CodePoint → Option Char
  | .char '"' => some '"'
  | .char '\\' => some '\\'
  | .char '/' => some '/'
  | .char 'b' => some '\x08'
  | .char 'f' => some '\x0c'
  | .char 'n' => some '\n'
  | .char 'r' => some '\r'
  | .char 't' => some '\t'
  | _ => none

/-- The first half of a pair. -/
def isHighSurrogate (n : Nat) : Bool := 0xd800 ≤ n && n < 0xdc00

/-- Read an escape whose backslash is at `offset`, in a string whose opening quote is at `opening`:
its code point, and how many it takes after the backslash. An escape of four digits has to have a
character after it, and the two halves of a pair are read together. -/
def readEscape (opening offset : Nat) : List CodePoint → Except Stop (CodePoint × Nat)
  | [] => .error (.missed .closingQuote opening)
  | .char 'u' :: a :: b :: c :: d :: tail =>
    match hex4? a b c d, tail with
    | some high, .char '\\' :: .char 'u' :: e :: f :: g :: h :: _ :: _ =>
      match isHighSurrogate high, hex4? e f g h with
      | true, none => .error (.missed .hexEscape (offset + 7))
      | true, some low =>
        match (CodePoint.ofCode high).join? (.ofCode low) with
        | some p => .ok (p, 11)
        | none => .ok (.ofCode high, 5)
      | false, _ => .ok (.ofCode high, 5)
    | some unit, _ :: _ => .ok (.ofCode unit, 5)
    | _, _ => .error (.missed .hexEscape (offset + 1))
  | .char 'u' :: _ => .error (.missed .hexEscape (offset + 1))
  | p :: _ =>
    match shortEscape? p with
    | some c => .ok (c, 1)
    | none => .error (.missed .escape offset)

/-- Read the rest of a string whose opening quote is at `opening`, after skipping `skip` code
points; `offset` is the offset of the next one, and `acc` holds the code points so far, in
reverse. -/
def readString (opening : Nat) :
    Nat → Nat → List CodePoint → List CodePoint → Except Stop (Text × Cursor)
  | _, _, _, [] => .error (.missed .closingQuote opening)
  | skip + 1, offset, acc, _ :: rest => readString opening skip (offset + 1) acc rest
  | 0, offset, acc, p :: rest =>
    if p == '"' then .ok (⟨acc.reverse⟩, ⟨offset + 1, rest⟩)
    else if p == '\\' then
      match readEscape opening offset rest with
      | .ok (e, size) => readString opening size (offset + 1) (e :: acc) rest
      | .error stop => .error stop
    else if p.code < 0x20 then .error (.missed .printable offset)
    else readString opening 0 (offset + 1) (p :: acc) rest

/-- A decimal digit. -/
def isNumeral (p : CodePoint) : Bool := 0x30 ≤ p.code && p.code ≤ 0x39

/-- The number that numerals write. -/
def numeralsValue (ps : List CodePoint) : Nat := ps.foldl (fun n p => 10 * n + (p.code - 0x30)) 0

/-- The numerals of the whole part of a number: one zero, or numerals that begin with no zero. -/
def wholeNumerals (ps : List CodePoint) : List CodePoint :=
  match ps with
  | .char '0' :: _ => [.char '0']
  | ps => ps.takeWhile isNumeral

/-- The numerals after a point; none if no numeral follows the point. -/
def fractionNumerals (ps : List CodePoint) : List CodePoint :=
  match ps with
  | .char '.' :: ps => ps.takeWhile isNumeral
  | _ => []

/-- The exponent at the front of `ps` and its length; none if it has no numerals. -/
def exponentPart? (ps : List CodePoint) : Option (Int × Nat) :=
  match ps with
  | e :: ps =>
    if e == 'e' || e == 'E' then
      let (sign, signed, ps) : Int × Nat × List CodePoint :=
        match ps with
        | .char '-' :: ps => (-1, 1, ps)
        | .char '+' :: ps => (1, 1, ps)
        | ps => (1, 0, ps)
      let numerals := ps.takeWhile isNumeral
      if numerals.isEmpty then none
      else some (sign * numeralsValue numerals, 1 + signed + numerals.length)
    else none
  | [] => none

/-- The most digits of a whole number. -/
def maxDigits : Nat := 4300

/-- Read a number. It is a double exactly if it has a fraction or an exponent. -/
def readNumber (start : Cursor) : Except Stop (Json × Cursor) :=
  let negative := start.rest.head? == some (.char '-')
  let body := if negative then start.skip 1 else start
  let whole := wholeNumerals body.rest
  if whole.isEmpty then start.stop .value
  else
    let afterWhole := body.skip whole.length
    let fraction := fractionNumerals afterWhole.rest
    let afterFraction :=
      if fraction.isEmpty then afterWhole else afterWhole.skip (1 + fraction.length)
    let digits := numeralsValue (whole ++ fraction)
    let scale : Int := -fraction.length
    match exponentPart? afterFraction.rest with
    | some (e, size) =>
      .ok (.float (.ofDecimal negative digits (scale + e)), afterFraction.skip size)
    | none =>
      if fraction.isEmpty then
        if maxDigits < whole.length then .error (.digits whole.length)
        else .ok (.int (if negative then -(digits : Int) else digits), afterFraction)
      else .ok (.float (.ofDecimal negative digits scale), afterFraction)

/-- The words that are values. -/
def wordValues : List (Text × Json) :=
  [("null", .null), ("true", .bool true), ("false", .bool false), ("NaN", .float .nan),
    ("Infinity", .float (.infinite false)), ("-Infinity", .float (.infinite true))]

/-- Read a word or a number. -/
def readScalar (c : Cursor) : Except Stop (Json × Cursor) :=
  match wordValues.find? fun w => w.1.points.isPrefixOf c.rest with
  | some (word, value) => .ok (value, c.skip word.length)
  | none => readNumber c

/-- Read the name of a field and the colon after it, up to the value. -/
def readName (c : Cursor) : Except Stop (Text × Cursor) :=
  match c.rest with
  | .char '"' :: rest => do
    let (name, after) ← readString c.offset 0 (c.offset + 1) [] rest
    let colon := after.skipGaps
    match colon.rest with
    | .char ':' :: _ => return (name, (colon.skip 1).skipGaps)
    | _ => colon.stop .colon
  | _ => c.stop .propertyName

mutual

/-- Read a value that may hold others `depth` deep. Every other step takes a character, so twice the
characters are fuel enough. -/
def readValue (depth : Nat) : Nat → Cursor → Except Stop (Json × Cursor)
  | 0, c => c.stop .value
  | fuel + 1, c =>
    match c.rest with
    | .char '"' :: rest => do
      let (s, after) ← readString c.offset 0 (c.offset + 1) [] rest
      return (.str s, after)
    | .char '{' :: _ =>
      let first := (c.skip 1).skipGaps
      match depth, first.rest with
      | 0, _ => .error (.depth true)
      | _ + 1, .char '}' :: _ => .ok (.obj [], first.skip 1)
      | depth + 1, _ => readFields depth fuel [] first
    | .char '[' :: _ =>
      let first := (c.skip 1).skipGaps
      match depth, first.rest with
      | 0, _ => .error (.depth false)
      | _ + 1, .char ']' :: _ => .ok (.arr [], first.skip 1)
      | depth + 1, _ => readItems depth fuel [] first
    | _ => readScalar c

/-- Read the fields of an object up to its end; `acc` holds the fields so far. -/
def readFields (depth : Nat) : Nat → List (Text × Json) → Cursor → Except Stop (Json × Cursor)
  | 0, _, c => c.stop .value
  | fuel + 1, acc, c => do
    let (name, start) ← readName c
    let (value, after) ← readValue depth fuel start
    let fields := Assoc.insert name value acc
    let mark := after.skipGaps
    match mark.rest with
    | .char '}' :: _ => return (.obj fields, mark.skip 1)
    | .char ',' :: _ => readFields depth fuel fields (mark.skip 1).skipGaps
    | _ => mark.stop .comma

/-- Read the items of a list up to its end; `acc` holds the items so far, in reverse. -/
def readItems (depth : Nat) : Nat → List Json → Cursor → Except Stop (Json × Cursor)
  | 0, _, c => c.stop .value
  | fuel + 1, acc, c => do
    let (value, after) ← readValue depth fuel c
    let mark := after.skipGaps
    match mark.rest with
    | .char ']' :: _ => return (.arr (value :: acc).reverse, mark.skip 1)
    | .char ',' :: _ => readItems depth fuel (value :: acc) (mark.skip 1).skipGaps
    | _ => mark.stop .comma

end

/-- Read a whole document whose values lie at most `depth` deep. -/
def readPoints (depth : Nat) (ps : List CodePoint) : Except Stop Json :=
  if ps.head? == some (.char '\ufeff') then .error (.missed .noByteOrderMark 0)
  else do
    let (value, after) ← readValue depth (2 * ps.length + 2) (Cursor.skipGaps ⟨0, ps⟩)
    let last := after.skipGaps
    if last.rest.isEmpty then return value else last.stop .endOfText

/-- What is wrong with a document at a place, by line, column and offset. -/
structure ReadError where
  missed : Expectation
  line : Nat
  column : Nat
  offset : Nat
  deriving DecidableEq, Repr

/-- Place an offset in the document. -/
def placed (ps : List CodePoint) (missed : Expectation) (offset : Nat) : ReadError :=
  let before := ps.take offset
  ⟨missed, before.count (.char '\n') + 1,
    (before.reverse.takeWhile (· != .char '\n')).length + 1, offset⟩

/-- Why a document cannot be read. -/
inductive ReadFault where
  | syntactic (e : ReadError)
  /-- A whole number has too many digits. -/
  | digits (count : Nat)
  /-- A list or an object lies too deep. -/
  | depth (isObject : Bool)
  deriving DecidableEq, Repr

/-- Place a failure in the document. -/
def Stop.locate (ps : List CodePoint) : Stop → ReadFault
  | .missed what offset => .syntactic (placed ps what offset)
  | .digits count => .digits count
  | .depth isObject => .depth isObject

/-- How deep the values of a document may lie in one another when a command reads it: what is left
of the thousand calls that may be open. It is no limit of documents. -/
def maxDepth : Nat := 988

/-- Read a document whose values lie at most `depth` deep. -/
def readWithin (depth : Nat) (text : Text) : Except ReadFault Json :=
  (readPoints depth text.points).mapError (·.locate text.points)

/-- Read a document. -/
def read (text : Text) : Except ReadFault Json := readWithin maxDepth text

/-- The words for what the reader missed. -/
def Expectation.text : Expectation → Text
  | .noByteOrderMark => "Unexpected UTF-8 BOM (decode using utf-8-sig)"
  | .value => "Expecting value"
  | .propertyName => "Expecting property name enclosed in double quotes"
  | .colon => "Expecting ':' delimiter"
  | .comma => "Expecting ',' delimiter"
  | .endOfText => "Extra data"
  | .printable => "Invalid control character at"
  | .closingQuote => "Unterminated string starting at"
  | .escape => "Invalid \\escape"
  | .hexEscape => "Invalid \\uXXXX escape"

/-- The message of a place at which a document is wrong. -/
def ReadError.message (e : ReadError) : Text :=
  e.missed.text ++ s!": line {e.line} column {e.column} (char {e.offset})"

/-- The message for a whole number with too many digits. -/
def digitsMessage (count : Nat) : Text :=
  s!"Exceeds the limit ({maxDigits} digits) for integer string conversion: " ++
    s!"value has {count} digits; use sys.set_int_max_str_digits() to increase the limit"

/-- The message of a failure to read. -/
def ReadFault.message : ReadFault → Text
  | .syntactic e => e.message
  | .digits count => digitsMessage count
  | .depth isObject =>
    "maximum recursion depth exceeded while decoding a JSON " ++
      (if isObject then "object" else "array") ++ " from a unicode string"

end RoutePlugins.Json
