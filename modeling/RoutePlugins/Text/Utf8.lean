import RoutePlugins.Text.Basic

/-!
# UTF-8

Writing characters as bytes, and reading bytes back in three ways: refusing ill-formed bytes,
skipping them, or putting a replacement character in their place. Ill-formed bytes are grouped into
the longest runs that begin some character, so each group has one flaw, one place and one size. Half
a surrogate pair has no bytes: a text that holds one is refused, or a question mark is written for
it.
-/

namespace RoutePlugins

/-- The content of a file or of a piece of source. -/
abbrev Bytes := List UInt8

namespace Utf8

/-- The bytes of a list of characters. -/
def encodeChars (cs : List Char) : Bytes := cs.flatMap String.utf8EncodeChar

/-- A run of halves that have no bytes. -/
structure Unencodable where
  /-- The offset of the first. -/
  start : Nat
  /-- How many there are. -/
  count : Nat
  /-- The number of the first. -/
  code : Nat
  deriving DecidableEq, Repr

/-- The first run of halves that begins with a refused one, in code points from offset `start`. -/
def refusedRun? (refused : CodePoint → Bool) : Nat → List CodePoint → Option Unencodable
  | _, [] => none
  | start, p :: ps =>
    if refused p then some ⟨start, 1 + (ps.takeWhile CodePoint.isHalf).length, p.code⟩
    else refusedRun? refused (start + 1) ps

/-- The bytes of a text, or the first run in it that has none. -/
def encode (t : Text) : Except Unencodable Bytes :=
  match refusedRun? CodePoint.isHalf 0 t.points with
  | some run => .error run
  | none => .ok (encodeChars t.chars)

/-- The bytes of a text, with a question mark for every half. -/
def encodeReplacing (t : Text) : Bytes := encodeChars t.chars

/-- What is wrong with a group of bytes. -/
inductive Flaw where
  /-- The byte begins no character. -/
  | start
  /-- A byte that should continue a character does not. -/
  | continuation
  /-- The bytes end inside a character. -/
  | truncated
  deriving DecidableEq, Repr

/-- A group of bytes read together: a character, or a flaw. -/
structure Group where
  /-- The character, if the group is well formed. -/
  result : Except Flaw Char
  /-- How many bytes the group takes. -/
  size : Nat

/-- Read the continuation bytes of a character, each within its own bounds. -/
def readTail : List (UInt8 × UInt8) → Bytes → Nat → Nat → Group
  | [], _, code, size => ⟨.ok (Char.ofNat code), size⟩
  | _ :: _, [], _, size => ⟨.error .truncated, size⟩
  | (low, high) :: bounds, b :: bs, code, size =>
    if low ≤ b && b ≤ high then readTail bounds bs (64 * code + (b.toNat - 0x80)) (size + 1)
    else ⟨.error .continuation, size⟩

/-- The bounds of an ordinary continuation byte. -/
def anyTail : UInt8 × UInt8 := (0x80, 0xbf)

/-- The group that begins with byte `b` and goes on with `bs`. -/
def firstGroup (b : UInt8) (bs : Bytes) : Group :=
  let tail (lead : Nat) (bounds : List (UInt8 × UInt8)) := readTail bounds bs (b.toNat - lead) 1
  if b < 0x80 then ⟨.ok (Char.ofNat b.toNat), 1⟩
  else if b < 0xc2 then ⟨.error .start, 1⟩
  else if b < 0xe0 then tail 0xc0 [anyTail]
  else if b == 0xe0 then tail 0xe0 [(0xa0, 0xbf), anyTail]
  else if b == 0xed then tail 0xe0 [(0x80, 0x9f), anyTail]
  else if b < 0xf0 then tail 0xe0 [anyTail, anyTail]
  else if b == 0xf0 then tail 0xf0 [(0x90, 0xbf), anyTail, anyTail]
  else if b < 0xf4 then tail 0xf0 [anyTail, anyTail, anyTail]
  else if b == 0xf4 then tail 0xf0 [(0x80, 0x8f), anyTail, anyTail]
  else ⟨.error .start, 1⟩

/-- The groups of the bytes after the next `skip` ones. -/
def groupsFrom : Nat → Bytes → List Group
  | _, [] => []
  | skip + 1, _ :: bs => groupsFrom skip bs
  | 0, b :: bs =>
    let g := firstGroup b bs
    g :: groupsFrom (g.size - 1) bs

/-- A byte string cut into characters and ill-formed groups. -/
def groups (bs : Bytes) : List Group := groupsFrom 0 bs

/-- The first flaw of a byte string. -/
structure Error where
  /-- What is wrong. -/
  flaw : Flaw
  /-- The first byte of the group. -/
  byte : UInt8
  /-- Where the group begins. -/
  start : Nat
  /-- How many bytes it takes. -/
  size : Nat

/-- The characters of well-formed groups, the first of which begins at `start` of the bytes `bs`. -/
def collect (bs : Bytes) (start : Nat) : List Group → Except Error (List Char)
  | [] => .ok []
  | g :: gs =>
    match g.result with
    | .ok c => (collect bs (start + g.size) gs).map (c :: ·)
    | .error flaw => .error ⟨flaw, bs.getD start 0, start, g.size⟩

/-- The text of a well-formed byte string, or its first flaw. -/
def decode (bs : Bytes) : Except Error Text := (collect bs 0 (groups bs)).map .ofChars

/-- The text of the well-formed part of a byte string. -/
def decodeSkipping (bs : Bytes) : Text :=
  .ofChars ((groups bs).filterMap fun g => g.result.toOption)

/-- The text of a byte string, with a replacement character for every ill-formed group. -/
def decodeReplacing (bs : Bytes) : Text :=
  .ofChars ((groups bs).map fun g => g.result.toOption.getD '�')

/-- The reason given for a flaw. -/
def Flaw.reason : Flaw → String
  | .start => "invalid start byte"
  | .continuation => "invalid continuation byte"
  | .truncated => "unexpected end of data"

end Utf8

end RoutePlugins
