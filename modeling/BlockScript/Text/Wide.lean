import BlockScript.Text.Utf8

/-!
# Wide encodings

JSON text starts with an ASCII character, so the zero bytes at its front tell whether it is
written in units of one, two or four bytes, and in which order their bytes stand.
`decodeDocument?` reads a text in the encoding that its front shows.

Half of a surrogate pair is not a character.  It is written out as its JSON escape, which
says the same inside a string and nothing anywhere else.
-/

namespace BlockScript.Text

inductive ByteOrder where
  | big
  | little
  deriving DecidableEq, Repr

inductive Encoding where
  | utf8
  | utf16 (order : ByteOrder)
  | utf32 (order : ByteOrder)
  deriving DecidableEq, Repr

/-- The encoding that the first bytes show. -/
def Encoding.ofFront : List UInt8 → Encoding
  | 0 :: 0 :: _ :: _ :: _ => .utf32 .big
  | 0 :: _ :: _ :: _ :: _ => .utf16 .big
  | _ :: 0 :: 0 :: 0 :: _ => .utf32 .little
  | _ :: 0 :: _ :: _ :: _ => .utf16 .little
  | [0, _] => .utf16 .big
  | [_, 0] => .utf16 .little
  | _ => .utf8

/-- The number whose bytes these are, the last one counting least. -/
def bigValue (bytes : List UInt8) : Nat := bytes.foldl (fun n b => 256 * n + b.toNat) 0

def ByteOrder.value (order : ByteOrder) (bytes : List UInt8) : Nat :=
  match order with
  | .big => bigValue bytes
  | .little => bigValue bytes.reverse

/-- The units of two bytes; `none` when a byte is left over. -/
def pairs (order : ByteOrder) : List UInt8 → Option (List Nat)
  | [] => some []
  | a :: b :: rest => (pairs order rest).map (order.value [a, b] :: ·)
  | _ => none

/-- The units of four bytes; `none` when bytes are left over. -/
def quads (order : ByteOrder) : List UInt8 → Option (List Nat)
  | [] => some []
  | a :: b :: c :: d :: rest => (quads order rest).map (order.value [a, b, c, d] :: ·)
  | _ => none

/-- The escape of a 16-bit unit. -/
def unitEscape (u : Nat) : List Char :=
  '\\' :: 'u' :: [u / 0x1000 % 16, u / 0x100 % 16, u / 0x10 % 16, u % 16].map Nat.digitChar

def isHighHalf (u : Nat) : Bool := 0xD800 ≤ u && u < 0xDC00

def isLowHalf (u : Nat) : Bool := 0xDC00 ≤ u && u < 0xE000

/-- A unit that is a character, or half of a pair by its escape. -/
def unitText (u : Nat) : List Char :=
  if isHighHalf u || isLowHalf u then unitEscape u else [Char.ofNat u]

/-- The text of 16-bit units; two halves of a surrogate pair are one character. -/
def joinUnits : List Nat → List Char
  | u :: v :: rest =>
    if isHighHalf u && isLowHalf v then
      Char.ofNat (0x10000 + (u - 0xD800) * 0x400 + (v - 0xDC00)) :: joinUnits rest
    else unitText u ++ joinUnits (v :: rest)
  | [u] => unitText u
  | [] => []

/-- The text of a JSON document; `none` when the bytes are no text. -/
def decodeDocument? (bytes : List UInt8) : Option String :=
  match Encoding.ofFront bytes with
  | .utf8 => (String.fromUTF8? (ByteArray.mk bytes.toArray)).map dropMark
  | .utf16 order => (pairs order bytes).map fun units => String.ofList (joinUnits units)
  | .utf32 order => (quads order bytes).bind fun units =>
    if units.all (· < 0x110000) then some (String.ofList (units.flatMap unitText)) else none

end BlockScript.Text
