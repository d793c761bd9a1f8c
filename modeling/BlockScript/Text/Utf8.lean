/-!
# UTF-8

Bytes to text and back.  A byte-order mark at the front of a file is not part of its text.
-/

namespace BlockScript.Text

/-- The byte-order mark. -/
def byteOrderMark : List UInt8 := [0xEF, 0xBB, 0xBF]

/-- The text of a file without its byte-order mark; `none` when the bytes are not UTF-8.  Bytes
that only begin a mark are taken for the start of one, and no text follows. -/
def decodeFile? (bytes : List UInt8) : Option String :=
  if bytes.isPrefixOf byteOrderMark then some ""
  else
    let rest := if byteOrderMark.isPrefixOf bytes then bytes.drop 3 else bytes
    String.fromUTF8? (ByteArray.mk rest.toArray)

def encode (s : String) : List UInt8 := s.toUTF8.toList

/-- The bytes of a text behind a byte-order mark. -/
def encodeFile (s : String) : List UInt8 := byteOrderMark ++ encode s

/-- The character at the front of bytes that start with a whole one. -/
def firstChar? (bytes : List UInt8) : Option Char :=
  [1, 2, 3, 4].findSome? fun n =>
    (String.fromUTF8? (ByteArray.mk (bytes.take n).toArray)).bind fun s => s.toList.head?

/-- The text of bytes, with a replacement character for what is not UTF-8.  The first `skip`
bytes belong to a character that has been read. -/
def decodeLossy (skip : Nat) : List UInt8 → List Char
  | [] => []
  | b :: rest => match skip with
    | n + 1 => decodeLossy n rest
    | 0 => match firstChar? (b :: rest) with
      | some c => c :: decodeLossy (c.utf8Size - 1) rest
      | none => '\ufffd' :: decodeLossy 0 rest

/-- A text without the mark character at its front. -/
def dropMark (s : String) : String :=
  match s.toList with
  | '\ufeff' :: rest => String.ofList rest
  | _ => s

end BlockScript.Text
