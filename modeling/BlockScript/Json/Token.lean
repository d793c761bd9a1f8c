import BlockScript.Json.Basic
import BlockScript.Text.Numeral

/-!
# JSON tokens

The characters of a document are read one at a time.  A `Scan` holds the tokens found so
far and what the next character continues: nothing, a word (a literal name or a number), or
a string.  `scalar?` reads a finished word by the number grammar and the literal names,
`NaN` and the infinities among them.

Every text has tokens.  Characters that make no token are `junk`, and nothing is read behind
them; a number with too many digits is `oversized`.
-/

namespace BlockScript.Json

inductive Token where
  | openArray
  | closeArray
  | openObject
  | closeObject
  | colon
  | comma
  | text (value : Json)
  | scalar (value : Json)
  /-- A number with too many digits. -/
  | oversized
  | junk

/-- How a text is read where readers differ. -/
inductive Dialect where
  /-- An escape for half of a surrogate pair is refused, and the limit on digits holds for the
  integer part of every number, its sign included. -/
  | strict
  /-- A string with half of a surrogate pair is kept as one that stands for no text, and the
  limit on digits holds for integers only. -/
  | lenient
  deriving DecidableEq

/-! ### Words -/

/-- The value of a run of decimal digits. -/
def digitsValue (cs : List Char) : Nat :=
  cs.foldl (fun n c => 10 * n + (c.toNat - '0'.toNat)) 0

/-- An integer part: a single zero, or digits that do not start with one. -/
def isIntegerPart : List Char → Bool
  | [] => false
  | ['0'] => true
  | c :: rest => c != '0' && (c :: rest).all Char.isDigit

/-- An exponent after its mark: an optional sign and at least one digit. -/
def exponent? : List Char → Option Int
  | '+' :: ds => if ds.isEmpty || !ds.all Char.isDigit then none else some (digitsValue ds)
  | '-' :: ds => if ds.isEmpty || !ds.all Char.isDigit then none else some (-(digitsValue ds : Int))
  | ds => if ds.isEmpty || !ds.all Char.isDigit then none else some (digitsValue ds)

/-- What follows the integer part `whole`: nothing, a fraction, an exponent, or both. -/
def afterInteger? (negative : Bool) (whole : List Char) : List Char → Option Number
  | [] => some (.int (if negative then -(digitsValue whole : Int) else digitsValue whole))
  | '.' :: rest =>
    let fraction := rest.takeWhile Char.isDigit
    let mantissa := digitsValue (whole ++ fraction)
    if fraction.isEmpty then none
    else match rest.dropWhile Char.isDigit with
      | [] => some (.decimal negative mantissa (-(fraction.length : Int)))
      | mark :: ds =>
        if mark == 'e' || mark == 'E' then
          (exponent? ds).map fun e => .decimal negative mantissa (e - fraction.length)
        else none
  | mark :: ds =>
    if mark == 'e' || mark == 'E' then
      (exponent? ds).map fun e => .decimal negative (digitsValue whole) e
    else none

/-- A number without its sign. -/
def magnitude? (negative : Bool) (cs : List Char) : Option Number :=
  let whole := cs.takeWhile Char.isDigit
  if isIntegerPart whole then afterInteger? negative whole (cs.dropWhile Char.isDigit) else none

def number? : List Char → Option Number
  | '-' :: cs => magnitude? true cs
  | cs => magnitude? false cs

/-- The value of a finished word. -/
def scalar? (cs : List Char) : Option Json :=
  match String.ofList cs with
  | "null" => some .null
  | "true" => some (.bool true)
  | "false" => some (.bool false)
  | "NaN" => some (.num .nan)
  | "Infinity" => some (.num (.infinity false))
  | "-Infinity" => some (.num (.infinity true))
  | _ => (number? cs).map .num

/-- Whether a number goes on behind its integer part: with a point and a digit, or with the
mark of an exponent, perhaps a sign, and a digit. -/
def goesOn : List Char → Bool
  | '.' :: d :: _ => d.isDigit
  | mark :: sign :: rest =>
    (mark == 'e' || mark == 'E') &&
      (sign.isDigit || ((sign == '+' || sign == '-') && (rest.head?.map Char.isDigit).getD false))
  | _ => false

/-- Whether the number at the front of a word has too many digits. -/
def isOversized (dialect : Dialect) (cs : List Char) : Bool :=
  let digits := if cs.head? == some '-' then cs.drop 1 else cs
  let whole := digits.takeWhile Char.isDigit
  match dialect with
  | .strict => Text.maxDigits < whole.length + (cs.length - digits.length)
  | .lenient =>
    Text.maxDigits < whole.length && isIntegerPart whole && !goesOn (digits.drop whole.length)

/-- The token of a finished word. -/
def wordToken (dialect : Dialect) (cs : List Char) : Token :=
  if isOversized dialect cs then .oversized
  else match scalar? cs with
    | some value => .scalar value
    | none => .junk

/-! ### Strings -/

/-- Joins the two halves of each surrogate pair; `none` when a half stands alone. -/
def joinSurrogates : List Nat → Option (List Char)
  | [] => some []
  | u :: rest =>
    if u < 0xD800 || 0xDFFF < u then (joinSurrogates rest).map (Char.ofNat u :: ·)
    else match rest with
      | [] => none
      | v :: rest =>
        if u < 0xDC00 && 0xDC00 ≤ v && v ≤ 0xDFFF then
          (joinSurrogates rest).map (Char.ofNat (0x10000 + (u - 0xD800) * 0x400 + (v - 0xDC00)) :: ·)
        else none

/-- The token of a finished string, given its code units. -/
def stringToken (dialect : Dialect) (units : List Nat) : Token :=
  match joinSurrogates units, dialect with
  | some cs, _ => .text (.str (String.ofList cs))
  | none, .lenient => .text .brokenStr
  | none, .strict => .junk

/-- The character an escape letter stands for. -/
def escaped? : Char → Option Char
  | '"' => some '"'
  | '\\' => some '\\'
  | '/' => some '/'
  | 'b' => some '\x08'
  | 'f' => some '\x0c'
  | 'n' => some '\n'
  | 'r' => some '\r'
  | 't' => some '\t'
  | _ => none

def hexValue? (c : Char) : Option Nat :=
  if c.isDigit then some (c.toNat - '0'.toNat)
  else if 'a' ≤ c && c ≤ 'f' then some (c.toNat - 'a'.toNat + 10)
  else if 'A' ≤ c && c ≤ 'F' then some (c.toNat - 'A'.toNat + 10)
  else none

/-! ### Scanning -/

/-- What the next character continues; code units and word characters are held last first. -/
inductive Mode where
  | between
  | word (chars : List Char)
  | text (units : List Nat)
  | escape (units : List Nat)
  /-- Inside a four-digit escape: the value so far and the digits still to come. -/
  | hex (units : List Nat) (value left : Nat)
  /-- Behind junk: nothing is read any more. -/
  | stuck

structure Scan where
  mode : Mode := .between
  /-- The tokens found, last first. -/
  tokens : List Token := []

/-- A character outside words and strings. -/
def Scan.start (tokens : List Token) (c : Char) : Scan :=
  match c with
  | '[' => ⟨.between, .openArray :: tokens⟩
  | ']' => ⟨.between, .closeArray :: tokens⟩
  | '\x7b' => ⟨.between, .openObject :: tokens⟩
  | '\x7d' => ⟨.between, .closeObject :: tokens⟩
  | ':' => ⟨.between, .colon :: tokens⟩
  | ',' => ⟨.between, .comma :: tokens⟩
  | '"' => ⟨.text [], tokens⟩
  | ' ' => ⟨.between, tokens⟩
  | '\t' => ⟨.between, tokens⟩
  | '\n' => ⟨.between, tokens⟩
  | '\r' => ⟨.between, tokens⟩
  | c => ⟨.word [c], tokens⟩

/-- The characters that end a word. -/
def endsWord (c : Char) : Bool := " \t\n\r[]\x7b\x7d:,\"".toList.contains c

/-- A token is found: it is kept, and junk ends the reading. -/
def Scan.found (s : Scan) (t : Token) : Scan :=
  match t with
  | .junk => ⟨.stuck, .junk :: s.tokens⟩
  | t => ⟨.between, t :: s.tokens⟩

/-- Reads one character. -/
def Scan.step (dialect : Dialect) (s : Scan) (c : Char) : Scan :=
  match s.mode with
  | .between => .start s.tokens c
  | .word cs =>
    if endsWord c then
      let s := s.found (wordToken dialect cs.reverse)
      match s.mode with
      | .stuck => s
      | _ => .start s.tokens c
    else ⟨.word (c :: cs), s.tokens⟩
  | .text units =>
    if c == '"' then s.found (stringToken dialect units.reverse)
    else if c == '\\' then ⟨.escape units, s.tokens⟩
    else if c.toNat < 0x20 then s.found .junk
    else ⟨.text (c.toNat :: units), s.tokens⟩
  | .escape units =>
    if c == 'u' then ⟨.hex units 0 4, s.tokens⟩
    else match escaped? c with
      | some e => ⟨.text (e.toNat :: units), s.tokens⟩
      | none => s.found .junk
  | .hex units value left => match hexValue? c with
    | none => s.found .junk
    | some d =>
      let value := 16 * value + d
      if left ≤ 1 then ⟨.text (value :: units), s.tokens⟩ else ⟨.hex units value (left - 1), s.tokens⟩
  | .stuck => s

/-- The tokens at the end of the text; an open string is junk. -/
def Scan.finish (dialect : Dialect) (s : Scan) : List Token :=
  match s.mode with
  | .between => s.tokens.reverse
  | .word cs => (s.found (wordToken dialect cs.reverse)).tokens.reverse
  | .stuck => s.tokens.reverse
  | _ => (s.found .junk).tokens.reverse

/-- The tokens of a text. -/
def tokens (dialect : Dialect) (cs : List Char) : List Token :=
  (cs.foldl (Scan.step dialect) {}).finish dialect

end BlockScript.Json
