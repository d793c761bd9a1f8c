import BlockScript.Text.Blank

/-!
# Integer numerals

Two ways in which text is read as an integer.  Both allow blanks around the numeral, a sign,
and single underscores between digits, and both limit the number of digits.

* `setting`: digits of ASCII, and a fraction of zeros may follow.
* `option?`: the decimal digits of every script.
-/

namespace BlockScript.Text

/-- The digit zero of every script that writes numbers in base ten; the other nine digits
follow it. -/
def zeros : List Nat :=
  [0x30, 0x660, 0x6F0, 0x7C0, 0x966, 0x9E6, 0xA66, 0xAE6, 0xB66, 0xBE6, 0xC66, 0xCE6, 0xD66,
   0xDE6, 0xE50, 0xED0, 0xF20, 0x1040, 0x1090, 0x17E0, 0x1810, 0x1946, 0x19D0, 0x1A80, 0x1A90,
   0x1B50, 0x1BB0, 0x1C40, 0x1C50, 0xA620, 0xA8D0, 0xA900, 0xA9D0, 0xA9F0, 0xAA50, 0xABF0,
   0xFF10, 0x104A0, 0x10D30, 0x11066, 0x110F0, 0x11136, 0x111D0, 0x112F0, 0x11450, 0x114D0,
   0x11650, 0x116C0, 0x11730, 0x118E0, 0x11950, 0x11C50, 0x11D50, 0x11DA0, 0x16A60, 0x16AC0,
   0x16B50, 0x1D7CE, 0x1D7D8, 0x1D7E2, 0x1D7EC, 0x1D7F6, 0x1E140, 0x1E2F0, 0x1E950, 0x1FBF0]

/-- The value of a decimal digit of any script. -/
def digit? (c : Char) : Option Nat :=
  (zeros.find? fun z => z ≤ c.toNat && c.toNat ≤ z + 9).map fun z => c.toNat - z

/-- The value of an ASCII digit. -/
def asciiDigit? (c : Char) : Option Nat := if c.isDigit then some (c.toNat - '0'.toNat) else none

/-- The value of digits with single underscores between them.  `value` is what stands before,
and `joined` says that a digit came last, so that an underscore may follow. -/
def digits? (digit : Char → Option Nat) (value : Nat) (joined : Bool) : List Char → Option Nat
  | [] => if joined then some value else none
  | c :: rest =>
    if c == '_' then (if joined then digits? digit value false rest else none)
    else (digit c).bind fun d => digits? digit (10 * value + d) true rest

/-- Digits behind an optional sign. -/
def signed? (digit : Char → Option Nat) : List Char → Option Int
  | '-' :: cs => (digits? digit 0 false cs).map fun n => -(n : Int)
  | '+' :: cs => (digits? digit 0 false cs).map Int.ofNat
  | cs => (digits? digit 0 false cs).map Int.ofNat

/-- Blanks around a numeral; the information separators are not among them. -/
def isNumeralBlank (c : Char) : Bool := isBlank c && !(28 ≤ c.toNat && c.toNat ≤ 31)

/-- A numeral without the blanks around it. -/
def trimNumeral (s : String) : List Char :=
  ((s.toList.dropWhile isNumeralBlank).reverse.dropWhile isNumeralBlank).reverse

/-- The most digits a numeral may have. -/
def maxDigits : Nat := 4300

/-! ### Settings -/

/-- Why a text is no integer. -/
inductive NumeralFlaw where
  | unreadable
  | oversized
  deriving DecidableEq, Repr

/-- A numeral behind its leading zeros, where underscores count as zeros.  `last` is the last of
them, and it stays when nothing or a fraction follows. -/
def afterZeros (last : Char) : List Char → Option (List Char)
  | [] => some [last]
  | c :: rest =>
    if c == '0' || c == '_' then afterZeros c rest
    else if c.isDigit || c == '-' then some (c :: rest)
    else if c == '.' then some (last :: c :: rest)
    else none

/-- A numeral without leading zeros; `none` when it starts with neither a digit nor a minus. -/
def dropZeros : List Char → Option (List Char)
  | [] => none
  | c :: rest =>
    if c == '0' then afterZeros c rest
    else if c.isDigit || c == '-' then some (c :: rest)
    else none

/-- A numeral without a fraction that says nothing: a point and at least one zero. -/
def dropZeroFraction (cs : List Char) : List Char :=
  match cs.dropWhile (· != '.') with
  | _ :: zero :: rest => if (zero :: rest).all (· == '0') then cs.takeWhile (· != '.') else cs
  | _ => cs

/-- Whether two underscores stand side by side. -/
def hasDoubleUnderscore : List Char → Bool
  | '_' :: '_' :: _ => true
  | _ :: rest => hasDoubleUnderscore rest
  | [] => false

/-- A numeral without its underscores, as long as each of them stands alone and inside. -/
def dropUnderscores (cs : List Char) : List Char :=
  if cs.head? == some '_' || cs.getLast? == some '_' || hasDoubleUnderscore cs then cs
  else cs.filter (· != '_')

/-- The integer of a plain numeral: perhaps a minus, then digits that do not start with a zero
unless it is the only one.  The minus counts as a digit for the limit. -/
def plainInt (cs : List Char) : Except NumeralFlaw Int :=
  let digits := if cs.head? == some '-' then cs.drop 1 else cs
  let run := digits.takeWhile Char.isDigit
  if run.isEmpty || (run.head? == some '0' && 1 < digits.length) then .error .unreadable
  else if maxDigits < run.length + (cs.length - digits.length) then .error .oversized
  else if run.length < digits.length then .error .unreadable
  else match digits? asciiDigit? 0 false run with
    | some n => .ok (if cs.head? == some '-' then -(n : Int) else n)
    | none => .error .unreadable

/-- The integer written in a setting. -/
def setting (s : String) : Except NumeralFlaw Int :=
  let unsigned := match trimNumeral s with
    | '+' :: '-' :: _ => []
    | '+' :: rest => rest
    | cs => cs
  match dropZeros unsigned with
  | none => .error .unreadable
  | some cs => plainInt (dropUnderscores (dropZeroFraction cs))

/-! ### Options -/

/-- The integer written on the command line. -/
def option? (s : String) : Option Int :=
  let cs := trimNumeral s
  if maxDigits < (cs.filter fun c => (digit? c).isSome).length then none else signed? digit? cs

end BlockScript.Text
