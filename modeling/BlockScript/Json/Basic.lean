/-!
# JSON values

`Json` is the value of a document.  Numbers keep what the document wrote: an integer
numeral is told apart from one with a fraction or an exponent, because the two are not
accepted in the same places.  An object is the list of its members in the order of their
first appearance.
-/

namespace BlockScript

/-- A number as written. -/
inductive Number where
  /-- A numeral without fraction and exponent. -/
  | int (n : Int)
  /-- `± mantissa · 10 ^ exponent`, written with a fraction or an exponent. -/
  | decimal (negative : Bool) (mantissa : Nat) (exponent : Int)
  | nan
  | infinity (negative : Bool)
  deriving DecidableEq, Repr

/-- The value of a JSON document. -/
inductive Json where
  | null
  | bool (b : Bool)
  | num (n : Number)
  | str (s : String)
  /-- A string whose escapes name half of a surrogate pair: it stands for no text. -/
  | brokenStr
  | arr (items : List Json)
  | obj (members : List (String × Json))
  deriving Repr, Inhabited

namespace Json

def ofInt (n : Int) : Json := .num (.int n)

def ofStrings (items : List String) : Json := .arr (items.map .str)

/-- Sets a member: a new key goes to the end, a known one keeps its place. -/
def setMember (key : String) (value : Json) : List (String × Json) → List (String × Json)
  | [] => [(key, value)]
  | (k, v) :: rest => if k == key then (key, value) :: rest else (k, v) :: setMember key value rest

/-- The member of that key, if this is an object that has it. -/
def get? (key : String) : Json → Option Json
  | .obj members => members.lookup key
  | _ => none

end Json

end BlockScript
