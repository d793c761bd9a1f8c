import BlockScript.Decimal.Shortest
import BlockScript.Text.Quoted

/-!
# Values inside messages

How a value is named in a sentence: constants by their words, numbers in their shortest form,
a string as it stands, and quoted where it is part of a list or an object.
-/

namespace BlockScript.Json

def displayNumber : Number → String
  | .int n => toString n
  | .nan => "nan"
  | .infinity negative => if negative then "-inf" else "inf"
  | .decimal negative mantissa exponent =>
    match Number.binary? (.decimal negative mantissa exponent) with
    | some b => Decimal.text b
    | none => if negative then "-inf" else "inf"

mutual

/-- A value as part of a list or an object. -/
def displayPart : Json → String
  | .null => "None"
  | .bool b => if b then "True" else "False"
  | .num n => displayNumber n
  | .str s => Text.quote s
  | .brokenStr => "''"
  | .arr items => "[" ++ ", ".intercalate (displayItems items) ++ "]"
  | .obj members => "\x7b" ++ ", ".intercalate (displayMembers members) ++ "\x7d"

def displayItems : List Json → List String
  | [] => []
  | item :: rest => displayPart item :: displayItems rest

def displayMembers : List (String × Json) → List String
  | [] => []
  | (key, value) :: rest => (Text.quote key ++ ": " ++ displayPart value) :: displayMembers rest

end

/-- A value on its own. -/
def display : Json → String
  | .str s => s
  | value => displayPart value

end BlockScript.Json
