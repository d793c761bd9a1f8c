import BlockScript.Json.Basic

/-!
# Writing JSON

The compact form: no blanks between tokens, characters as they are, and escapes only for
quotes, backslashes and control characters.
-/

namespace BlockScript.Json

/-- A control character as a four-digit escape. -/
def controlEscape (c : Char) : String :=
  let digits := Nat.toDigits 16 c.toNat
  "\\u" ++ String.ofList (List.replicate (4 - digits.length) '0' ++ digits)

def renderChar (c : Char) : String :=
  if c == '"' then "\\\"" else if c == '\\' then "\\\\"
  else if c.toNat < 0x20 then controlEscape c else c.toString

def renderString (s : String) : String :=
  s.toList.foldl (fun out c => out ++ renderChar c) "\"" ++ "\""

def renderNumber : Number → String
  | .int n => toString n
  | .decimal negative mantissa exponent =>
    (if negative then "-" else "") ++ toString mantissa ++ "e" ++ toString exponent
  | .nan => "NaN"
  | .infinity negative => if negative then "-Infinity" else "Infinity"

mutual

/-- The text of a value. -/
def render : Json → String
  | .null => "null"
  | .bool b => if b then "true" else "false"
  | .num n => renderNumber n
  | .str s => renderString s
  | .brokenStr => "\"\\ud800\""
  | .arr items => "[" ++ ",".intercalate (renderItems items) ++ "]"
  | .obj members => "\x7b" ++ ",".intercalate (renderMembers members) ++ "\x7d"

def renderItems : List Json → List String
  | [] => []
  | item :: rest => render item :: renderItems rest

def renderMembers : List (String × Json) → List String
  | [] => []
  | (key, value) :: rest => (renderString key ++ ":" ++ render value) :: renderMembers rest

end

end BlockScript.Json
