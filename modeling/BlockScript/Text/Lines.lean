import BlockScript.Text.Blank

/-!
# Lines

A text is cut at every line break; a carriage return with its line feed is one break,
and a break at the very end opens no further line.  `indent` puts a pad in front of
each line, and empties the lines that hold blanks only.
-/

namespace BlockScript.Text

/-- The characters that end a line. -/
def isBreak (c : Char) : Bool :=
  let n := c.toNat
  (10 ≤ n && n ≤ 13) || (28 ≤ n && n ≤ 30) || n == 0x85 || n == 0x2028 || n == 0x2029

/-- The lines of a text, without their breaks. -/
def splitLines : List Char → List (List Char)
  | [] => []
  | '\r' :: '\n' :: rest => [] :: splitLines rest
  | c :: rest =>
    if isBreak c then [] :: splitLines rest
    else match splitLines rest with
      | [] => [[c]]
      | line :: lines => (c :: line) :: lines

/-- One line behind its pad; a blank line stays empty. -/
def padLine (pad : String) (line : List Char) : String :=
  if line.all isBlank then "" else pad ++ String.ofList line

/-- The lines of `text`, each behind `pad`. -/
def indent (pad text : String) : List String := (splitLines text.toList).map (padLine pad)

/-- A pad of `n` spaces; none for a negative `n`. -/
def spaces (n : Int) : String := String.ofList (List.replicate n.toNat ' ')

end BlockScript.Text
