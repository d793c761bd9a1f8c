/-!
# Blank characters

Which characters count as blank, and what trimming removes.  Blank are the control
characters that separate lines or fields, the space, and every space separator of
Unicode; a zero-width space and a byte-order mark are not blank.

* `trim`: the text without the blanks at either end.
* `isBlankText`: nothing but blanks, so that `trim` leaves nothing.
-/

namespace BlockScript.Text

/-- Blank characters: tab to carriage return, the four information separators, the
next-line control, and the Unicode space, line and paragraph separators. -/
def isBlank (c : Char) : Bool :=
  let n := c.toNat
  (9 ≤ n && n ≤ 13) || (28 ≤ n && n ≤ 32) || n == 0x85 || n == 0xA0 || n == 0x1680 ||
    (0x2000 ≤ n && n ≤ 0x200A) || n == 0x2028 || n == 0x2029 || n == 0x202F || n == 0x205F ||
    n == 0x3000

/-- Drops the blanks at the end. -/
def trimEndChars (cs : List Char) : List Char := (cs.reverse.dropWhile isBlank).reverse

/-- Drops the blanks at both ends. -/
def trimChars (cs : List Char) : List Char := trimEndChars (cs.dropWhile isBlank)

def trimEnd (s : String) : String := String.ofList (trimEndChars s.toList)

def trim (s : String) : String := String.ofList (trimChars s.toList)

def isBlankText (s : String) : Bool := s.toList.all isBlank

/-- The trimmed text, or `fallback` when nothing is left of it. -/
def trimOr (fallback s : String) : String := if isBlankText s then fallback else trim s

end BlockScript.Text
