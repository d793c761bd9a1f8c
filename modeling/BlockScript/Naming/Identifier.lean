/-!
# Identifiers

Titles and ids are free text; variable names hold ASCII letters and digits only.

* `identifier`: joins the words of a text, each with a capital at its front.
* `idSuffix`: the first letters and digits of a block id.
-/

namespace BlockScript.Naming

/-- The characters a variable name may hold. -/
def isNameChar (c : Char) : Bool := c.isAlphanum

/-- The characters between the words of a title. -/
def isSeparator (c : Char) : Bool := c == '-' || c == '.' || c == ' ' || c == '_'

/-- The characters outside ASCII whose capital form holds ASCII letters, with those letters:
the sharp s, the dotless i, letters with a mark that stands apart in the capital, and the
ligatures. -/
def asciiCapitals : List (Char × String) :=
  [('ß', "SS"), ('ı', "I"), ('ŉ', "N"), ('ſ', "S"), ('ǰ', "J"),
   ('ẖ', "H"), ('ẗ', "T"), ('ẘ', "W"), ('ẙ', "Y"), ('ẚ', "A"),
   ('ﬀ', "FF"), ('ﬁ', "FI"), ('ﬂ', "FL"), ('ﬃ', "FFI"), ('ﬄ', "FFL"),
   ('ﬅ', "ST"), ('ﬆ', "ST")]

/-- What the capital form of `c` gives to a name. -/
def capital (c : Char) : List Char :=
  if isNameChar c then [c.toUpper] else ((asciiCapitals.lookup c).getD "").toList

/-- What is kept of a text: of each word a capital first character and the name characters
after it.  `first` says that a word starts here. -/
def joinWords : Bool → List Char → List Char
  | _, [] => []
  | first, c :: rest =>
    if isSeparator c then joinWords true rest
    else if first then capital c ++ joinWords false rest
    else if isNameChar c then c :: joinWords false rest
    else joinWords false rest

/-- The name used where a text holds no name character. -/
def fallback : String := "Result"

/-- The variable name made of a text. -/
def identifier (text : String) : String :=
  match joinWords true text.toList with
  | [] => fallback
  | cs => String.ofList cs

/-- The name characters of a block id. -/
def idChars (id : String) : List Char := id.toList.filter isNameChar

/-- The first `length` name characters of a block id; at least one is asked for. -/
def idSuffix (id : String) (length : Int) : String :=
  String.ofList ((idChars id).take (max 1 length).toNat)

/-- Names that differ only in the case of letters are the same variable. -/
def foldCase (name : String) : String := String.ofList (name.toList.map Char.toLower)

end BlockScript.Naming
