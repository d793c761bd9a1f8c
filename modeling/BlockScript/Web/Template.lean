import BlockScript.Text.Numeral

/-!
# Path templates

A template is a path in which parameters in braces stand for parts that may vary: a name,
and perhaps a colon and the kind of part.  Braces that do not hold a parameter stand for
themselves.

* `Template.ofString?`: the template of a text, unless a kind is unknown or a name is used
  twice.
* `Template.fit?`: the parts of a path that the parameters of a template take.
-/

namespace BlockScript.Web

/-- What a parameter may stand for. -/
inductive PartKind where
  /-- At least one character, and no slash. -/
  | segment
  /-- Anything, within one line. -/
  | path
  | int
  | float
  | uuid
  deriving DecidableEq, Repr

namespace PartKind

def all : List PartKind := [.segment, .path, .int, .float, .uuid]

def name : PartKind → String
  | .segment => "str"
  | .path => "path"
  | .int => "int"
  | .float => "float"
  | .uuid => "uuid"

def ofName? (word : String) : Option PartKind := all.find? (·.name == word)

theorem ofName?_name (k : PartKind) : ofName? k.name = some k := by cases k <;> rfl

/-- The numbers from `most` down to `least`. -/
def countDown (most least : Nat) : List Nat :=
  ((List.range (most + 1)).filter (least ≤ ·)).reverse

def run (p : Char → Bool) (cs : List Char) : Nat := (cs.takeWhile p).length

def isHexDigit (c : Char) : Bool :=
  c.isDigit || ('a' ≤ c && c ≤ 'f') || ('A' ≤ c && c ≤ 'F')

/-- The length of groups of hexadecimal digits, with or without a dash between two of them. -/
def groupsLength? : List Nat → List Char → Option Nat
  | [], _ => some 0
  | size :: sizes, cs =>
    if size ≤ run isHexDigit cs then
      let rest := cs.drop size
      let dash := if !sizes.isEmpty && rest.head? == some '-' then 1 else 0
      (groupsLength? sizes (rest.drop dash)).map (size + dash + ·)
    else none

/-- The lengths of the parts at the front of a text that are of this kind, longest first. -/
def lengths (kind : PartKind) (cs : List Char) : List Nat :=
  match kind with
  | .segment => countDown (run (· != '/') cs) 1
  | .path => countDown (run (· != '\n') cs) 0
  | .int => countDown (run Char.isDigit cs) 1
  | .float =>
    let whole := run Char.isDigit cs
    let fraction := match cs.drop whole with
      | '.' :: rest => run Char.isDigit rest
      | _ => 0
    if whole == 0 then []
    else countDown (whole + 1 + fraction) (whole + 2) ++ countDown whole 1
  | .uuid => (groupsLength? [8, 4, 4, 4, 12] cs).toList

end PartKind

inductive Piece where
  | literal (c : Char)
  | parameter (name : String) (kind : PartKind)
  deriving DecidableEq, Repr

/-- A part of a path, with the kind of its parameter. -/
structure Part where
  kind : PartKind
  text : List Char
  deriving DecidableEq, Repr

structure Template where
  pieces : List Piece
  deriving DecidableEq, Repr

namespace Template

/-! ### Reading templates -/

def isNameChar (c : Char) : Bool := c.isAlphanum || c == '_'

/-- A name: letters, digits and underscores, and no digit at the front. -/
def isName (cs : List Char) : Bool := (cs.head?.map fun c => !c.isDigit).getD false

/-- A parameter behind its opening brace: its name, the word for its kind, and its length. -/
def parameter? (cs : List Char) : Option (String × String × Nat) :=
  let name := cs.takeWhile isNameChar
  if !isName name then none
  else match cs.dropWhile isNameChar with
    | '\x7d' :: _ => some (String.ofList name, PartKind.segment.name, name.length + 1)
    | ':' :: rest =>
      let kind := rest.takeWhile isNameChar
      if isName kind && (rest.dropWhile isNameChar).head? == some '\x7d' then
        some (String.ofList name, String.ofList kind, name.length + 1 + kind.length + 1)
      else none
    | _ => none

/-- The pieces of a template.  The first `skip` characters belong to a parameter that has been
read. -/
def piecesOf? (skip : Nat) : List Char → Option (List Piece)
  | [] => some []
  | c :: rest => match skip with
    | n + 1 => piecesOf? n rest
    | 0 => match (if c == '\x7b' then parameter? rest else none) with
      | none => (piecesOf? 0 rest).map (.literal c :: ·)
      | some (name, word, length) => (PartKind.ofName? word).bind fun kind =>
        (piecesOf? length rest).map (.parameter name kind :: ·)

/-- The names of the parameters, in order. -/
def names (t : Template) : List String :=
  t.pieces.filterMap fun
    | .literal _ => none
    | .parameter name _ => some name

/-- The template of a text; `none` for an unknown kind and for a name that is used twice. -/
def ofString? (s : String) : Option Template :=
  ((piecesOf? 0 s.toList).map Template.mk).filter fun t => t.names.Nodup

/-! ### Fitting paths -/

/-- The parts that the parameters among the pieces take; an earlier one takes as much as it
can.  A line break may follow at the very end. -/
def fitPieces? : List Piece → List Char → Option (List Part)
  | [], rest => if rest.isEmpty || rest == ['\n'] then some [] else none
  | .literal c :: pieces, cs =>
    if cs.head? == some c then fitPieces? pieces (cs.drop 1) else none
  | .parameter _ kind :: pieces, cs => (kind.lengths cs).findSome? fun n =>
    (fitPieces? pieces (cs.drop n)).map (⟨kind, cs.take n⟩ :: ·)

/-- The parts of a path that the parameters take, if the path fits. -/
def fit? (t : Template) (path : String) : Option (List Part) := fitPieces? t.pieces path.toList

end Template

/-- Whether a part can be read as what its kind says: integers have a limit on their digits. -/
def Part.isReadable (p : Part) : Bool := p.kind != .int || p.text.length ≤ Text.maxDigits

end BlockScript.Web
