import BlockScript.Decimal.Binary
import BlockScript.Schema.Fault
import BlockScript.Text.Numeral

/-!
# Fields

Readers for the simple values of a document, and for the members of a record.  A reader takes
the JSON value and gives what it stands for, or its faults.
-/

namespace BlockScript.Schema

variable {α : Type}

def string : Json → Checked String
  | .str s => .ok s
  | .brokenStr => .fail .brokenString .brokenStr
  | j => .fail .notString j

def nonEmptyString (j : Json) : Checked String :=
  (string j).andThen fun s => if s = "" then .fail .emptyString j else .ok s

/-- The words for true and false; case does not matter. -/
def truthWord? (s : String) : Option Bool :=
  let word := String.ofList (s.toList.map Char.toLower)
  if ["1", "true", "t", "y", "yes", "on"].contains word then some true
  else if ["0", "false", "f", "n", "no", "off"].contains word then some false
  else none

/-- The least integer of a signed word of 64 bits. -/
def leastWord : Int := -0x8000000000000000

/-- Whether an integer fits a signed word of 64 bits. -/
def fitsWord (n : Int) : Bool := leastWord ≤ n && n < 0x8000000000000000

/-- The 64-bit integer that a number counts as.  Numbers with a fraction part written out are
taken by their value, and the least word is out of their reach. -/
def wordOf? : Number → Option Int
  | .int n => if fitsWord n then some n else none
  | n => (n.binary?.bind Binary.toInt?).filter fun i => fitsWord i && i != leastWord

/-- Zero and one stand for false and true. -/
def boolOfNumber (n : Number) : Checked Bool :=
  match wordOf? n with
  | some 0 => .ok false
  | some 1 => .ok true
  | some _ => .fail .unreadableBool (.num n)
  | none => .fail .notBool (.num n)

def bool : Json → Checked Bool
  | .bool b => .ok b
  | .num n => boolOfNumber n
  | .str s => match truthWord? s with
    | some b => .ok b
    | none => .fail .unreadableBool (.str s)
  | j => .fail .notBool j

/-- An integer; a truth value counts as zero or one. -/
def int : Json → Checked Int
  | .bool b => .ok (if b then 1 else 0)
  | .num (.int n) => .ok n
  | .num n => match n.binary?.map Binary.toInt?, wordOf? n with
    | none, _ => .fail .notFinite (.num n)
    | some none, _ => .fail .fractionalInt (.num n)
    | _, some i => .ok i
    | _, none => .fail .oversizedInt (.num n)
  | .str s => match Text.setting s with
    | .ok n => .ok n
    | .error .unreadable => .fail .unreadableInt (.str s)
    | .error .oversized => .fail .oversizedInt (.str s)
  | j => .fail .notInt j

/-- An integer between two bounds, both allowed. -/
def intBetween (least most : Int) (j : Json) : Checked Int :=
  (int j).andThen fun n =>
    if n < least then .fail (.below least) j else if most < n then .fail (.above most) j else .ok n

/-- The items of a list from position `i` on. -/
def itemsFrom (item : Json → Checked α) (i : Nat) : List Json → Checked (List α)
  | [] => .ok []
  | j :: rest => List.cons <$> (item j).within (.index i) <*> itemsFrom item (i + 1) rest

def list (item : Json → Checked α) : Json → Checked (List α)
  | .arr items => itemsFrom item 0 items
  | j => .fail .notList j

def strings : Json → Checked (List String) := list string

/-! ### Members of a record -/

abbrev Members := List (String × Json)

/-- A member that must be there. -/
def required (key : String) (read : Json → Checked α) (members : Members) : Checked α :=
  match members.lookup key with
  | some j => (read j).within (.key key)
  | none => Checked.within (.key key) (.fail .missing (.obj members))

/-- A member with a default. -/
def optional (key : String) (read : Json → Checked α) (default : α) (members : Members) :
    Checked α :=
  match members.lookup key with
  | some j => (read j).within (.key key)
  | none => .ok default

/-- A member with two spellings of its key; the first one wins. -/
def eitherKey (key other : String) (read : Json → Checked α) (default : α) (members : Members) :
    Checked α :=
  match members.lookup key with
  | some j => (read j).within (.key key)
  | none => optional other read default members

/-- The members of a record. -/
def record (kind : Record) (read : Members → Checked α) : Json → Checked α
  | .obj members => read members
  | j => .fail (.notRecord kind) j

end BlockScript.Schema
