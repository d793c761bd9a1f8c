import BlockScript.Text.Numeral
import BlockScript.Text.Utf8

/-!
# Targets

The target of a request is a URL reference: an address of its own, or one that is relative to
the root of the service.  `Target.path` is the path that a target asks for, with dot segments
and escapes resolved, or the reason why nothing can be sent there.
-/

namespace BlockScript.Web

/-- Why a request cannot be sent. -/
inductive Unsendable where
  /-- The target is no URL reference. -/
  | target
  /-- The target has a scheme that is not spoken here. -/
  | scheme
  /-- A header is not ASCII. -/
  | header
  deriving DecidableEq, Repr

/-- A URL reference.  Query and fragment play no part. -/
structure Target where
  /-- In lower case; empty when there is none. -/
  scheme : List Char
  user : List Char
  host : List Char
  /-- What follows the host; a number. -/
  number : List Char
  path : List Char
  deriving DecidableEq, Repr

namespace Target

/-! ### Parts -/

def isSchemeChar (c : Char) : Bool := c.isAlphanum || c == '+' || c == '.' || c == '-'

/-- The scheme and what follows it.  A colon alone is an empty scheme. -/
def splitScheme (cs : List Char) : List Char × List Char :=
  let name := cs.takeWhile isSchemeChar
  match cs.dropWhile isSchemeChar with
  | ':' :: rest =>
    if (name.head?.map Char.isAlpha).getD true then (name.map Char.toLower, rest) else ([], cs)
  | _ => ([], cs)

def endsAuthority (c : Char) : Bool := c == '/' || c == '?' || c == '#'

/-- What stands between two slashes and the path, and what follows it. -/
def splitAuthority : List Char → List Char × List Char
  | '/' :: '/' :: rest =>
    (rest.takeWhile fun c => !endsAuthority c, rest.dropWhile fun c => !endsAuthority c)
  | cs => ([], cs)

/-- The user, up to the last at sign, and what follows it. -/
def splitUser (cs : List Char) : List Char × List Char :=
  let after := (cs.reverse.takeWhile (· != '@')).reverse
  (cs.take (cs.length - after.length - 1), after)

/-- The host, which may stand in brackets, and what follows it. -/
def splitHost (cs : List Char) : List Char × List Char :=
  if cs.head? == some '[' && cs.contains ']' then
    let after := (cs.reverse.takeWhile (· != ']')).reverse
    (cs.take (cs.length - after.length), after)
  else (cs.takeWhile (· != ':'), cs.dropWhile (· != ':'))

def ofString (s : String) : Target :=
  let (scheme, rest) := splitScheme s.toList
  let (authority, rest) := splitAuthority rest
  let (user, rest') := splitUser authority
  let (host, after) := splitHost rest'
  { scheme, user, host
    number := if after.head? == some ':' then after.drop 1 else after
    path := rest.takeWhile fun c => c != '?' && c != '#' }

/-! ### Validity -/

/-- The most characters a target may have. -/
def maxLength : Nat := 65536

def isControl (c : Char) : Bool := c.toNat < 0x20 || c.toNat == 0x7F

def isNumber (cs : List Char) : Bool := cs.isEmpty || (Text.option? (String.ofList cs)).isSome

/-- One of the four numbers of an address: up to 255, without leading zeros. -/
def isAddressByte (cs : List Char) : Bool :=
  match Text.setting (String.ofList cs) with
  | .ok n => n ≤ 255 && (cs.head? != some '0' || cs.length == 1)
  | .error _ => false

/-- Whether a host that is written as four numbers is an address. -/
def isHost (cs : List Char) : Bool :=
  let parts := cs.splitOn '.'
  let isNumbers := parts.length == 4 && parts.all fun p => !p.isEmpty && p.all Char.isDigit
  !isNumbers || parts.all isAddressByte

def hasAuthority (t : Target) : Bool := !t.user.isEmpty || !t.host.isEmpty || !t.number.isEmpty

/-- A path on its own must not look like the parts that could stand before it. -/
def hasClearPath (t : Target) : Bool :=
  !t.scheme.isEmpty || t.hasAuthority ||
    !("//".toList.isPrefixOf t.path || t.path.head? == some ':')

def isValid (t : Target) : Bool := isNumber t.number && isHost t.host && t.hasClearPath

/-! ### Paths -/

/-- Drops `.` segments, and with each `..` segment the one before it. -/
def resolveDots (cs : List Char) : List Char :=
  "/".toList.intercalate <| (cs.splitOn '/').foldl (fun kept segment =>
    if segment == ['.'] then kept
    else if segment == ['.', '.'] then (if kept == [[]] then kept else kept.dropLast)
    else kept ++ [segment]) []

/-- The value of a hexadecimal digit. -/
def hexDigit? (c : Char) : Option Nat :=
  if c.isDigit then some (c.toNat - '0'.toNat)
  else if 'a' ≤ c.toLower && c.toLower ≤ 'f' then some (c.toLower.toNat - 'a'.toNat + 10)
  else none

/-- The bytes of a text, each escape one byte. -/
def unescapedBytes : List Char → List UInt8
  | [] => []
  | '%' :: a :: b :: rest => match hexDigit? a, hexDigit? b with
    | some x, some y => UInt8.ofNat (16 * x + y) :: unescapedBytes rest
    | _, _ => 37 :: unescapedBytes (a :: b :: rest)
  | c :: rest => c.toString.toUTF8.toList ++ unescapedBytes rest

/-- The text that a text with escapes stands for. -/
def unescape (cs : List Char) : List Char := Text.decodeLossy 0 (unescapedBytes cs)

/-- Whether the target is an address of its own. -/
def isAbsolute (t : Target) : Bool := !t.scheme.isEmpty && !t.host.isEmpty

def schemes : List String := ["http", "https"]

/-- The path that is asked for, with its escapes: a relative one starts at the root. -/
def escapedPath (t : Target) : List Char :=
  let given := if t.scheme.isEmpty && !t.hasAuthority then t.path else resolveDots t.path
  let rooted := if t.isAbsolute then given else '/' :: given.dropWhile (· == '/')
  let resolved := resolveDots rooted
  if resolved.isEmpty then ['/'] else resolved

/-- The path that a target asks for.  Escapes are resolved on sending and once more on
arrival. -/
def pathOf (target : String) : Except Unsendable String :=
  let t := ofString target
  if maxLength < target.length || target.toList.any isControl || !t.isValid then .error .target
  else if t.isAbsolute && !schemes.contains (String.ofList t.scheme) then .error .scheme
  else .ok (String.ofList (unescape (unescape t.escapedPath)))

end Target

end BlockScript.Web
