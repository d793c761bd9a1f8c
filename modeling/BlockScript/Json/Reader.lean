import BlockScript.Json.Token

/-!
# Reading JSON

A document is read token by token.  The containers that are still open stand on a stack,
innermost first, and `Expect` says what may come next.  A member that is written twice
keeps its place and takes the later value.

A document is refused at the first token that is out of place.  That is an `oversized` refusal
when the token is a number with too many digits and a value was due, and else `malformed`.
-/

namespace BlockScript.Json

/-- Why a text is not read as a document. -/
inductive Refusal where
  | malformed
  /-- A number has too many digits. -/
  | oversized
  deriving DecidableEq, Repr

/-- The members of an object that is still open.  A member whose key stands for no text cannot
be asked for, and only its presence is noted. -/
structure Body where
  members : List (String × Json) := []
  hasBrokenKey : Bool := false

def Body.add (b : Body) (key : Option String) (value : Json) : Body :=
  match key with
  | some key => { b with members := setMember key value b.members }
  | none => { b with hasBrokenKey := true }

/-- The object.  Broken keys come to one last member that stands for no text. -/
def Body.close (b : Body) : Json :=
  .obj (if b.hasBrokenKey then b.members ++ [("\ufffd", .brokenStr)] else b.members)

/-- A container that is still open. -/
inductive Frame where
  /-- The items so far, last first. -/
  | array (items : List Json)
  | object (body : Body)
  /-- An object whose member `key` waits for its value. -/
  | member (body : Body) (key : Option String)

/-- What the next token may be. -/
inductive Expect where
  | value
  | valueOrClose
  | keyOrClose
  | key
  | colon (key : Option String)
  | commaOrClose
  | nothing (result : Json)

structure Reading where
  stack : List Frame := []
  expect : Expect := .value

/-- A value is complete: it goes into the innermost open container. -/
def Reading.complete (value : Json) : List Frame → Option Reading
  | [] => some ⟨[], .nothing value⟩
  | .array items :: rest => some ⟨.array (value :: items) :: rest, .commaOrClose⟩
  | .member body key :: rest => some ⟨.object (body.add key value) :: rest, .commaOrClose⟩
  | .object _ :: _ => none

/-- A token where a value is due. -/
def Reading.value (stack : List Frame) : Token → Option Reading
  | .openArray => some ⟨.array [] :: stack, .valueOrClose⟩
  | .openObject => some ⟨.object {} :: stack, .keyOrClose⟩
  | .text v => complete v stack
  | .scalar v => complete v stack
  | _ => none

/-- A token where the key of a member is due. -/
def Reading.key (stack : List Frame) : Token → Option Reading
  | .text (.str k) => some ⟨stack, .colon (some k)⟩
  | .text _ => some ⟨stack, .colon none⟩
  | _ => none

/-- The end of the innermost container. -/
def Reading.close (stack : List Frame) : Token → Option Reading
  | .closeArray => match stack with
    | .array items :: rest => complete (.arr items.reverse) rest
    | _ => none
  | .closeObject => match stack with
    | .object body :: rest => complete body.close rest
    | _ => none
  | _ => none

/-- Takes a token, unless it is out of place. -/
def Reading.advance (r : Reading) (t : Token) : Option Reading :=
  match r.expect with
  | .value => Reading.value r.stack t
  | .valueOrClose => (Reading.value r.stack t).orElse fun _ => Reading.close r.stack t
  | .keyOrClose => (Reading.key r.stack t).orElse fun _ => Reading.close r.stack t
  | .key => Reading.key r.stack t
  | .colon k => match t, r.stack with
    | .colon, .object body :: rest => some ⟨.member body k :: rest, .value⟩
    | _, _ => none
  | .commaOrClose => match t, r.stack with
    | .comma, .array items :: rest => some ⟨.array items :: rest, .value⟩
    | .comma, .object body :: rest => some ⟨.object body :: rest, .key⟩
    | t, stack => Reading.close stack t
  | .nothing _ => none

/-- Whether a value may come next. -/
def Expect.wantsValue : Expect → Bool
  | .value => true
  | .valueOrClose => true
  | _ => false

def Reading.step (r : Reading) (t : Token) : Except Refusal Reading :=
  match r.advance t, t, r.expect.wantsValue with
  | some next, _, _ => .ok next
  | none, .oversized, true => .error .oversized
  | none, _, _ => .error .malformed

def Reading.finish (r : Reading) : Except Refusal Json :=
  match r.expect with
  | .nothing v => .ok v
  | _ => .error .malformed

/-- The value of a document, or why the text is refused. -/
def parse (dialect : Dialect) (text : String) : Except Refusal Json := do
  let reading ← (tokens dialect text.toList).foldlM Reading.step {}
  reading.finish

/-- The value of a document, or `none` when the text is refused. -/
def parse? (dialect : Dialect) (text : String) : Option Json := (parse dialect text).toOption

end BlockScript.Json
