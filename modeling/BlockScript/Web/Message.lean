import BlockScript.Json.Basic
import BlockScript.Text.Blank
import BlockScript.Web.Target

/-!
# Requests and responses

What the web service receives and sends.  A request is written with a target; `Request.path?`
is the path it asks for.  Its body is JSON unless a header says otherwise.
-/

namespace BlockScript.Web

structure Request where
  method : String
  target : String
  headers : List (String × String) := []
  body : String := ""

inductive Content where
  | json (value : Json)
  | text (value : String)
  /-- Nothing, not even a type. -/
  | empty

def Content.type? : Content → Option String
  | .json _ => some "application/json"
  | .text _ => some "text/plain; charset=utf-8"
  | .empty => none

structure Response where
  status : Nat
  content : Content
  /-- The origin that may read the response. -/
  allowOrigin : Option String := none

namespace Request

/-- Header names and methods do not depend on case. -/
def header? (r : Request) (name : String) : Option String :=
  (r.headers.find? fun h => h.1.toList.map Char.toLower == name.toList).map Prod.snd

def verb (r : Request) : String := String.ofList (r.method.toList.map Char.toUpper)

def isAscii (s : String) : Bool := s.toList.all (·.toNat < 128)

/-- The path that a request asks for, or why it cannot be sent. -/
def path? (r : Request) : Except Unsendable String :=
  if r.headers.all fun h => isAscii h.1 && isAscii h.2 then Target.pathOf r.target
  else .error .header

/-- Whether a media type is one of JSON: `application/json`, or any application type that ends
in `+json`.  Case and what follows a semicolon do not matter. -/
def isJsonType (mediaType : String) : Bool :=
  let essence := Text.trimChars (mediaType.toList.takeWhile (· != ';'))
  match (essence.map Char.toLower).splitOn '/' with
  | [main, sub] =>
    main == "application".toList && (sub == "json".toList || "+json".toList.isSuffixOf sub)
  | _ => false

/-- Whether the body is to be read as JSON. -/
def carriesJson (r : Request) : Bool := ((r.header? "content-type").map isJsonType).getD true

end Request

end BlockScript.Web
