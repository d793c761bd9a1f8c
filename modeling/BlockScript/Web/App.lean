import BlockScript.Json.Reader
import BlockScript.Json.Sendable
import BlockScript.Schema.Report
import BlockScript.Service.Render
import BlockScript.Text.Wide
import BlockScript.Web.Message
import BlockScript.Web.Template

/-!
# The web service

Four routes: the state of the service, the kinds of containers, and the script of a graph, as
JSON or as plain text.  All but the first lie under the prefix of the settings, which is a
template.  A path that fits a route only up to slashes at its end is answered with a redirect.

The browser origins of the settings may read every response, except when the service breaks
down.  It does when its routes make no templates, and when a response cannot be written.
-/

namespace BlockScript.Web

open Schema

inductive Route where
  | health
  | kinds
  | generate
  | generateText
  deriving DecidableEq, Repr

namespace Route

def all : List Route := [.generate, .generateText, .kinds, .health]

def path (apiPrefix : String) : Route → String
  | .health => "/api/health"
  | .kinds => apiPrefix ++ "/scripts/container-kinds"
  | .generate => apiPrefix ++ "/scripts/generate"
  | .generateText => apiPrefix ++ "/scripts/generate/text"

def verb : Route → String
  | .health => "GET"
  | .kinds => "GET"
  | .generate => "POST"
  | .generateText => "POST"

/-- The name of the body.  No parameter of a path can have it. -/
def bodyName : String := "request"

/-- The template of a route. -/
def template? (apiPrefix : String) (route : Route) : Option Template :=
  (Template.ofString? (route.path apiPrefix)).filter fun t => !t.names.contains bodyName

end Route

structure App where
  settings : Settings

/-- A service under a prefix that is empty, or starts with a slash and ends with none. -/
def App.create? (settings : Settings) : Option App :=
  let chars := settings.apiPrefix.toList
  if chars.isEmpty || (chars.head? == some '/' && chars.getLast? != some '/') then some ⟨settings⟩
  else none

namespace App

variable (app : App)

/-- The routes that a path fits; `none` when the service breaks down over it. -/
def routesAt? (path : String) : Option (List Route) := do
  let templates ← Route.all.mapM fun route =>
    (route.template? app.settings.apiPrefix).map fun t => (route, t)
  let fitting := templates.filterMap fun (route, t) => (t.fit? path).map fun parts => (route, parts)
  if fitting.all fun (_, parts) => parts.all Part.isReadable then some (fitting.map Prod.fst)
  else none

/-- The same path without slashes at its end, or with one if it has none. -/
def otherSlash (path : String) : String :=
  let cs := path.toList
  if cs.getLast? == some '/' then String.ofList (cs.reverse.dropWhile (· == '/')).reverse
  else path ++ "/"

/-- A response that says what went wrong. -/
def failure (status : Nat) (detail : Json) : Response := ⟨status, .json (.obj [("detail", detail)]), none⟩

def health : Json :=
  .obj [("status", .str "ok"), ("version", .str app.settings.appVersion),
    ("indent_size", .ofInt app.settings.indentSize)]

/-- What can be wrong with a body. -/
inductive BadBody where
  /-- The bytes are no text, or a number has too many digits. -/
  | unreadable
  | notJson
  | faulty (faults : List Fault)

/-- The request that a body holds. -/
def readBody (request : Request) : Except BadBody RenderRequest :=
  let body := request.body
  if body = "" then .error (.faulty [⟨[.key "body"], .missing, .null⟩])
  else if !request.carriesJson then
    .error (.faulty [⟨[.key "body"], .notRecord .request, .str body⟩])
  else match (Text.decodeDocument? (Text.encode body)).map (Json.parse .lenient) with
    | none => .error .unreadable
    | some (.error .oversized) => .error .unreadable
    | some (.error .malformed) => .error .notJson
    | some (.ok j) => match (RenderRequest.ofJson j).within (.key "body") with
      | .ok request => .ok request
      | .faulty faults => .error (.faulty faults)

/-- The response to a bad body.  Faults are sent with the values they were found in, so there
is none when such a value cannot be sent. -/
def BadBody.response? : BadBody → Option Response
  | .unreadable => some (failure 400 (.str "There was an error parsing the body"))
  | .notJson => some (failure 422 unreadableReport)
  | .faulty faults =>
    if faults.all (·.value.isSendable) then some (failure 422 (report .request faults)) else none

/-- Answers a request for a script, with `content` made of the response. -/
def render? (request : Request) (content : RenderResponse → Content) : Option Response :=
  match readBody request with
  | .error bad => bad.response?
  | .ok render => match (app.settings.render render).outcome with
    | .ok response => some ⟨200, content response, none⟩
    | .error messages => some (failure 422 (.obj [("diagnostics", .ofStrings messages)]))

def serve? (request : Request) : Route → Option Response
  | .health => some ⟨200, .json app.health, none⟩
  | .kinds => some ⟨200, .json (.arr (ContainerKind.all.map ContainerKind.toJson)), none⟩
  | .generate => app.render? request fun r => .json r.toJson
  | .generateText => app.render? request fun r => .text r.script

/-- The response when no route fits a path: a redirect, if one fits up to slashes. -/
def elsewhere? (path : String) : Option Response := do
  let routes ← if path == "/" then some [] else app.routesAt? (otherSlash path)
  return if routes.isEmpty then failure 404 (.str "Not Found") else ⟨307, .empty, none⟩

/-- The response before origins are looked at; `none` when the service breaks down. -/
def respond? (request : Request) (path : String) : Option Response := do
  let routes ← app.routesAt? path
  match routes.find? (·.verb == request.verb) with
  | some route => app.serve? request route
  | none =>
    if routes.isEmpty then app.elsewhere? path else failure 405 (.str "Method Not Allowed")

/-- The response of a service that broke down. -/
def breakdown : Response := ⟨500, .text "Internal Server Error", none⟩

/-! ### Origins -/

def allowsAll : Bool := app.settings.corsOrigins.contains "*"

/-- The origin named in a response to `origin`. -/
def allowedOrigin? (origin : String) : Option String :=
  if app.allowsAll || app.settings.corsOrigins.contains origin then some origin else none

def allowedVerbs : List String := ["DELETE", "GET", "HEAD", "OPTIONS", "PATCH", "POST", "PUT"]

/-- The answer to a browser that asks whether it may send a request with `verb`.  Requests into
a private network are not allowed. -/
def preflight (origin verb : String) (isPrivate : Bool) : Response :=
  let allowOrigin := app.allowedOrigin? origin
  let refused := (if allowOrigin.isSome then [] else ["origin"]) ++
    (if allowedVerbs.contains verb then [] else ["method"]) ++
    (if isPrivate then ["private-network"] else [])
  if refused.isEmpty then ⟨200, .text "OK", allowOrigin⟩
  else ⟨400, .text ("Disallowed CORS " ++ ", ".intercalate refused), allowOrigin⟩

/-- Answers a request for `path`. -/
def answer (request : Request) (path : String) : Response :=
  let origin := request.header? "origin"
  match origin, request.verb, request.header? "access-control-request-method" with
  | some origin, "OPTIONS", some verb =>
    app.preflight origin verb (request.header? "access-control-request-private-network").isSome
  | _, _, _ => match app.respond? request path with
    | none => breakdown
    | some response => { response with allowOrigin := origin.bind app.allowedOrigin? }

/-- Answers a request, unless it cannot be sent. -/
def handle (request : Request) : Except Unsendable Response :=
  request.path?.map (app.answer request)

end App

end BlockScript.Web
