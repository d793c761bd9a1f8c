import BlockScript.Json.Basic
import BlockScript.Schema.Fault

/-!
# Fault reports

Faults as they are reported: the word for the cause, the place, and the sentence.  A document
that is not JSON has no place to name; its report is the word alone.
-/

namespace BlockScript.Schema

def Step.toJson : Step → Json
  | .key name => .str name
  | .index i => .ofInt i

def Fault.toJson (origin : Origin) (f : Fault) : Json :=
  .obj [("type", .str (f.cause.code origin)), ("loc", .arr (f.path.map Step.toJson)),
    ("msg", .str (f.cause.message origin))]

/-- The report of faults, in order. -/
def report (origin : Origin) (faults : List Fault) : Json := .arr (faults.map (Fault.toJson origin))

/-- The report of a text that is not JSON. -/
def unreadableReport : Json := .arr [.obj [("type", .str "json_invalid")]]

end BlockScript.Schema
