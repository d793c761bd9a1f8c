import BlockScript.Schema.Graph
import BlockScript.Service.Log
import BlockScript.Service.Settings

/-!
# Rendering

A request asks for the script of a graph.  A strict request is refused when the generation
reports an error, with the messages of its errors.
-/

namespace BlockScript

open Schema

structure RenderRequest where
  graph : Snapshot
  strict : Bool := false

def RenderRequest.ofMembers (ms : Members) : Checked RenderRequest :=
  RenderRequest.mk <$> required "graph" Snapshot.ofJson ms <*> optional "strict" bool false ms

def RenderRequest.ofJson : Json → Checked RenderRequest := record .request RenderRequest.ofMembers

structure RenderResponse where
  script : String
  diagnostics : List Diagnostic
  bindings : List Binding
  deriving DecidableEq, Repr

def Diagnostic.toJson (d : Diagnostic) : Json :=
  .obj [("level", .str d.level.name), ("code", .str d.code.name), ("message", .str d.message),
    ("block_ids", .ofStrings d.blockIds)]

def Binding.toJson (b : Binding) : Json :=
  .obj [("block_id", .str b.blockId), ("name", .str b.name)]

def RenderResponse.toJson (r : RenderResponse) : Json :=
  .obj [("script", .str r.script), ("diagnostics", .arr (r.diagnostics.map Diagnostic.toJson)),
    ("bindings", .arr (r.bindings.map Binding.toJson))]

/-- A kind of container as the service lists it. -/
def ContainerKind.toJson (kind : ContainerKind) : Json :=
  .obj [("kind", .str kind.name), ("zones", .ofStrings (kind.zones.map ZoneLabel.name)),
    ("hoisted", .bool kind.isHoisted)]

/-- The outcome of a request: a response, or the messages of the errors that refuse it; and
what was logged. -/
structure Rendering where
  outcome : Except (List String) RenderResponse
  log : List LogRecord

/-- The messages of the errors in a report. -/
def errorMessages (report : List Diagnostic) : List String :=
  (report.filter Diagnostic.isError).map Diagnostic.message

def renderedRecord (request : RenderRequest) (g : Generation) : LogRecord :=
  ⟨.info, s!"Generated script: blocks={request.graph.blocks.length} " ++
    s!"connections={request.graph.connections.length} bindings={g.bindings.length} " ++
    s!"diagnostics={g.diagnostics.length}"⟩

/-- Answers a request. -/
def Settings.render (settings : Settings) (request : RenderRequest) : Rendering :=
  let g := request.graph.generate settings.generatorOptions
  let log := g.journal.map Event.record
  if request.strict && g.hasErrors then ⟨.error (errorMessages g.diagnostics), log⟩
  else ⟨.ok ⟨g.script, g.diagnostics, g.bindings⟩, log ++ [renderedRecord request g]⟩

end BlockScript
