import BlockScript.Script.Emission

/-!
# Generation

A snapshot becomes a script.  `Snapshot.plan` decides everything but the looks: the entries,
the bindings and the findings.  `Plan.text` writes the entries out.  When the blocks of the top
level, or the functions, depend on each other in a cycle, there are no entries, and the script
is a single marker.
-/

namespace BlockScript

structure GeneratorOptions where
  indentSize : Int := 4
  includeHeader : Bool := true
  suffixLength : Int := 4
  deriving DecidableEq, Repr

/-- The outcome of a generation before it is written out. -/
structure Plan where
  /-- The entries of the script, or none when a cycle stands in the way. -/
  entries? : Option (List Entry)
  pass : Pass

namespace Plan

def rule : String := "# " ++ String.ofList (List.replicate 43 '=')

def header : List Entry :=
  [.comment rule, .comment "# Auto-generated PowerShell 5.1 Script", .comment rule, .blank]

def functionsBanner : String :=
  "# -- Function Definitions " ++ String.ofList (List.replicate 17 '-')

def executionBanner : String := "# -- Execution " ++ String.ofList (List.replicate 28 '-')

def cycleMarker : String := "# ERROR: Cycle detected in graph!"

/-- A part of the script under its banner; nothing when it has no entries to show. -/
def part (banner : String) (blocks : List BlockId) (entries : List Entry) : List Entry :=
  if blocks.isEmpty then [] else .comment banner :: .blank :: entries

/-- The lines of a script, joined; blanks at its end are dropped. -/
def join (lines : List String) : String := Text.trimEnd ("\n".intercalate lines) ++ "\n"

/-- The lines of the script. -/
def lines (options : GeneratorOptions) (entries : List Entry) : List String :=
  ((if options.includeHeader then header else []) ++ entries).flatMap (Entry.lines options.indentSize)

/-- The script. -/
def text (options : GeneratorOptions) (p : Plan) : String :=
  match p.entries? with
  | none => cycleMarker ++ "\n"
  | some entries => join (lines options entries)

end Plan

namespace Snapshot

section

variable {m : Type → Type} [Monad m] [ask : Answers m]

/-- The functions, defined in order, each with a blank line after it. -/
def definitions (g : Index) (order : List BlockId) : EmitT m (List Entry) := do
  let parts ← order.mapM fun id => do
    let entries ← Emit.definition g id
    return entries ++ [.blank]
  return parts.flatten

/-- The entries of a script whose functions and top-level blocks are in order. -/
def entries (g : Index) (functions main : List BlockId) : EmitT m (List Entry) := do
  let defined ← definitions g functions
  let executed ←
    if main.isEmpty then pure [] else Emit.scope g.topScope main {} none 0 true
  let p ← get
  Emit.note (.script g.blocks.length p.table.size p.findings.length)
  return Plan.part Plan.functionsBanner functions defined ++
    Plan.part Plan.executionBanner main executed

/-- The outcome of a generation for a graph, after the findings of indexing it. -/
def planOf (suffixLength : Int) (g : Index) (found : List Finding) : m Plan := do
  let start : Pass := { binder := { suffixLength }, journal := found.map .finding }
  match ← ask.orders g with
  | .error cycle => return ⟨none, start.note (.finding (.graphCycle cycle))⟩
  | .ok (functions, main) =>
    let (entries, pass) ← (entries g functions main).run start
    return ⟨some entries, pass⟩

/-- The outcome of a generation whose answers come in `m`. -/
def planIn (suffixLength : Int) (s : Snapshot) : m Plan := do
  let nesting ← ask.nesting s
  planOf suffixLength ⟨s.blocks, s.wiring.accepted, nesting.parents⟩
    (s.wiring.findings ++ nesting.findings)

end

/-- The outcome of a generation. -/
def plan (suffixLength : Int) (s : Snapshot) : Plan := Id.run (s.planIn suffixLength)

end Snapshot

/-- A finished generation. -/
structure Generation where
  script : String
  bindings : List Binding
  journal : List Event
  deriving DecidableEq, Repr

namespace Generation

def findings (g : Generation) : List Finding := g.journal.filterMap Event.finding?

def diagnostics (g : Generation) : List Diagnostic := g.findings.map Finding.diagnostic

def hasErrors (g : Generation) : Bool := Diagnostic.hasErrors g.diagnostics

end Generation

/-- A plan that is written out. -/
def Plan.generation (options : GeneratorOptions) (p : Plan) : Generation :=
  ⟨p.text options, p.pass.table.entries, p.pass.journal⟩

/-- The script of a snapshot, with its bindings and what happened on the way. -/
def Snapshot.generate (options : GeneratorOptions) (s : Snapshot) : Generation :=
  (s.plan options.suffixLength).generation options

end BlockScript
