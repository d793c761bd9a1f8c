import BlockScript.Graph.Snapshot
import BlockScript.Json.Display
import BlockScript.Schema.Field

/-!
# Graph documents

The readers of graph documents, and beside them the documents that the parts of a graph
write back: every member spelled out, defaults included.

* `Snapshot.ofJson`: all faults of a document, or its snapshot.
* `Snapshot.toJson`: the document of a snapshot.
-/

namespace BlockScript

open Schema

/-! ### Reading -/

def ParameterType.ofJson : Json → Checked ParameterType
  | .str s => match ParameterType.ofName? s with
    | some t => .ok t
    | none => .fail .unknownParameterType (.str s)
  | j => .fail .unknownParameterType j

def Parameter.ofMembers (ms : Members) : Checked Parameter :=
  Parameter.mk <$> required "name" nonEmptyString ms
    <*> optional "type" ParameterType.ofJson .string ms
    <*> optional "value" string "" ms
    <*> optional "default_value" string "" ms
    <*> optional "description" string "" ms
    <*> optional "is_mandatory" bool false ms
    <*> optional "valid_values" strings [] ms

def Parameter.ofJson : Json → Checked Parameter := record .parameter Parameter.ofMembers

/-- The members of a container of a known kind. -/
def Container.ofMembers (kind : ContainerKind) (ms : Members) : Checked Container :=
  match kind with
  | .ifElse =>
    Container.ifElse <$> optional "condition" string Container.defaultCondition ms
      <*> optional "then" strings [] ms
      <*> eitherKey "else" "else_" strings [] ms
  | .forEach => Container.forEach <$> optional "body" strings [] ms
  | .whileLoop =>
    Container.whileLoop <$> optional "condition" string Container.defaultCondition ms
      <*> optional "body" strings [] ms
  | .tryCatch =>
    Container.tryCatch <$> eitherKey "try" "try_" strings [] ms
      <*> optional "catch" strings [] ms
  | .function =>
    Container.function <$> optional "function_name" string Container.defaultFunctionName ms
      <*> optional "input_param" string "" ms
      <*> optional "body" strings [] ms

/-- The kind that a tag names. -/
def ContainerKind.ofTag? : Json → Option ContainerKind
  | .str s => ContainerKind.ofName? s
  | _ => none

/-- A container names its kind, which decides the other members. -/
def Container.ofJson : Json → Checked Container
  | .obj ms => match ms.lookup "kind" with
    | none => .fail .untagged (.obj ms)
    | some tag => match ContainerKind.ofTag? tag with
      | none => .fail (.unknownKind tag.display) (.obj ms)
      | some kind => (Container.ofMembers kind ms).within (.key kind.name)
  | j => .fail .notContainer j

/-- A block has no container when the member is missing or null. -/
def Container.ofJson? : Json → Checked (Option Container)
  | .null => .ok none
  | j => some <$> Container.ofJson j

def Block.ofMembers (ms : Members) : Checked Block :=
  Block.mk <$> required "id" nonEmptyString ms
    <*> optional "title" string "New Block" ms
    <*> optional "category" string "Custom" ms
    <*> optional "command" string "" ms
    <*> optional "script_body" string "" ms
    <*> optional "output_variable" string "" ms
    <*> optional "parameters" (list Parameter.ofJson) [] ms
    <*> optional "inputs" strings ["In"] ms
    <*> optional "outputs" strings ["Out"] ms
    <*> optional "container" Container.ofJson? none ms

def Block.ofJson : Json → Checked Block := record .block Block.ofMembers

def Connection.ofMembers (ms : Members) : Checked Connection :=
  Connection.mk <$> required "from_block_id" nonEmptyString ms
    <*> optional "from_port_id" string "Out" ms
    <*> required "to_block_id" nonEmptyString ms
    <*> optional "to_port_id" string "In" ms

def Connection.ofJson : Json → Checked Connection := record .connection Connection.ofMembers

/-- A list of blocks that is not too long. -/
def Snapshot.blocksOfJson (j : Json) : Checked (List Block) :=
  (list Block.ofJson j).andThen fun blocks =>
    if maxBlocks < blocks.length then .fail .tooManyBlocks j else .ok blocks

/-- A list of connections that is not too long. -/
def Snapshot.connectionsOfJson (j : Json) : Checked (List Connection) :=
  (list Connection.ofJson j).andThen fun connections =>
    if maxConnections < connections.length then .fail .tooManyConnections j else .ok connections

/-- A snapshot whose blocks have distinct ids, read from the members `ms`. -/
def Snapshot.distinct (ms : Members) (s : Snapshot) : Checked Snapshot :=
  if (s.blocks.map Block.id).Nodup then .ok s else .fail .repeatedIds (.obj ms)

def Snapshot.ofMembers (ms : Members) : Checked Snapshot :=
  (Snapshot.mk <$> optional "blocks" Snapshot.blocksOfJson [] ms
    <*> optional "connections" Snapshot.connectionsOfJson [] ms).andThen (Snapshot.distinct ms)

def Snapshot.ofJson : Json → Checked Snapshot := record .snapshot Snapshot.ofMembers

/-! ### Writing -/

/-- The spelling of the zone keys that have two. -/
inductive KeyStyle where
  | plain
  | underscored
  deriving DecidableEq

def KeyStyle.key (style : KeyStyle) (word : String) : String :=
  match style with
  | .plain => word
  | .underscored => word ++ "_"

def Parameter.toJson (p : Parameter) : Json :=
  .obj [("name", .str p.name), ("type", .str p.type.name), ("value", .str p.value),
    ("default_value", .str p.defaultValue), ("description", .str p.description),
    ("is_mandatory", .bool p.isMandatory), ("valid_values", .ofStrings p.validValues)]

def Container.toJson (style : KeyStyle) (c : Container) : Json :=
  .obj (("kind", .str c.kind.name) :: match c with
    | .ifElse condition thenChildren elseChildren =>
      [("condition", .str condition), ("then", .ofStrings thenChildren),
        (style.key "else", .ofStrings elseChildren)]
    | .forEach body => [("body", .ofStrings body)]
    | .whileLoop condition body => [("condition", .str condition), ("body", .ofStrings body)]
    | .tryCatch tryChildren catchChildren =>
      [(style.key "try", .ofStrings tryChildren), ("catch", .ofStrings catchChildren)]
    | .function name inputParam body =>
      [("function_name", .str name), ("input_param", .str inputParam), ("body", .ofStrings body)])

def Block.toJson (style : KeyStyle) (b : Block) : Json :=
  .obj [("id", .str b.id), ("title", .str b.title), ("category", .str b.category),
    ("command", .str b.command), ("script_body", .str b.scriptBody),
    ("output_variable", .str b.outputVariable),
    ("parameters", .arr (b.parameters.map Parameter.toJson)),
    ("inputs", .ofStrings b.inputs), ("outputs", .ofStrings b.outputs),
    ("container", (b.container.map (Container.toJson style)).getD .null)]

def Connection.toJson (c : Connection) : Json :=
  .obj [("from_block_id", .str c.source), ("from_port_id", .str c.outlet),
    ("to_block_id", .str c.target), ("to_port_id", .str c.inlet)]

def Snapshot.toJson (style : KeyStyle) (s : Snapshot) : Json :=
  .obj [("blocks", .arr (s.blocks.map (Block.toJson style))),
    ("connections", .arr (s.connections.map Connection.toJson))]

end BlockScript
