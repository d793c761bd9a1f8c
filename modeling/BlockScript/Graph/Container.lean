import BlockScript.Text.Blank

/-!
# Containers

A container block holds other blocks in its zones.  There are five kinds; each has a fixed
list of zones, and only functions are hoisted, that is, defined ahead of the script's
execution part.
-/

namespace BlockScript

abbrev BlockId := String

/-- The zones that containers have. -/
inductive ZoneLabel where
  | thenZone
  | elseZone
  | body
  | tryZone
  | catchZone
  deriving DecidableEq, Repr

namespace ZoneLabel

def all : List ZoneLabel := [.thenZone, .elseZone, .body, .tryZone, .catchZone]

def name : ZoneLabel → String
  | .thenZone => "Then"
  | .elseZone => "Else"
  | .body => "Body"
  | .tryZone => "Try"
  | .catchZone => "Catch"

def ofName? (word : String) : Option ZoneLabel := all.find? (·.name == word)

theorem ofName?_name (label : ZoneLabel) : ofName? label.name = some label := by
  cases label <;> rfl

end ZoneLabel

inductive ContainerKind where
  | ifElse
  | forEach
  | whileLoop
  | tryCatch
  | function
  deriving DecidableEq, Repr

namespace ContainerKind

def all : List ContainerKind := [.ifElse, .forEach, .whileLoop, .tryCatch, .function]

/-- The word a document uses for the kind. -/
def name : ContainerKind → String
  | .ifElse => "if_else"
  | .forEach => "for_each"
  | .whileLoop => "while"
  | .tryCatch => "try_catch"
  | .function => "function"

def ofName? (word : String) : Option ContainerKind := all.find? (·.name == word)

theorem ofName?_name (kind : ContainerKind) : ofName? kind.name = some kind := by
  cases kind <;> rfl

def zones : ContainerKind → List ZoneLabel
  | .ifElse => [.thenZone, .elseZone]
  | .forEach => [.body]
  | .whileLoop => [.body]
  | .tryCatch => [.tryZone, .catchZone]
  | .function => [.body]

/-- Functions are defined ahead of the execution part. -/
def isHoisted (kind : ContainerKind) : Bool := kind == .function

end ContainerKind

/-- A zone of a particular container. -/
structure Place where
  container : BlockId
  zone : ZoneLabel
  deriving DecidableEq, Repr

/-- A zone of one container, with the children it lists. -/
structure Zone where
  label : ZoneLabel
  children : List BlockId
  deriving DecidableEq, Repr

/-- What makes a block a container. -/
inductive Container where
  | ifElse (condition : String) (thenChildren elseChildren : List BlockId)
  | forEach (body : List BlockId)
  | whileLoop (condition : String) (body : List BlockId)
  | tryCatch (tryChildren catchChildren : List BlockId)
  | function (name inputParam : String) (body : List BlockId)
  deriving DecidableEq, Repr

namespace Container

def defaultCondition : String := "$true"

def defaultFunctionName : String := "Invoke-MyFunction"

def kind : Container → ContainerKind
  | .ifElse .. => .ifElse
  | .forEach .. => .forEach
  | .whileLoop .. => .whileLoop
  | .tryCatch .. => .tryCatch
  | .function .. => .function

def zones : Container → List Zone
  | .ifElse _ thenChildren elseChildren => [⟨.thenZone, thenChildren⟩, ⟨.elseZone, elseChildren⟩]
  | .forEach body => [⟨.body, body⟩]
  | .whileLoop _ body => [⟨.body, body⟩]
  | .tryCatch tryChildren catchChildren => [⟨.tryZone, tryChildren⟩, ⟨.catchZone, catchChildren⟩]
  | .function _ _ body => [⟨.body, body⟩]

/-- A container has the zones of its kind. -/
@[simp] theorem map_label_zones (c : Container) : c.zones.map Zone.label = c.kind.zones := by
  cases c <;> rfl

/-- The name a function is defined under; the default when the given one is blank. -/
def resolveFunctionName (name : String) : String := Text.trimOr defaultFunctionName name

/-- The condition as it is written; the default when the given one is blank. -/
def resolveCondition (condition : String) : String := Text.trimOr defaultCondition condition

end Container

end BlockScript
