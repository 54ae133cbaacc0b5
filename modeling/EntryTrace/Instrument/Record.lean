import EntryTrace.Tree.Build

/-!
# The entry record

On entry a traced function logs a record: a severity, a message, its name and its arguments. The
statement that does so is sketched as an expression and then made into nodes. The names of the
arguments are nodes taken from the function itself; all other nodes are new.
-/

namespace EntryTrace

set_option autoImplicit false

/-- A member of an object to be made: a key with a value, or a name that stands for itself. -/
inductive Sketch.Field (α : Type) where
  | keyed (key : String) (value : α)
  | shorthand (name : Node)

/-- An expression to be made. -/
inductive Sketch where
  | text (value : String)
  | null
  | name (value : String)
  | member (object : Sketch) (property : String)
  | call (callee : Sketch) (arguments : List Sketch)
  | object (fields : List (Sketch.Field Sketch))

namespace Sketch

/-- A property of a named object. -/
def memberOf (object property : String) : Sketch := member (name object) property

/-- A text, or null in its absence. -/
def textOrNull : Option String → Sketch
  | some value => text value
  | none => null

mutual

/-- The nodes of the sketched expression. -/
def toNode : Sketch → Node
  | text value => .ofForm (.stringLiteral value)
  | null => .ofForm .nullLiteral
  | name value => .identifier value
  | member owner property => .ofForm (.propertyAccess (toNode owner) (.identifier property))
  | call callee arguments => .ofForm (.callExpression (toNode callee) (toNodes arguments))
  | object fields => .ofForm (.objectLiteral (fieldNodes fields))

def toNodes : List Sketch → List Node
  | [] => []
  | sketch :: sketches => toNode sketch :: toNodes sketches

def fieldNodes : List (Field Sketch) → List Node
  | [] => []
  | field :: fields => fieldNode field :: fieldNodes fields

def fieldNode : Field Sketch → Node
  | .keyed key value => .ofForm (.propertyAssignment (.identifier key) (toNode value))
  | .shorthand n => .ofForm (.shorthandProperty n)

end

theorem fieldNodes_shorthand (names : List Node) :
    fieldNodes (names.map .shorthand) = names.map fun n => .ofForm (.shorthandProperty n) := by
  induction names with
  | nil => rfl
  | cons n names ih => simp [fieldNodes, fieldNode, ih]

end Sketch

/-- What a function logs on entry: its name, if it has one, and its named parameters. -/
structure EntryRecord where
  function : Option String
  arguments : List Node

namespace EntryRecord

def severity : String := "TRACE"

def message : String := "Entering function"

/-- The object that is logged. -/
def content (record : EntryRecord) : Sketch :=
  .object [
    .keyed "severity" (.text severity),
    .keyed "message" (.text message),
    .keyed "functionName" (.textOrNull record.function),
    .keyed "arguments" (.object (record.arguments.map .shorthand))]

/-- The call that logs the object as one line of JSON. -/
def logging (record : EntryRecord) : Sketch :=
  .call (.memberOf "console" "log") [.call (.memberOf "JSON" "stringify") [record.content]]

def statement (record : EntryRecord) : Node := .ofForm (.expressionStatement record.logging.toNode)

/-- Puts the log statement in front of a block, which stays whole inside a new one. Other nodes are
left as they are. -/
def enclose (record : EntryRecord) (n : Node) : Node :=
  if n.kind = .block then .block [record.statement, n] else n

end EntryRecord

end EntryTrace
