import EntryTrace.Tree.Node

/-!
# Making nodes

Nodes made here have no source text and no comments. Constructs with only subtrees in their slots
are made by `Node.ofForm` from the form itself; the functions below also make the names that go
into a slot.
-/

namespace EntryTrace.Node

set_option autoImplicit false

def identifier (text : String) : Node := ofForm (.identifier text)

def block (statements : List Node) : Node := ofForm (.block statements)

def labeled (label : String) (statement : Node) : Node :=
  ofForm (.labeledStatement (identifier label) statement)

def function (name : Option String) (parameters : List Node) (body : Option Node) : Node :=
  ofForm (.functionDeclaration (name.map identifier) parameters body)

/-- A variable statement that declares one name. -/
def variableStatement (binding : Binding) (name : Node) (initial : Option Node) : Node :=
  ofForm (.variableStatement binding [ofForm (.variableDeclaration name initial)])

def breakTo (label : Option String) : Node := ofForm (.breakStatement (label.map identifier))

def continueTo (label : Option String) : Node := ofForm (.continueStatement (label.map identifier))

end EntryTrace.Node
