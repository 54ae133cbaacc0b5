import EntryTrace.Text.Literal
import EntryTrace.Tree.Node

/-!
# Source text of trees

A tree is written from the texts of its children, which wait for the level of indentation. Only
blocks open a level: each statement of a block stands on a line of its own. Comments are written
before their node; a line comment also ends the line.
-/

namespace EntryTrace

set_option autoImplicit false

/-- How text is laid out: the width of a level and whether comments are written. -/
structure Layout where
  indentWidth : Nat := 4
  comments : Bool := true
  deriving DecidableEq, Repr

/-- A line break and the indentation of the level. -/
def Layout.newline (layout : Layout) (level : Nat) : List Char :=
  '\n' :: List.replicate (level * layout.indentWidth) ' '

theorem Layout.newline_zero (layout : Layout) : layout.newline 0 = ['\n'] := by
  rw [newline, Nat.zero_mul]
  rfl

namespace Form

def separated (parts : List (List Char)) : List Char := List.intercalate [',', ' '] parts

theorem intercalate_cons_eq (separator part : List Char) (parts : List (List Char)) :
    List.intercalate separator (part :: parts) = part ++ parts.flatMap (separator ++ ·) := by
  induction parts generalizing part with
  | nil => simp
  | cons next parts ih =>
    rw [List.intercalate_cons_cons, ih, List.flatMap_cons, List.append_assoc, List.append_assoc]

def braced : List (List Char) → List Char
  | [] => ['{', '}']
  | parts => ['{', ' '] ++ separated parts ++ [' ', '}']

/-- An optional part after what introduces it; nothing when it is absent. -/
def after (lead : List Char) : Option (List Char) → List Char
  | none => []
  | some part => lead ++ part

/-- The statements of a block on lines of their own, one level in. -/
def blockText (layout : Layout) (level : Nat) : List (Nat → List Char) → List Char
  | [] => ['{', '}']
  | statements =>
    '{' :: (statements.flatMap (fun s => layout.newline (level + 1) ++ s (level + 1)) ++
      layout.newline level ++ ['}'])

theorem blockText_map {α : Type} (layout : Layout) (level : Nat) (text : α → Nat → List Char)
    {as : List α} (h : as ≠ []) :
    blockText layout level (as.map text) =
      '{' :: (as.flatMap (fun a => layout.newline (level + 1) ++ text a (level + 1)) ++
        layout.newline level ++ ['}']) := by
  cases as with
  | nil => exact absurd rfl h
  | cons a as => simp [blockText, List.flatMap_map]

/-- The text of a form at a level of indentation, from the texts of what fills its slots. -/
def render (layout : Layout) (level : Nat) : Form (Nat → List Char) → List Char
  | sourceFile statements =>
    List.intercalate (layout.newline level) (statements.map fun s => s level)
  | block statements => blockText layout level statements
  | emptyStatement => [';']
  | expressionStatement expression => expression level ++ [';']
  | labeledStatement label statement => label level ++ [':', ' '] ++ statement level
  | functionDeclaration name parameters body =>
    "function".toList ++ after [' '] (name.map fun t => t level) ++ ['('] ++
      separated (parameters.map fun t => t level) ++ [')'] ++
      (match body with
        | none => [';']
        | some text => ' ' :: text level)
  | parameter name initial => name level ++ after " = ".toList (initial.map fun t => t level)
  | objectBindingPattern elements => braced (elements.map fun t => t level)
  | arrayBindingPattern elements => ['['] ++ separated (elements.map fun t => t level) ++ [']']
  | variableStatement binding declarations =>
    binding.keyword.toList ++ [' '] ++ separated (declarations.map fun t => t level) ++ [';']
  | variableDeclaration name initial =>
    name level ++ after " = ".toList (initial.map fun t => t level)
  | returnStatement result =>
    "return".toList ++ after [' '] (result.map fun t => t level) ++ [';']
  | ifStatement condition consequent alternative =>
    "if (".toList ++ condition level ++ [')', ' '] ++ consequent level ++
      after " else ".toList (alternative.map fun t => t level)
  | whileStatement condition body =>
    "while (".toList ++ condition level ++ [')', ' '] ++ body level
  | breakStatement label => "break".toList ++ after [' '] (label.map fun t => t level) ++ [';']
  | continueStatement label =>
    "continue".toList ++ after [' '] (label.map fun t => t level) ++ [';']
  | identifier text => text.toList
  | stringLiteral text => Text.literal text.toList
  | numericLiteral text => text.toList
  | booleanLiteral value => if value then "true".toList else "false".toList
  | nullLiteral => "null".toList
  | callExpression callee arguments =>
    callee level ++ ['('] ++ separated (arguments.map fun t => t level) ++ [')']
  | propertyAccess object property => object level ++ ['.'] ++ property level
  | binaryExpression left operator right =>
    left level ++ [' '] ++ operator.symbol.toList ++ [' '] ++ right level
  | objectLiteral properties => braced (properties.map fun t => t level)
  | propertyAssignment name value => name level ++ [':', ' '] ++ value level
  | shorthandProperty name => name level

end Form

/-- A comment as it leads a node at a level of indentation. -/
def Comment.render (layout : Layout) (level : Nat) (comment : Comment) : List Char :=
  match comment.style with
  | .block => "/*".toList ++ comment.text.toList ++ "*/ ".toList
  | .line => "//".toList ++ comment.text.toList ++ layout.newline level

namespace Node

/-- The comments that lead a node, or nothing when the layout leaves comments out. -/
def leading (layout : Layout) (level : Nat) (comments : List Comment) : List Char :=
  if layout.comments then comments.flatMap (Comment.render layout level) else []

/-- The text of a tree at a level of indentation. -/
def render (layout : Layout) (n : Node) : Nat → List Char :=
  n.fold fun (own : Node) (form : Form (Nat → List Char)) (level : Nat) =>
    leading layout level own.comments ++ form.render layout level

theorem render_eq (layout : Layout) (n : Node) (level : Nat) :
    n.render layout level =
      leading layout level n.comments ++ (n.form.map (render layout)).render layout level := by
  unfold render
  rw [fold_eq]

theorem render_of_comments (layout : Layout) {n : Node} (h : n.comments = []) (level : Nat) :
    n.render layout level = (n.form.map (render layout)).render layout level := by
  rw [render_eq]
  simp [leading, h]

theorem render_ofForm (layout : Layout) (form : Form Node) (level : Nat) :
    (ofForm form).render layout level = (form.map (render layout)).render layout level :=
  render_of_comments layout rfl level

/-- The source text of a tree. -/
def print (n : Node) (layout : Layout := {}) : String := String.ofList (n.render layout 0)

/-- The source texts of several trees, one after another on lines of their own. -/
def printLines (ns : List Node) : String :=
  String.ofList (List.intercalate ['\n'] (ns.map fun n => n.render {} 0))

end Node

end EntryTrace
