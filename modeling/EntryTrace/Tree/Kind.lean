/-!
# Kinds of node

The trees cover a small part of JavaScript: statements, function and variable declarations with
their patterns, and expressions. `Kind` names what a node is without saying what stands in it.
-/

namespace EntryTrace

set_option autoImplicit false

inductive Kind where
  | sourceFile
  | block
  | emptyStatement
  | expressionStatement
  | labeledStatement
  | functionDeclaration
  | parameter
  | objectBindingPattern
  | arrayBindingPattern
  | variableStatement
  | variableDeclaration
  | returnStatement
  | ifStatement
  | whileStatement
  | breakStatement
  | continueStatement
  | identifier
  | stringLiteral
  | numericLiteral
  | booleanLiteral
  | nullLiteral
  | callExpression
  | propertyAccess
  | binaryExpression
  | objectLiteral
  | propertyAssignment
  | shorthandProperty
  deriving DecidableEq, Repr

namespace Kind

def all : List Kind :=
  [sourceFile, block, emptyStatement, expressionStatement, labeledStatement, functionDeclaration,
    parameter, objectBindingPattern, arrayBindingPattern, variableStatement, variableDeclaration,
    returnStatement, ifStatement, whileStatement, breakStatement, continueStatement, identifier,
    stringLiteral, numericLiteral, booleanLiteral, nullLiteral, callExpression, propertyAccess,
    binaryExpression, objectLiteral, propertyAssignment, shorthandProperty]

/-- The kind's name as one word. -/
def name : Kind → String
  | sourceFile => "SourceFile"
  | block => "Block"
  | emptyStatement => "EmptyStatement"
  | expressionStatement => "ExpressionStatement"
  | labeledStatement => "LabeledStatement"
  | functionDeclaration => "FunctionDeclaration"
  | parameter => "Parameter"
  | objectBindingPattern => "ObjectBindingPattern"
  | arrayBindingPattern => "ArrayBindingPattern"
  | variableStatement => "VariableStatement"
  | variableDeclaration => "VariableDeclaration"
  | returnStatement => "ReturnStatement"
  | ifStatement => "IfStatement"
  | whileStatement => "WhileStatement"
  | breakStatement => "BreakStatement"
  | continueStatement => "ContinueStatement"
  | identifier => "Identifier"
  | stringLiteral => "StringLiteral"
  | numericLiteral => "NumericLiteral"
  | booleanLiteral => "BooleanLiteral"
  | nullLiteral => "NullLiteral"
  | callExpression => "CallExpression"
  | propertyAccess => "PropertyAccessExpression"
  | binaryExpression => "BinaryExpression"
  | objectLiteral => "ObjectLiteralExpression"
  | propertyAssignment => "PropertyAssignment"
  | shorthandProperty => "ShorthandPropertyAssignment"

/-- The kind in running text. -/
def phrase : Kind → String
  | sourceFile => "source file"
  | block => "block"
  | emptyStatement => "empty statement"
  | expressionStatement => "expression statement"
  | labeledStatement => "labeled statement"
  | functionDeclaration => "function declaration"
  | parameter => "parameter"
  | objectBindingPattern => "object binding pattern"
  | arrayBindingPattern => "array binding pattern"
  | variableStatement => "variable statement"
  | variableDeclaration => "variable declaration"
  | returnStatement => "return statement"
  | ifStatement => "if statement"
  | whileStatement => "while statement"
  | breakStatement => "break statement"
  | continueStatement => "continue statement"
  | identifier => "identifier"
  | stringLiteral => "string literal"
  | numericLiteral => "numeric literal"
  | booleanLiteral => "boolean literal"
  | nullLiteral => "null literal"
  | callExpression => "call expression"
  | propertyAccess => "property access expression"
  | binaryExpression => "binary expression"
  | objectLiteral => "object literal expression"
  | propertyAssignment => "property assignment"
  | shorthandProperty => "shorthand property assignment"

/-- The kind that has the given one-word name. -/
def ofName? (word : String) : Option Kind := all.find? fun k => k.name == word

def isStatement : Kind → Bool
  | block | emptyStatement | expressionStatement | labeledStatement | functionDeclaration
  | variableStatement | returnStatement | ifStatement | whileStatement | breakStatement
  | continueStatement => true
  | _ => false

def isExpression : Kind → Bool
  | identifier | stringLiteral | numericLiteral | booleanLiteral | nullLiteral | callExpression
  | propertyAccess | binaryExpression | objectLiteral => true
  | _ => false

end Kind

end EntryTrace
