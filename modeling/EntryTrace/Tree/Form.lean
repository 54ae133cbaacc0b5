import EntryTrace.Tree.Kind

/-!
# One layer of a tree

`Form α` is a node's own construct with its slots filled by values of type `α`: subtrees in a tree,
texts while printing, numbers while measuring. All traversals reach the slots through `map`, `mapM`
and `children`, which agree on the order of the slots. A form is determined by its `shape`, the
construct with blank slots, together with its children.
-/

namespace EntryTrace

set_option autoImplicit false

inductive Operator where
  | add
  | subtract
  | multiply
  | divide
  | strictlyEqual
  | less
  | greater
  | assign
  deriving DecidableEq, Repr

namespace Operator

def symbol : Operator → String
  | add => "+"
  | subtract => "-"
  | multiply => "*"
  | divide => "/"
  | strictlyEqual => "==="
  | less => "<"
  | greater => ">"
  | assign => "="

def all : List Operator :=
  [add, subtract, multiply, divide, strictlyEqual, less, greater, assign]

def ofSymbol? (text : String) : Option Operator := all.find? fun o => o.symbol == text

end Operator

/-- How a variable statement binds its names. -/
inductive Binding where
  | functionScoped
  | blockScoped
  | constant
  deriving DecidableEq, Repr

namespace Binding

def keyword : Binding → String
  | functionScoped => "var"
  | blockScoped => "let"
  | constant => "const"

def ofKeyword? (word : String) : Option Binding :=
  [functionScoped, blockScoped, constant].find? fun b => b.keyword == word

end Binding

inductive Form (α : Type) where
  | sourceFile (statements : List α)
  | block (statements : List α)
  | emptyStatement
  | expressionStatement (expression : α)
  | labeledStatement (label statement : α)
  | functionDeclaration (name : Option α) (parameters : List α) (body : Option α)
  | parameter (name : α) (initial : Option α)
  | objectBindingPattern (elements : List α)
  | arrayBindingPattern (elements : List α)
  | variableStatement (binding : Binding) (declarations : List α)
  | variableDeclaration (name : α) (initial : Option α)
  | returnStatement (result : Option α)
  | ifStatement (condition consequent : α) (alternative : Option α)
  | whileStatement (condition body : α)
  | breakStatement (label : Option α)
  | continueStatement (label : Option α)
  | identifier (text : String)
  | stringLiteral (text : String)
  | numericLiteral (text : String)
  | booleanLiteral (value : Bool)
  | nullLiteral
  | callExpression (callee : α) (arguments : List α)
  | propertyAccess (object property : α)
  | binaryExpression (left : α) (operator : Operator) (right : α)
  | objectLiteral (properties : List α)
  | propertyAssignment (name value : α)
  | shorthandProperty (name : α)
  deriving DecidableEq, Repr

namespace Form

variable {α β γ : Type}

def kind : Form α → Kind
  | sourceFile _ => .sourceFile
  | block _ => .block
  | emptyStatement => .emptyStatement
  | expressionStatement _ => .expressionStatement
  | labeledStatement _ _ => .labeledStatement
  | functionDeclaration _ _ _ => .functionDeclaration
  | parameter _ _ => .parameter
  | objectBindingPattern _ => .objectBindingPattern
  | arrayBindingPattern _ => .arrayBindingPattern
  | variableStatement _ _ => .variableStatement
  | variableDeclaration _ _ => .variableDeclaration
  | returnStatement _ => .returnStatement
  | ifStatement _ _ _ => .ifStatement
  | whileStatement _ _ => .whileStatement
  | breakStatement _ => .breakStatement
  | continueStatement _ => .continueStatement
  | identifier _ => .identifier
  | stringLiteral _ => .stringLiteral
  | numericLiteral _ => .numericLiteral
  | booleanLiteral _ => .booleanLiteral
  | nullLiteral => .nullLiteral
  | callExpression _ _ => .callExpression
  | propertyAccess _ _ => .propertyAccess
  | binaryExpression _ _ _ => .binaryExpression
  | objectLiteral _ => .objectLiteral
  | propertyAssignment _ _ => .propertyAssignment
  | shorthandProperty _ => .shorthandProperty

/-- The contents of the slots, in the order in which they are written. -/
def children : Form α → List α
  | sourceFile statements => statements
  | block statements => statements
  | emptyStatement => []
  | expressionStatement expression => [expression]
  | labeledStatement label statement => [label, statement]
  | functionDeclaration name parameters body => name.toList ++ (parameters ++ body.toList)
  | parameter name initial => name :: initial.toList
  | objectBindingPattern elements => elements
  | arrayBindingPattern elements => elements
  | variableStatement _ declarations => declarations
  | variableDeclaration name initial => name :: initial.toList
  | returnStatement result => result.toList
  | ifStatement condition consequent alternative => condition :: consequent :: alternative.toList
  | whileStatement condition body => [condition, body]
  | breakStatement label => label.toList
  | continueStatement label => label.toList
  | identifier _ => []
  | stringLiteral _ => []
  | numericLiteral _ => []
  | booleanLiteral _ => []
  | nullLiteral => []
  | callExpression callee arguments => callee :: arguments
  | propertyAccess object property => [object, property]
  | binaryExpression left _ right => [left, right]
  | objectLiteral properties => properties
  | propertyAssignment name value => [name, value]
  | shorthandProperty name => [name]

/-- Replaces the content of every slot. -/
def map (f : α → β) : Form α → Form β
  | sourceFile statements => sourceFile (statements.map f)
  | block statements => block (statements.map f)
  | emptyStatement => emptyStatement
  | expressionStatement expression => expressionStatement (f expression)
  | labeledStatement label statement => labeledStatement (f label) (f statement)
  | functionDeclaration name parameters body =>
    functionDeclaration (name.map f) (parameters.map f) (body.map f)
  | parameter name initial => parameter (f name) (initial.map f)
  | objectBindingPattern elements => objectBindingPattern (elements.map f)
  | arrayBindingPattern elements => arrayBindingPattern (elements.map f)
  | variableStatement binding declarations => variableStatement binding (declarations.map f)
  | variableDeclaration name initial => variableDeclaration (f name) (initial.map f)
  | returnStatement result => returnStatement (result.map f)
  | ifStatement condition consequent alternative =>
    ifStatement (f condition) (f consequent) (alternative.map f)
  | whileStatement condition body => whileStatement (f condition) (f body)
  | breakStatement label => breakStatement (label.map f)
  | continueStatement label => continueStatement (label.map f)
  | identifier text => identifier text
  | stringLiteral text => stringLiteral text
  | numericLiteral text => numericLiteral text
  | booleanLiteral value => booleanLiteral value
  | nullLiteral => nullLiteral
  | callExpression callee arguments => callExpression (f callee) (arguments.map f)
  | propertyAccess object property => propertyAccess (f object) (f property)
  | binaryExpression left operator right => binaryExpression (f left) operator (f right)
  | objectLiteral properties => objectLiteral (properties.map f)
  | propertyAssignment name value => propertyAssignment (f name) (f value)
  | shorthandProperty name => shorthandProperty (f name)

/-- Replaces the content of every slot by an effectful step, slot after slot. -/
def mapM {m : Type → Type} [Monad m] (f : α → m β) : Form α → m (Form β)
  | sourceFile statements => do return sourceFile (← statements.mapM f)
  | block statements => do return block (← statements.mapM f)
  | emptyStatement => return emptyStatement
  | expressionStatement expression => do return expressionStatement (← f expression)
  | labeledStatement label statement => do return labeledStatement (← f label) (← f statement)
  | functionDeclaration name parameters body => do
    return functionDeclaration (← name.mapM f) (← parameters.mapM f) (← body.mapM f)
  | parameter name initial => do return parameter (← f name) (← initial.mapM f)
  | objectBindingPattern elements => do return objectBindingPattern (← elements.mapM f)
  | arrayBindingPattern elements => do return arrayBindingPattern (← elements.mapM f)
  | variableStatement binding declarations => do
    return variableStatement binding (← declarations.mapM f)
  | variableDeclaration name initial => do
    return variableDeclaration (← f name) (← initial.mapM f)
  | returnStatement result => do return returnStatement (← result.mapM f)
  | ifStatement condition consequent alternative => do
    return ifStatement (← f condition) (← f consequent) (← alternative.mapM f)
  | whileStatement condition body => do return whileStatement (← f condition) (← f body)
  | breakStatement label => do return breakStatement (← label.mapM f)
  | continueStatement label => do return continueStatement (← label.mapM f)
  | identifier text => return identifier text
  | stringLiteral text => return stringLiteral text
  | numericLiteral text => return numericLiteral text
  | booleanLiteral value => return booleanLiteral value
  | nullLiteral => return nullLiteral
  | callExpression callee arguments => do
    return callExpression (← f callee) (← arguments.mapM f)
  | propertyAccess object property => do return propertyAccess (← f object) (← f property)
  | binaryExpression left operator right => do
    return binaryExpression (← f left) operator (← f right)
  | objectLiteral properties => do return objectLiteral (← properties.mapM f)
  | propertyAssignment name value => do return propertyAssignment (← f name) (← f value)
  | shorthandProperty name => do return shorthandProperty (← f name)

/-- The construct with blank slots: kind, words and texts, and how many slots there are of each sort. -/
def shape (form : Form α) : Form Unit := form.map fun _ => ()

@[simp] theorem kind_map (f : α → β) (form : Form α) : (form.map f).kind = form.kind := by
  cases form <;> rfl

@[simp] theorem children_map (f : α → β) (form : Form α) :
    (form.map f).children = form.children.map f := by
  cases form <;> simp [map, children, Option.toList_map]

theorem map_map (f : α → β) (g : β → γ) (form : Form α) :
    (form.map f).map g = form.map fun a => g (f a) := by
  cases form <;> simp [map, Function.comp_def]

theorem map_id (form : Form α) : form.map (fun a => a) = form := by
  cases form <;> simp [map]

/-- Only what `f` does to the children matters. -/
theorem map_congr {f g : α → β} {form : Form α} (h : ∀ a ∈ form.children, f a = g a) :
    form.map f = form.map g := by
  cases form <;> simp_all [map, children] <;> grind [cases Option]

@[simp] theorem shape_map (f : α → β) (form : Form α) : (form.map f).shape = form.shape := by
  simp [shape, map_map]

theorem option_append_inj {u : α → Unit} {a b : Option α} {as bs : List α}
    (hshape : a.map u = b.map u) (h : a.toList ++ as = b.toList ++ bs) : a = b ∧ as = bs := by
  cases a <;> cases b <;> simp_all

theorem list_append_inj {u : α → Unit} {xs ys as bs : List α} (hshape : xs.map u = ys.map u)
    (h : xs ++ as = ys ++ bs) : xs = ys ∧ as = bs :=
  List.append_inj h (by simpa using congrArg List.length hshape)

theorem eq_of_map_eq {u : α → Unit} {f g : Form α} (hshape : f.map u = g.map u)
    (hchildren : f.children = g.children) : f = g := by
  cases f <;> cases g <;> simp_all [map, children]
  case functionDeclaration.functionDeclaration =>
    obtain ⟨rfl, hrest⟩ := option_append_inj hshape.1 hchildren
    obtain ⟨rfl, hbody⟩ := list_append_inj hshape.2.1 hrest
    exact ⟨rfl, rfl, (option_append_inj hshape.2.2 (congrArg (· ++ []) hbody)).1⟩
  all_goals exact (option_append_inj hshape (congrArg (· ++ []) (by simp_all))).1

/-- Two forms with the same shape and the same children are the same. -/
theorem ext {f g : Form α} (hshape : f.shape = g.shape) (hchildren : f.children = g.children) :
    f = g :=
  eq_of_map_eq hshape hchildren

/-! ### Effectful steps -/

section Effects

variable {m : Type → Type} [Monad m] [LawfulMonad m]

theorem list_mapM_congr {f g : α → m β} {as : List α} (h : ∀ a ∈ as, f a = g a) :
    as.mapM f = as.mapM g := by
  induction as with
  | nil => rfl
  | cons a as ih =>
    rw [List.mapM_cons, List.mapM_cons, h a List.mem_cons_self,
      ih fun x hx => h x (List.mem_cons_of_mem a hx)]

omit [LawfulMonad m] in
theorem option_mapM_congr {f g : α → m β} {o : Option α} (h : ∀ a ∈ o.toList, f a = g a) :
    o.mapM f = o.mapM g := by
  cases o with
  | none => rfl
  | some a => simp [h a (by simp)]

/-- Only the steps at the children matter. -/
theorem mapM_congr {f g : α → m β} {form : Form α} (h : ∀ a ∈ form.children, f a = g a) :
    form.mapM f = form.mapM g := by
  cases form <;> simp +contextual [children] at h <;>
    simp +contextual [mapM, list_mapM_congr (f := f) (g := g),
      option_mapM_congr (f := f) (g := g), h]

/-- Steps without effects are a plain replacement. -/
theorem mapM_pure (g : α → β) (form : Form α) :
    form.mapM (fun a => (pure (g a) : m β)) = pure (form.map g) := by
  have hlist (as : List α) : as.mapM (fun a => (pure (g a) : m β)) = pure (as.map g) := by
    induction as with
    | nil => rfl
    | cons a as ih => simp [List.mapM_cons, ih]
  have hoption (o : Option α) : o.mapM (fun a => (pure (g a) : m β)) = pure (o.map g) := by
    cases o <;> simp
  cases form <;> simp [mapM, map, hlist, hoption]

theorem mapM_map (f : α → β) (g : β → m γ) (form : Form α) :
    (form.map f).mapM g = form.mapM fun a => g (f a) := by
  have hlist (as : List α) : (as.map f).mapM g = as.mapM fun a => g (f a) := by
    induction as with
    | nil => rfl
    | cons a as ih => simp [List.mapM_cons, ih]
  have hoption (o : Option α) : (o.map f).mapM g = o.mapM fun a => g (f a) := by
    cases o <;> simp
  cases form <;> simp [mapM, map, hlist, hoption]

end Effects

/-- Replacement by steps that may fail succeeds when every step does. -/
theorem mapM_eq_some {f : α → Option β} {g : α → β} {form : Form α}
    (h : ∀ a ∈ form.children, f a = some (g a)) : form.mapM f = some (form.map g) := by
  rw [mapM_congr h]
  exact mapM_pure g form

end Form

end EntryTrace
