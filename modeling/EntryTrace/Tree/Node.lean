import EntryTrace.Span
import EntryTrace.Tree.Form

/-!
# Trees

A node is a form whose slots hold nodes, with the span it was read from and the comments that lead
it. Any kind of node may stand in any slot. `Node.fold` is the one recursion on trees: a value is
computed from a node and its form with the values of the children in the slots. `Node.induction`
is the matching principle for proofs.
-/

namespace EntryTrace

set_option autoImplicit false

inductive CommentStyle where
  | block
  | line
  deriving DecidableEq, Repr

structure Comment where
  style : CommentStyle
  text : String
  deriving DecidableEq, Repr

structure Node where
  form : Form Node
  span : Span
  comments : List Comment

namespace Node

variable {β : Type}

def kind (n : Node) : Kind := n.form.kind

def children (n : Node) : List Node := n.form.children

/-- A node without source text and without comments. -/
def ofForm (form : Form Node) : Node := ⟨form, Span.synthetic, []⟩

/-- The text of an identifier. -/
def identifier? (n : Node) : Option String :=
  match n.form with
  | .identifier text => some text
  | _ => none

/-- The statements of a block. -/
def block? (n : Node) : Option (List Node) :=
  match n.form with
  | .block statements => some statements
  | _ => none

/-- Adds a comment after those that already lead the node. -/
def addComment (n : Node) (comment : Comment) : Node :=
  { n with comments := n.comments ++ [comment] }

/-- Whether a leading comment of either style has exactly this text. -/
def hasComment (n : Node) (text : String) : Bool := n.comments.any fun c => c.text == text

mutual

/-- Computes a value from the leaves up: `step` sees each node and its form with the values of the
children in their slots. -/
def fold (step : Node → Form β → β) : Node → β
  | ⟨form, span, comments⟩ => step ⟨form, span, comments⟩ (foldForm step form)

def foldForm (step : Node → Form β → β) : Form Node → Form β
  | .sourceFile statements => .sourceFile (foldList step statements)
  | .block statements => .block (foldList step statements)
  | .emptyStatement => .emptyStatement
  | .expressionStatement expression => .expressionStatement (fold step expression)
  | .labeledStatement label statement => .labeledStatement (fold step label) (fold step statement)
  | .functionDeclaration name parameters body =>
    .functionDeclaration (foldOption step name) (foldList step parameters) (foldOption step body)
  | .parameter name initial => .parameter (fold step name) (foldOption step initial)
  | .objectBindingPattern elements => .objectBindingPattern (foldList step elements)
  | .arrayBindingPattern elements => .arrayBindingPattern (foldList step elements)
  | .variableStatement binding declarations =>
    .variableStatement binding (foldList step declarations)
  | .variableDeclaration name initial =>
    .variableDeclaration (fold step name) (foldOption step initial)
  | .returnStatement result => .returnStatement (foldOption step result)
  | .ifStatement condition consequent alternative =>
    .ifStatement (fold step condition) (fold step consequent) (foldOption step alternative)
  | .whileStatement condition body => .whileStatement (fold step condition) (fold step body)
  | .breakStatement label => .breakStatement (foldOption step label)
  | .continueStatement label => .continueStatement (foldOption step label)
  | .identifier text => .identifier text
  | .stringLiteral text => .stringLiteral text
  | .numericLiteral text => .numericLiteral text
  | .booleanLiteral value => .booleanLiteral value
  | .nullLiteral => .nullLiteral
  | .callExpression callee arguments =>
    .callExpression (fold step callee) (foldList step arguments)
  | .propertyAccess object property => .propertyAccess (fold step object) (fold step property)
  | .binaryExpression left operator right =>
    .binaryExpression (fold step left) operator (fold step right)
  | .objectLiteral properties => .objectLiteral (foldList step properties)
  | .propertyAssignment name value => .propertyAssignment (fold step name) (fold step value)
  | .shorthandProperty name => .shorthandProperty (fold step name)

def foldList (step : Node → Form β → β) : List Node → List β
  | [] => []
  | n :: ns => fold step n :: foldList step ns

def foldOption (step : Node → Form β → β) : Option Node → Option β
  | none => none
  | some n => some (fold step n)

end

theorem foldList_eq (step : Node → Form β → β) (ns : List Node) :
    foldList step ns = ns.map (fold step) := by
  induction ns with
  | nil => rfl
  | cons n ns ih => simp [foldList, ih]

theorem foldOption_eq (step : Node → Form β → β) (n : Option Node) :
    foldOption step n = n.map (fold step) := by
  cases n <;> rfl

theorem foldForm_eq (step : Node → Form β → β) (form : Form Node) :
    foldForm step form = form.map (fold step) := by
  cases form <;> simp [foldForm, Form.map, foldList_eq, foldOption_eq]

/-- A fold is the step at the root over the folds of the children. -/
theorem fold_eq (step : Node → Form β → β) (n : Node) :
    n.fold step = step n (n.form.map (fold step)) := by
  cases n
  simp [fold, foldForm_eq]

/-- What holds of a node as soon as it holds of its children holds of every tree. -/
theorem induction {P : Node → Prop} (step : ∀ n : Node, (∀ c ∈ n.children, P c) → P n)
    (n : Node) : P n := by
  refine @Node.rec P (fun form => ∀ c ∈ form.children, P c) (fun ns => ∀ c ∈ ns, P c)
    (fun o => ∀ c ∈ o.toList, P c) (fun form span comments h => step ⟨form, span, comments⟩ h)
    ?_ ?_ ?_ ?_ ?_ ?_ ?_ ?_ ?_ ?_ ?_ ?_ ?_ ?_ ?_ ?_ ?_ ?_ ?_ ?_ ?_ ?_ ?_ ?_ ?_ ?_ ?_ ?_ ?_ ?_ ?_ n
  all_goals simp_all [Form.children]
  all_goals grind

/-- Whether two trees agree in every form, span and comment. -/
def same (n : Node) : Node → Bool :=
  n.fold fun (own : Node) (form : Form (Node → Bool)) (other : Node) =>
    decide (own.span = other.span) && decide (own.comments = other.comments) &&
      decide (own.form.shape = other.form.shape) &&
      (List.zipWith (fun agrees child => agrees child) form.children other.children).all id

theorem same_eq (n m : Node) : n.same m =
    (decide (n.span = m.span) && decide (n.comments = m.comments) &&
      decide (n.form.shape = m.form.shape) &&
      (List.zipWith same n.children m.children).all id) := by
  unfold same
  rw [fold_eq]
  simp [children, List.zipWith_map_left]

theorem zipWith_same_all {ns : List Node} (h : ∀ n ∈ ns, ∀ m, n.same m = true ↔ n = m)
    {ms : List Node} (hlength : ns.length = ms.length) :
    (List.zipWith same ns ms).all id = true ↔ ns = ms := by
  induction ns generalizing ms with
  | nil => cases ms <;> simp_all
  | cons n ns ih =>
    cases ms with
    | nil => simp at hlength
    | cons m ms =>
      have hhead := h n List.mem_cons_self m
      have htail := @ih (fun x hx => h x (List.mem_cons_of_mem n hx)) ms (by simpa using hlength)
      simp only [List.zipWith_cons_cons, List.all_cons, id_eq, Bool.and_eq_true, hhead, htail,
        List.cons.injEq]

theorem length_children_of_shape_eq {f g : Form Node} (h : f.shape = g.shape) :
    f.children.length = g.children.length := by
  have := congrArg (fun form => form.children.length) h
  simpa [Form.shape] using this

theorem same_iff (n m : Node) : n.same m = true ↔ n = m := by
  revert m
  induction n using Node.induction with
  | step n ih =>
    intro m
    rw [same_eq]
    constructor
    · intro h
      simp only [Bool.and_eq_true, decide_eq_true_eq] at h
      obtain ⟨⟨⟨hspan, hcomments⟩, hshape⟩, hchildren⟩ := h
      have hall := (zipWith_same_all ih (length_children_of_shape_eq hshape)).mp hchildren
      have hform := Form.ext hshape hall
      cases n
      cases m
      simp_all
    · rintro rfl
      simpa using (zipWith_same_all ih rfl).mpr rfl

instance : DecidableEq Node := fun n m => decidable_of_iff _ (same_iff n m)

end Node

end EntryTrace
