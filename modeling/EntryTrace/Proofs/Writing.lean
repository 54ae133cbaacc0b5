import EntryTrace.Tree.Print

/-!
# Writing into one growing text

A tree can also be written step by step into a single text that only grows, with the level of
indentation kept on the side: a block raises the level for its statements and lowers it again. Each
step adds exactly the text of what it writes and leaves the level as it was (`Node.writes_render`).
So it makes no difference whether several trees are written into one text or each into its own.
-/

namespace EntryTrace

set_option autoImplicit false

/-- A text in the making, the layout it follows and the level of its next line. -/
structure Writer where
  layout : Layout
  level : Nat
  text : List Char

/-- A step that writes something. -/
abbrev Writing := StateM Writer Unit

namespace Writer

def start (layout : Layout) : Writer := ⟨layout, 0, []⟩

def append (w : Writer) (piece : List Char) : Writer := { w with text := w.text ++ piece }

end Writer

namespace Writing

def put (piece : List Char) : Writing := modify fun w => w.append piece

/-- Starts a line at the level that has been reached. -/
def newline : Writing := modify fun w => w.append (w.layout.newline w.level)

def indent : Writing := modify fun w => { w with level := w.level + 1 }

/-- Goes back one level, unless there is none to go back. -/
def dedent : Writing := modify fun w => { w with level := w.level - 1 }

/-- Writes the parts with the separator before every part but the first. -/
def separated (separator : Writing) : List Writing → Writing
  | [] => pure ()
  | part :: parts => do
    part
    forM parts fun next => do
      separator
      next

def listed (parts : List Writing) : Writing := separated (put [',', ' ']) parts

def braced : List Writing → Writing
  | [] => put ['{', '}']
  | parts => do
    put ['{', ' ']
    listed parts
    put [' ', '}']

def after (lead : List Char) : Option Writing → Writing
  | none => pure ()
  | some part => do
    put lead
    part

def block : List Writing → Writing
  | [] => put ['{', '}']
  | statements => do
    put ['{']
    indent
    forM statements fun statement => do
      newline
      statement
    dedent
    newline
    put ['}']

def comment (comment : Comment) : Writing :=
  match comment.style with
  | .block => put ("/*".toList ++ comment.text.toList ++ "*/ ".toList)
  | .line => do
    put ("//".toList ++ comment.text.toList)
    newline

def leading (comments : List Comment) : Writing := do
  if (← get).layout.comments then forM comments comment

/-- Writes a form, given how to write what fills its slots. -/
def form : Form Writing → Writing
  | .sourceFile statements => separated newline statements
  | .block statements => block statements
  | .emptyStatement => put [';']
  | .expressionStatement expression => do
    expression
    put [';']
  | .labeledStatement label statement => do
    label
    put [':', ' ']
    statement
  | .functionDeclaration name parameters body => do
    put "function".toList
    after [' '] name
    put ['(']
    listed parameters
    put [')']
    match body with
    | none => put [';']
    | some body => do
      put [' ']
      body
  | .parameter name initial => do
    name
    after " = ".toList initial
  | .objectBindingPattern elements => braced elements
  | .arrayBindingPattern elements => do
    put ['[']
    listed elements
    put [']']
  | .variableStatement binding declarations => do
    put binding.keyword.toList
    put [' ']
    listed declarations
    put [';']
  | .variableDeclaration name initial => do
    name
    after " = ".toList initial
  | .returnStatement result => do
    put "return".toList
    after [' '] result
    put [';']
  | .ifStatement condition consequent alternative => do
    put "if (".toList
    condition
    put [')', ' ']
    consequent
    after " else ".toList alternative
  | .whileStatement condition body => do
    put "while (".toList
    condition
    put [')', ' ']
    body
  | .breakStatement label => do
    put "break".toList
    after [' '] label
    put [';']
  | .continueStatement label => do
    put "continue".toList
    after [' '] label
    put [';']
  | .identifier text => put text.toList
  | .stringLiteral text => put (Text.literal text.toList)
  | .numericLiteral text => put text.toList
  | .booleanLiteral value => put (if value then "true".toList else "false".toList)
  | .nullLiteral => put "null".toList
  | .callExpression callee arguments => do
    callee
    put ['(']
    listed arguments
    put [')']
  | .propertyAccess object property => do
    object
    put ['.']
    property
  | .binaryExpression left operator right => do
    left
    put [' ']
    put operator.symbol.toList
    put [' ']
    right
  | .objectLiteral properties => braced properties
  | .propertyAssignment name value => do
    name
    put [':', ' ']
    value
  | .shorthandProperty name => name

end Writing

/-- Writes a tree behind what has been written so far. -/
def Node.write (n : Node) : Writing :=
  n.fold fun (own : Node) (form : Form Writing) => do
    Writing.leading own.comments
    Writing.form form

/-- What a tree leaves in a text of its own. -/
def Node.written (n : Node) (layout : Layout) : String :=
  String.ofList (n.write.run (Writer.start layout)).2.text

/-- The step adds the text that belongs to the layout and the level it finds, and changes nothing
else. -/
def Writes (step : Writing) (text : Layout → Nat → List Char) : Prop :=
  ∀ w : Writer, step.run w = ((), w.append (text w.layout w.level))

namespace Writing

variable {step next : Writing} {text more : Layout → Nat → List Char}

theorem run_seq (step next : Writing) (w : Writer) :
    (do step; next : Writing).run w = next.run (step.run w).2 :=
  rfl

theorem run_indent (w : Writer) : (indent.run w).2 = { w with level := w.level + 1 } := rfl

theorem run_dedent (w : Writer) : (dedent.run w).2 = { w with level := w.level - 1 } := rfl

theorem writes_pure : Writes (pure ()) fun _ _ => [] := by
  intro w
  change ((), w) = ((), w.append [])
  rw [Writer.append, List.append_nil]

theorem writes_put (piece : List Char) : Writes (put piece) fun _ _ => piece := fun _ => rfl

theorem writes_newline : Writes newline Layout.newline := fun _ => rfl

theorem writes_seq (h : Writes step text) (hnext : Writes next more) :
    Writes (do step; next) fun layout level => text layout level ++ more layout level := by
  intro w
  rw [run_seq, h w, hnext]
  simp [Writer.append]

/-- What is written one level in leaves the level as it was: it was raised before it is lowered. -/
theorem writes_indented (h : Writes step text) (hnext : Writes next more) :
    Writes (do indent; step; dedent; next) fun layout level =>
      text layout (level + 1) ++ more layout level := by
  intro w
  rw [run_seq, run_seq, run_seq, run_indent, h, run_dedent, hnext]
  simp [Writer.append]

theorem writes_forM {α : Type} {write : α → Writing} {text : α → Layout → Nat → List Char}
    {as : List α} (h : ∀ a ∈ as, Writes (write a) (text a)) :
    Writes (forM as write) fun layout level => as.flatMap fun a => text a layout level := by
  induction as with
  | nil => exact writes_pure
  | cons a as ih =>
    exact writes_seq (h a List.mem_cons_self) (ih fun x hx => h x (List.mem_cons_of_mem a hx))

theorem writes_congr (h : Writes step text)
    (heq : ∀ layout level, text layout level = more layout level) : Writes step more := by
  intro w
  rw [h w, heq]

section Parts

variable {α : Type} {write : α → Writing} {text : α → Layout → Nat → List Char}

theorem writes_separated {separator : Writing} {separation : Layout → Nat → List Char}
    (hseparator : Writes separator separation) {as : List α}
    (h : ∀ a ∈ as, Writes (write a) (text a)) :
    Writes (separated separator (as.map write)) fun layout level =>
      List.intercalate (separation layout level) (as.map fun a => text a layout level) := by
  cases as with
  | nil => exact writes_pure
  | cons a as =>
    have hmore : Writes (forM (as.map write) fun next => do separator; next) fun layout level =>
        as.flatMap fun x => separation layout level ++ text x layout level := by
      rw [List.forM_map]
      exact writes_forM fun x hx => writes_seq hseparator (h x (List.mem_cons_of_mem a hx))
    refine writes_congr (writes_seq (h a List.mem_cons_self) hmore) ?_
    intro layout level
    rw [List.map_cons, Form.intercalate_cons_eq, List.flatMap_map]

theorem writes_listed {as : List α} (h : ∀ a ∈ as, Writes (write a) (text a)) :
    Writes (listed (as.map write)) fun layout level =>
      Form.separated (as.map fun a => text a layout level) :=
  writes_separated (writes_put _) h

theorem writes_braced {as : List α} (h : ∀ a ∈ as, Writes (write a) (text a)) :
    Writes (braced (as.map write)) fun layout level =>
      Form.braced (as.map fun a => text a layout level) := by
  cases as with
  | nil => exact writes_put _
  | cons a as =>
    refine writes_congr (writes_seq (writes_put _) (writes_seq (writes_listed h) (writes_put _))) ?_
    intro layout level
    exact (List.append_assoc _ _ _).symm

theorem writes_after (lead : List Char) {o : Option α}
    (h : ∀ a ∈ o.toList, Writes (write a) (text a)) :
    Writes (after lead (o.map write)) fun layout level =>
      Form.after lead (o.map fun a => text a layout level) := by
  cases o with
  | none => exact writes_pure
  | some a => exact writes_seq (writes_put lead) (h a (by simp))

theorem writes_block {as : List α} (h : ∀ a ∈ as, Writes (write a) (text a)) :
    Writes (block (as.map write)) fun layout level =>
      Form.blockText layout level (as.map fun a => text a layout) := by
  cases as with
  | nil => exact writes_put _
  | cons a as =>
    have hlines : Writes (forM ((a :: as).map write) fun statement => do newline; statement)
        fun layout level => (a :: as).flatMap fun x =>
          layout.newline level ++ text x layout level := by
      rw [List.forM_map]
      exact writes_forM fun x hx => writes_seq writes_newline (h x hx)
    have hclose := writes_seq writes_newline (writes_put ['}'])
    refine writes_congr (writes_seq (writes_put ['{']) (writes_indented hlines hclose)) ?_
    intro layout level
    rw [Form.blockText_map layout level _ (List.cons_ne_nil a as), List.append_assoc]
    rfl

theorem writes_comment (c : Comment) :
    Writes (comment c) fun layout level => c.render layout level := by
  rcases c with ⟨style, text⟩
  cases style with
  | block => exact writes_put _
  | line => exact writes_seq (writes_put _) writes_newline

theorem writes_leading (comments : List Comment) :
    Writes (leading comments) fun layout level => Node.leading layout level comments := by
  intro w
  change (if w.layout.comments = true then forM comments comment else pure () : Writing).run w =
    ((), w.append (Node.leading w.layout w.level comments))
  unfold Node.leading
  split
  · exact writes_forM (fun c _ => writes_comment c) w
  · exact writes_pure w

/-- Writing a form adds its text, if writing each child adds the text of the child. -/
theorem writes_form {form : Form α} (h : ∀ a ∈ form.children, Writes (write a) (text a)) :
    Writes (Writing.form (form.map write)) fun layout level =>
      (form.map fun a => text a layout).render layout level := by
  cases form with
  | sourceFile statements =>
    dsimp only [Form.map, Form.render]
    simp only [List.map_map, Function.comp_def]
    exact writes_separated writes_newline h
  | block statements => exact writes_block h
  | emptyStatement => exact writes_put _
  | expressionStatement expression =>
    exact writes_seq (h expression (by simp [Form.children])) (writes_put _)
  | labeledStatement name value | propertyAssignment name value =>
    dsimp only [Form.map, Form.render]
    simp only [List.append_assoc]
    exact writes_seq (h name (by simp [Form.children]))
      (writes_seq (writes_put _) (h value (by simp [Form.children])))
  | functionDeclaration name parameters body =>
    have hname : Writes (after [' '] (name.map write)) fun layout level =>
        Form.after [' '] (name.map fun a => text a layout level) :=
      writes_after [' '] fun a ha => h a (by simp_all [Form.children])
    have hparameters : Writes (listed (parameters.map write)) fun layout level =>
        Form.separated (parameters.map fun a => text a layout level) :=
      writes_listed fun a ha => h a (by simp [Form.children, ha])
    dsimp only [Form.map, Form.render]
    simp only [List.map_map, Option.map_map, Function.comp_def, List.append_assoc]
    refine writes_seq (writes_put _) (writes_seq hname (writes_seq (writes_put _)
      (writes_seq hparameters (writes_seq (writes_put _) ?_))))
    cases body with
    | none => exact writes_put _
    | some body => exact writes_seq (writes_put _) (h body (by simp [Form.children]))
  | parameter name initial | variableDeclaration name initial =>
    have hinitial := writes_after " = ".toList
      fun a ha => h a (List.mem_cons_of_mem name ha)
    dsimp only [Form.map, Form.render]
    simp only [Option.map_map, Function.comp_def]
    exact writes_seq (h name (by simp [Form.children])) hinitial
  | objectBindingPattern parts | objectLiteral parts =>
    dsimp only [Form.map, Form.render]
    simp only [List.map_map, Function.comp_def]
    exact writes_braced h
  | arrayBindingPattern elements =>
    dsimp only [Form.map, Form.render]
    simp only [List.map_map, Function.comp_def, List.append_assoc]
    exact writes_seq (writes_put _) (writes_seq (writes_listed h) (writes_put _))
  | variableStatement binding declarations =>
    dsimp only [Form.map, Form.render]
    simp only [List.map_map, Function.comp_def, List.append_assoc]
    exact writes_seq (writes_put _) (writes_seq (writes_put _)
      (writes_seq (writes_listed h) (writes_put _)))
  | returnStatement part | breakStatement part | continueStatement part =>
    dsimp only [Form.map, Form.render]
    simp only [Option.map_map, Function.comp_def, List.append_assoc]
    exact writes_seq (writes_put _) (writes_seq (writes_after _ h) (writes_put _))
  | ifStatement condition consequent alternative =>
    have halternative : Writes (after " else ".toList (alternative.map write)) fun layout level =>
        Form.after " else ".toList (alternative.map fun a => text a layout level) :=
      writes_after " else ".toList fun a ha => h a (by simp_all [Form.children])
    dsimp only [Form.map, Form.render]
    simp only [Option.map_map, Function.comp_def, List.append_assoc]
    have hbranches := writes_seq (h consequent (by simp [Form.children])) halternative
    exact writes_seq (writes_put _) (writes_seq (h condition (by simp [Form.children]))
      (writes_seq (writes_put _) hbranches))
  | whileStatement condition body =>
    dsimp only [Form.map, Form.render]
    simp only [List.append_assoc]
    exact writes_seq (writes_put _) (writes_seq (h condition (by simp [Form.children]))
      (writes_seq (writes_put _) (h body (by simp [Form.children]))))
  | identifier | stringLiteral | numericLiteral | booleanLiteral | nullLiteral =>
    exact writes_put _
  | callExpression callee arguments =>
    have harguments := writes_listed fun a ha => h a (List.mem_cons_of_mem callee ha)
    dsimp only [Form.map, Form.render]
    simp only [List.map_map, Function.comp_def, List.append_assoc]
    exact writes_seq (h callee (by simp [Form.children]))
      (writes_seq (writes_put _) (writes_seq harguments (writes_put _)))
  | propertyAccess object property =>
    dsimp only [Form.map, Form.render]
    simp only [List.append_assoc]
    exact writes_seq (h object (by simp [Form.children]))
      (writes_seq (writes_put _) (h property (by simp [Form.children])))
  | binaryExpression left operator right =>
    dsimp only [Form.map, Form.render]
    simp only [List.append_assoc]
    exact writes_seq (h left (by simp [Form.children])) (writes_seq (writes_put _)
      (writes_seq (writes_put _) (writes_seq (writes_put _) (h right (by simp [Form.children])))))
  | shorthandProperty name => exact h name (by simp [Form.children])

end Parts

end Writing

namespace Node

theorem write_eq (n : Node) :
    n.write = (do Writing.leading n.comments; Writing.form (n.form.map write)) := by
  unfold write
  rw [fold_eq]

/-- Writing a tree adds its text at the level reached, and leaves that level as it was. -/
theorem writes_render (n : Node) : Writes n.write fun layout level => n.render layout level := by
  induction n using Node.induction with
  | step n ih =>
    rw [write_eq]
    simp only [render_eq]
    exact Writing.writes_seq (Writing.writes_leading n.comments) (Writing.writes_form ih)

theorem written_eq_print (n : Node) (layout : Layout) : n.written layout = n.print layout := by
  unfold written
  rw [n.writes_render]
  rfl

theorem printLines_eq_print_sourceFile (ns : List Node) :
    printLines ns = (ofForm (.sourceFile ns)).print ∧
      printLines ns =
        String.ofList (List.intercalate ['\n'] (ns.map fun n => (n.written {}).toList)) ∧
      (ofForm (.sourceFile ns)).written {} = printLines ns := by
  have hfile : printLines ns = (ofForm (.sourceFile ns)).print := by
    unfold printLines print
    rw [render_ofForm]
    dsimp only [Form.map, Form.render]
    rw [List.map_map]
    rfl
  refine ⟨hfile, ?_, ?_⟩
  · simp only [written_eq_print, print, String.toList_ofList]
    rfl
  · rw [written_eq_print, hfile]

end Node

end EntryTrace
