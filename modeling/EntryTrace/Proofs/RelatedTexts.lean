import EntryTrace.Tree.Print

/-!
# Texts put together alike

The text of a form is put together from a few sorts of pieces: fixed characters, operators, string
literals, names and numbers, line breaks, and the texts of the children. A relation between texts
that holds of such pieces and survives putting texts together therefore holds between two texts of
the same form as soon as it holds between the texts of the children (`Form.related_render`).
-/

namespace EntryTrace

set_option autoImplicit false

namespace Text

/-- A character that means the same wherever it stands: it ends no line, opens no literal and is no
part of what opens a comment. -/
def isFixed (c : Char) : Bool := c != '\n' && c != '"' && c != '/'

/-- A relation between texts that holds of the pieces which the writing of a form adds, and that
putting texts together keeps. -/
structure Compositional (R : List Char → List Char → Prop) : Prop where
  fixed : ∀ text : List Char, text.all isFixed = true → R text text
  operator : ∀ o : Operator, R (o.symbol.toList ++ [' ']) (o.symbol.toList ++ [' '])
  literal : ∀ value : List Char, R (literal value) (literal value)
  append : ∀ {a b c d : List Char}, R a b → R c d → R (a ++ c) (b ++ d)

theorem compositional_eq : Compositional Eq where
  fixed _ _ := rfl
  operator _ := rfl
  literal _ := rfl
  append := by
    rintro a _ c _ rfl rfl
    rfl

end Text

namespace Form

variable {α : Type}

/-- The names and numbers that stand in the form itself. -/
def words : Form α → List String
  | identifier text => [text]
  | numericLiteral text => [text]
  | _ => []

open Text

variable {R : List Char → List Char → Prop} {text text' : α → List Char}

theorem related_flatMap (hR : Compositional R) {as : List α} (h : ∀ a ∈ as, R (text a) (text' a)) :
    R (as.flatMap text) (as.flatMap text') := by
  induction as with
  | nil => exact hR.fixed [] rfl
  | cons a as ih =>
    rw [List.flatMap_cons, List.flatMap_cons]
    exact hR.append (h a List.mem_cons_self) (ih fun x hx => h x (List.mem_cons_of_mem a hx))

theorem related_intercalate (hR : Compositional R) {separator separator' : List Char}
    (hseparator : R separator separator') {as : List α} (h : ∀ a ∈ as, R (text a) (text' a)) :
    R (List.intercalate separator (as.map text)) (List.intercalate separator' (as.map text')) := by
  cases as with
  | nil => exact hR.fixed [] rfl
  | cons a as =>
    have hmore : R (as.flatMap fun x => separator ++ text x)
        (as.flatMap fun x => separator' ++ text' x) :=
      related_flatMap hR fun x hx => hR.append hseparator (h x (List.mem_cons_of_mem a hx))
    rw [List.map_cons, List.map_cons, intercalate_cons_eq, intercalate_cons_eq, List.flatMap_map,
      List.flatMap_map]
    exact hR.append (h a List.mem_cons_self) hmore

theorem related_separated (hR : Compositional R) {as : List α}
    (h : ∀ a ∈ as, R (text a) (text' a)) :
    R (separated (as.map text)) (separated (as.map text')) :=
  related_intercalate hR (hR.fixed [',', ' '] rfl) h

theorem related_braced (hR : Compositional R) {as : List α} (h : ∀ a ∈ as, R (text a) (text' a)) :
    R (braced (as.map text)) (braced (as.map text')) := by
  cases as with
  | nil => exact hR.fixed ['{', '}'] rfl
  | cons a as =>
    have hparts := related_separated hR h
    exact hR.append (hR.append (hR.fixed ['{', ' '] rfl) hparts) (hR.fixed [' ', '}'] rfl)

theorem related_after (hR : Compositional R) {lead : List Char} (hlead : lead.all isFixed = true)
    {o : Option α} (h : ∀ a ∈ o.toList, R (text a) (text' a)) :
    R (after lead (o.map text)) (after lead (o.map text')) := by
  cases o with
  | none => exact hR.fixed [] rfl
  | some a => exact hR.append (hR.fixed lead hlead) (h a (by simp))

theorem related_blockText (hR : Compositional R) {layout layout' : Layout} {level level' : Nat}
    {text text' : α → Nat → List Char} {as : List α}
    (hbreak : R (layout.newline level) (layout'.newline level'))
    (hnext : R (layout.newline (level + 1)) (layout'.newline (level' + 1)))
    (h : ∀ a ∈ as, R (text a (level + 1)) (text' a (level' + 1))) :
    R (blockText layout level (as.map text)) (blockText layout' level' (as.map text')) := by
  by_cases hne : as = []
  · subst hne
    exact hR.fixed ['{', '}'] rfl
  · have hlines : R (as.flatMap fun a => layout.newline (level + 1) ++ text a (level + 1))
        (as.flatMap fun a => layout'.newline (level' + 1) ++ text' a (level' + 1)) :=
      related_flatMap hR fun a ha => hR.append hnext (h a ha)
    rw [blockText_map layout level text hne, blockText_map layout' level' text' hne]
    exact hR.append (hR.fixed ['{'] rfl) (hR.append (hR.append hlines hbreak) (hR.fixed ['}'] rfl))

/-- Two texts of a form are related when the texts of its children are, here and one level in. -/
theorem related_render (hR : Compositional R) {layout layout' : Layout} {level level' : Nat}
    {text text' : α → Nat → List Char} {form : Form α}
    (hbreak : ∀ k, R (layout.newline (level + k)) (layout'.newline (level' + k)))
    (hwords : ∀ w ∈ form.words, R w.toList w.toList)
    (h : ∀ a ∈ form.children, ∀ k, R (text a (level + k)) (text' a (level' + k))) :
    R ((form.map text).render layout level) ((form.map text').render layout' level') := by
  have hat : ∀ a ∈ form.children, R (text a level) (text' a level') := fun a ha => h a ha 0
  -- texts are put together here in the order and nesting in which `render` puts them together
  cases form with
  | sourceFile statements =>
    dsimp only [map, render]
    simp only [List.map_map, Function.comp_def]
    exact related_intercalate hR (hbreak 0) hat
  | block statements =>
    exact related_blockText hR (hbreak 0) (hbreak 1) fun a ha => h a ha 1
  | emptyStatement => exact hR.fixed [';'] rfl
  | expressionStatement expression =>
    exact hR.append (hat expression (by simp [children])) (hR.fixed [';'] rfl)
  | labeledStatement name value | propertyAssignment name value =>
    have hname := hR.append (hat name (by simp [children])) (hR.fixed [':', ' '] rfl)
    exact hR.append hname (hat value (by simp [children]))
  | functionDeclaration name parameters body =>
    have hname : R (after [' '] (name.map fun a => text a level))
        (after [' '] (name.map fun a => text' a level')) :=
      related_after hR rfl fun a ha => hat a (by simp_all [children])
    have hparameters : R (separated (parameters.map fun a => text a level))
        (separated (parameters.map fun a => text' a level')) :=
      related_separated hR fun a ha => hat a (by simp [children, ha])
    have hhead := hR.append (hR.append (hR.append (hR.append (hR.fixed "function".toList rfl) hname)
      (hR.fixed ['('] rfl)) hparameters) (hR.fixed [')'] rfl)
    dsimp only [map, render]
    simp only [Option.map_map, List.map_map, Function.comp_def]
    cases body with
    | none => exact hR.append hhead (hR.fixed [';'] rfl)
    | some body =>
      have hbody := hR.append (hR.fixed [' '] rfl) (hat body (by simp [children]))
      exact hR.append hhead hbody
  | parameter name initial | variableDeclaration name initial =>
    have hinitial : R (after " = ".toList (initial.map fun a => text a level))
        (after " = ".toList (initial.map fun a => text' a level')) :=
      related_after hR rfl fun a ha => hat a (List.mem_cons_of_mem name ha)
    dsimp only [map, render]
    simp only [Option.map_map, Function.comp_def]
    exact hR.append (hat name (by simp [children])) hinitial
  | objectBindingPattern parts | objectLiteral parts =>
    dsimp only [map, render]
    simp only [List.map_map, Function.comp_def]
    exact related_braced hR hat
  | arrayBindingPattern elements =>
    have helements : R (separated (elements.map fun a => text a level))
        (separated (elements.map fun a => text' a level')) := related_separated hR hat
    dsimp only [map, render]
    simp only [List.map_map, Function.comp_def]
    exact hR.append (hR.append (hR.fixed ['['] rfl) helements) (hR.fixed [']'] rfl)
  | variableStatement binding declarations =>
    have hkeyword : binding.keyword.toList.all isFixed = true := by cases binding <;> rfl
    have hdeclarations : R (separated (declarations.map fun a => text a level))
        (separated (declarations.map fun a => text' a level')) := related_separated hR hat
    dsimp only [map, render]
    simp only [List.map_map, Function.comp_def]
    exact hR.append (hR.append (hR.append (hR.fixed _ hkeyword) (hR.fixed [' '] rfl)) hdeclarations)
      (hR.fixed [';'] rfl)
  | returnStatement part | breakStatement part | continueStatement part =>
    have hpart : R (after [' '] (part.map fun a => text a level))
        (after [' '] (part.map fun a => text' a level')) := related_after hR rfl hat
    dsimp only [map, render]
    simp only [Option.map_map, Function.comp_def]
    exact hR.append (hR.append (hR.fixed _ rfl) hpart) (hR.fixed [';'] rfl)
  | ifStatement condition consequent alternative =>
    have halternative : R (after " else ".toList (alternative.map fun a => text a level))
        (after " else ".toList (alternative.map fun a => text' a level')) :=
      related_after hR rfl fun a ha => hat a (by simp_all [children])
    have hcondition := hR.append (hR.append (hR.fixed "if (".toList rfl)
      (hat condition (by simp [children]))) (hR.fixed [')', ' '] rfl)
    dsimp only [map, render]
    simp only [Option.map_map, Function.comp_def]
    exact hR.append (hR.append hcondition (hat consequent (by simp [children]))) halternative
  | whileStatement condition body =>
    have hcondition := hR.append (hR.append (hR.fixed "while (".toList rfl)
      (hat condition (by simp [children]))) (hR.fixed [')', ' '] rfl)
    exact hR.append hcondition (hat body (by simp [children]))
  | identifier word | numericLiteral word => exact hwords word (by simp [words])
  | stringLiteral value => exact hR.literal value.toList
  | booleanLiteral value =>
    cases value
    · exact hR.fixed "false".toList rfl
    · exact hR.fixed "true".toList rfl
  | nullLiteral => exact hR.fixed "null".toList rfl
  | callExpression callee arguments =>
    have harguments : R (separated (arguments.map fun a => text a level))
        (separated (arguments.map fun a => text' a level')) :=
      related_separated hR fun a ha => hat a (List.mem_cons_of_mem callee ha)
    have hcallee := hR.append (hat callee (by simp [children])) (hR.fixed ['('] rfl)
    dsimp only [map, render]
    simp only [List.map_map, Function.comp_def]
    exact hR.append (hR.append hcallee harguments) (hR.fixed [')'] rfl)
  | propertyAccess object property =>
    have hobject := hR.append (hat object (by simp [children])) (hR.fixed ['.'] rfl)
    exact hR.append hobject (hat property (by simp [children]))
  | binaryExpression left operator right =>
    have hleft := hR.append (hat left (by simp [children])) (hR.fixed [' '] rfl)
    have hoperator := hR.append (hR.append hleft (hR.operator operator))
      (hat right (by simp [children]))
    dsimp only [map, render]
    simpa only [List.append_assoc] using hoperator
  | shorthandProperty name => exact hat name (by simp [children])

end Form

end EntryTrace
