import EntryTrace.Proofs.Outline
import EntryTrace.Tree.Print

/-!
# Grouping that the text keeps

No parentheses are ever written, so an operator joins all that stands before it in an expression to
the one operand after it, a suffix belongs to the last operand, and an `else` to the nearest
statement that can take it. A tree is grouped when it is built that way. Every tree can be regrouped without
changing its text; a grouped tree is left as it is.
-/

namespace EntryTrace

set_option autoImplicit false

namespace Node

variable {n : Node}

/-- An `else` that follows the statement would belong to it. -/
def endsOpen : Node → Bool
  | ⟨.labeledStatement _ statement, _, _⟩ => statement.endsOpen
  | ⟨.whileStatement _ body, _, _⟩ => body.endsOpen
  | ⟨.ifStatement _ _ none, _, _⟩ => true
  | ⟨.ifStatement _ _ (some alternative), _, _⟩ => alternative.endsOpen
  | _ => false

theorem endsOpen_of_kind_block (h : n.kind = .block) : n.endsOpen = false := by
  rcases n with ⟨form, span, comments⟩
  cases form with
  | block => rfl
  | _ => cases h

/-- No operation stands where it would have to be put in parentheses, and no statement that would
take an `else` stands before one. -/
def isGrouped (n : Node) : Bool :=
  match n.form with
  | .callExpression callee _ => callee.kind != .binaryExpression
  | .propertyAccess object _ => object.kind != .binaryExpression
  | .binaryExpression _ _ right => right.kind != .binaryExpression
  | .ifStatement _ consequent (some _) => !consequent.endsOpen
  | _ => true

def Grouped (n : Node) : Prop := n.Everywhere fun m => m.isGrouped = true

instance (n : Node) : Decidable n.Grouped :=
  inferInstanceAs (Decidable (n.Everywhere fun m => m.isGrouped = true))

/-! ### Regrouping -/

/-- Applies to the last operand what is written after an expression. -/
def onLast (f : Node → Node) (n : Node) : Node :=
  match n.form with
  | .binaryExpression left operator right =>
    ofForm (.binaryExpression left operator (f right))
  | _ => f n

/-- The operands of the right side joined to the left one after another. -/
def chain (left : Node) (operator : Operator) : Node → Node
  | ⟨.binaryExpression middle second right, _, _⟩ =>
    ofForm (.binaryExpression (chain left operator middle) second right)
  | right => ofForm (.binaryExpression left operator right)

/-- Hands an `else` to the nearest statement that can take it. -/
def giveElse (alternative : Node) : Node → Node
  | ⟨.labeledStatement label statement, _, _⟩ =>
    ofForm (.labeledStatement label (giveElse alternative statement))
  | ⟨.whileStatement condition body, _, _⟩ =>
    ofForm (.whileStatement condition (giveElse alternative body))
  | ⟨.ifStatement condition consequent none, _, _⟩ =>
    if consequent.endsOpen then
      ofForm (.ifStatement condition (giveElse alternative consequent) none)
    else ofForm (.ifStatement condition consequent (some alternative))
  | ⟨.ifStatement condition consequent (some other), _, _⟩ =>
    ofForm (.ifStatement condition consequent (some (giveElse alternative other)))
  | n => n

end Node

/-- The node that the text of a form with grouped children is read as. -/
def Form.regroup : Form Node → Node
  | callExpression callee arguments =>
    callee.onLast fun n => .ofForm (.callExpression n arguments)
  | propertyAccess object property => object.onLast fun n => .ofForm (.propertyAccess n property)
  | binaryExpression left operator right => Node.chain left operator right
  | ifStatement condition consequent (some alternative) =>
    if consequent.endsOpen then
      .ofForm (.ifStatement condition (Node.giveElse alternative consequent) none)
    else .ofForm (.ifStatement condition consequent (some alternative))
  | form => .ofForm form

namespace Node

variable {n : Node}

def regrouped (n : Node) : Node := n.fold fun _ form => form.regroup

theorem regrouped_eq (n : Node) : n.regrouped = (n.form.map regrouped).regroup := by
  unfold regrouped
  rw [fold_eq]

/-! ### Grouped trees are left as they are -/

theorem endsOpen_bare (n : Node) : n.bare.endsOpen = n.endsOpen := by
  induction n using Node.induction with
  | step n ih =>
    rw [bare_eq]
    rcases n with ⟨form, span, comments⟩
    cases form with
    | labeledStatement label statement => exact ih statement (by simp [children, Form.children])
    | whileStatement condition body => exact ih body (by simp [children, Form.children])
    | ifStatement condition consequent alternative =>
      cases alternative with
      | none => rfl
      | some alternative => exact ih alternative (by simp [children, Form.children])
    | _ => rfl

theorem isGrouped_bare (n : Node) : n.bare.isGrouped = n.isGrouped := by
  rw [bare_eq]
  rcases n with ⟨form, span, comments⟩
  cases form with
  | callExpression callee => exact congrArg (· != Kind.binaryExpression) callee.kind_bare
  | propertyAccess object => exact congrArg (· != Kind.binaryExpression) object.kind_bare
  | binaryExpression left operator right =>
    exact congrArg (· != Kind.binaryExpression) right.kind_bare
  | ifStatement condition consequent alternative =>
    cases alternative with
    | none => rfl
    | some alternative => exact congrArg (!·) consequent.endsOpen_bare
  | _ => rfl

theorem grouped_of_bare (h : n.bare.Grouped) : n.Grouped := by
  induction n using Node.induction with
  | step n ih =>
    refine everywhere_iff.mpr ⟨?_, ?_⟩
    · rw [← isGrouped_bare]
      exact h.root
    · intro c hc
      have hbare : c.bare ∈ n.bare.children := by
        rw [bare_eq]
        change c.bare ∈ (n.form.map bare).children
        rw [Form.children_map]
        exact List.mem_map_of_mem hc
      exact ih c hc (h.child hbare)

theorem onLast_of_kind_ne (f : Node → Node) (h : n.kind ≠ .binaryExpression) :
    n.onLast f = f n := by
  rcases n with ⟨form, span, comments⟩
  cases form with
  | binaryExpression => exact absurd rfl h
  | _ => rfl

theorem chain_of_kind_ne (left : Node) (operator : Operator) (h : n.kind ≠ .binaryExpression) :
    chain left operator n = ofForm (.binaryExpression left operator n) := by
  rcases n with ⟨form, span, comments⟩
  cases form with
  | binaryExpression => exact absurd rfl h
  | _ => rfl

theorem regroup_bare (h : n.isGrouped = true) : (n.form.map bare).regroup = n.bare := by
  have hkind {c : Node} (hc : (c.kind != .binaryExpression) = true) :
      c.bare.kind ≠ .binaryExpression := by
    rw [kind_bare]
    exact bne_iff_ne.mp hc
  rw [bare_eq]
  rcases n with ⟨form, span, comments⟩
  cases form with
  | callExpression callee => exact onLast_of_kind_ne _ (hkind h)
  | propertyAccess object => exact onLast_of_kind_ne _ (hkind h)
  | binaryExpression left operator right => exact chain_of_kind_ne _ _ (hkind h)
  | ifStatement condition consequent alternative =>
    cases alternative with
    | none => rfl
    | some alternative =>
      have hclosed : ¬ consequent.bare.endsOpen = true := by
        rw [endsOpen_bare]
        simpa [isGrouped] using h
      exact if_neg hclosed
  | _ => rfl

theorem regrouped_of_grouped (h : n.Grouped) : n.regrouped = n.bare := by
  induction n using Node.induction with
  | step n ih =>
    rw [regrouped_eq, Form.map_congr fun c hc => ih c hc (h.child hc)]
    exact regroup_bare h.root

/-! ### The text stays the same -/

section Render

variable (layout : Layout)

theorem render_bare (h : n.Everywhere fun m => m.comments = []) (level : Nat) :
    n.bare.render layout level = n.render layout level := by
  induction n using Node.induction generalizing level with
  | step n ih =>
    have htext : ∀ c ∈ n.form.children, render layout c.bare = render layout c :=
      fun c hc => funext (ih c hc (h.child hc))
    rw [bare_eq, render_ofForm, Form.map_map, Form.map_congr htext,
      render_of_comments layout h.root]

theorem render_onLast {f : Node → Node} (suffix : Nat → List Char)
    (hf : ∀ m level, (f m).render layout level = m.render layout level ++ suffix level)
    (h : n.comments = []) (level : Nat) :
    (n.onLast f).render layout level = n.render layout level ++ suffix level := by
  rw [render_of_comments layout h]
  rcases n with ⟨form, span, comments⟩
  cases form with
  | binaryExpression left operator right =>
    rw [onLast, render_ofForm]
    dsimp only [Form.map, Form.render]
    rw [hf]
    simp only [List.append_assoc]
  | _ =>
    rw [← render_of_comments layout h]
    exact hf _ level

theorem render_chain (left : Node) (operator : Operator)
    (h : n.Everywhere fun m => m.comments = []) (level : Nat) :
    (chain left operator n).render layout level = left.render layout level ++ [' '] ++
      operator.symbol.toList ++ [' '] ++ n.render layout level := by
  fun_induction chain left operator n with
  | case1 middle second right span comments ih =>
    rw [render_ofForm, render_of_comments layout h.root]
    dsimp only [Form.map, Form.render]
    rw [ih (h.child (by simp [children, Form.children]))]
    simp only [List.append_assoc]
  | case2 => rw [render_ofForm]; rfl

theorem render_giveElse (alternative : Node) (hopen : n.endsOpen = true)
    (h : n.Everywhere fun m => m.comments = []) (level : Nat) :
    (giveElse alternative n).render layout level =
      n.render layout level ++ " else ".toList ++ alternative.render layout level := by
  fun_induction giveElse alternative n with
  | case1 label statement _ _ ih | case2 label statement _ _ ih =>
    rw [render_ofForm, render_of_comments layout h.root]
    dsimp only [Form.map, Form.render]
    rw [ih hopen (h.child (by simp [children, Form.children]))]
    simp only [List.append_assoc]
  | case3 condition consequent _ _ hconsequent ih =>
    rw [render_ofForm, render_of_comments layout h.root]
    dsimp only [Form.map, Form.render, Option.map_none, Form.after]
    rw [ih hconsequent (h.child (by simp [children, Form.children]))]
    simp only [List.append_assoc, List.append_nil]
  | case4 condition consequent _ _ hconsequent =>
    rw [render_ofForm, render_of_comments layout h.root]
    dsimp only [Form.map, Form.render, Option.map_none, Option.map_some, Form.after]
    simp only [List.append_assoc, List.append_nil]
  | case5 condition consequent other _ _ ih =>
    rw [render_ofForm, render_of_comments layout h.root]
    dsimp only [Form.map, Form.render, Option.map_some, Form.after]
    rw [ih hopen (h.child (by simp [children, Form.children]))]
    simp only [List.append_assoc]
  | case6 n hlabeled hwhile hif helse =>
    unfold endsOpen at hopen
    split at hopen
    · exact absurd rfl (hlabeled _ _ _ _)
    · exact absurd rfl (hwhile _ _ _ _)
    · exact absurd rfl (hif _ _ _ _)
    · exact absurd rfl (helse _ _ _ _ _)
    · cases hopen

end Render

end Node

/-- Regrouping below a form leaves its text as it is. -/
theorem Form.render_regroup (layout : Layout) {form : Form Node}
    (h : ∀ c ∈ form.children, c.Everywhere fun m => m.comments = []) (level : Nat) :
    form.regroup.render layout level = (form.map (Node.render layout)).render layout level := by
  cases form with
  | callExpression callee arguments =>
    let suffix (level : Nat) : List Char :=
      ['('] ++ separated ((arguments.map (Node.render layout)).map fun t => t level) ++ [')']
    have hcall (m : Node) (level : Nat) :
        (Node.ofForm (.callExpression m arguments)).render layout level =
          m.render layout level ++ suffix level := by
      rw [Node.render_ofForm]
      dsimp only [map, render, suffix]
      simp only [List.append_assoc]
    rw [← Node.render_ofForm, hcall]
    exact Node.render_onLast layout suffix hcall (h callee List.mem_cons_self).root level
  | propertyAccess object property =>
    let suffix (level : Nat) : List Char := ['.'] ++ property.render layout level
    have haccess (m : Node) (level : Nat) :
        (Node.ofForm (.propertyAccess m property)).render layout level =
          m.render layout level ++ suffix level := by
      rw [Node.render_ofForm]
      dsimp only [map, render, suffix]
      simp only [List.append_assoc]
    rw [← Node.render_ofForm, haccess]
    exact Node.render_onLast layout suffix haccess (h object List.mem_cons_self).root level
  | binaryExpression left operator right =>
    rw [regroup, Node.render_chain layout left operator (h right (by simp [children]))]
    rfl
  | ifStatement condition consequent alternative =>
    cases alternative with
    | none => exact Node.render_ofForm layout _ level
    | some alternative =>
      rw [regroup]
      split
      · rename_i hopen
        rw [Node.render_ofForm]
        dsimp only [map, render, Option.map_none, Option.map_some, after]
        rw [Node.render_giveElse layout alternative hopen (h consequent (by simp [children]))]
        simp only [List.append_assoc, List.append_nil]
      · exact Node.render_ofForm layout _ level
  | _ => exact Node.render_ofForm layout _ level

end EntryTrace
