import EntryTrace.Proofs.Layer

/-!
# Well-formed trees

A tree is well formed when every slot holds a kind of node that may stand there. The pass changes
the kind of a node in one way only: a requested definition takes the place of its labeled statement.
No slot tells the two apart, and the code that is put in is well formed, so the pass keeps trees well
formed.
-/

namespace EntryTrace

set_option autoImplicit false

namespace Kind

/-- What a parameter or a declaration may bind, and what a pattern may hold. -/
def isTarget : Kind → Bool
  | identifier | objectBindingPattern | arrayBindingPattern => true
  | _ => false

def isMember : Kind → Bool
  | propertyAssignment | shorthandProperty => true
  | _ => false

end Kind

namespace Form

/-- Whether the kinds in the slots may stand there. -/
def fits : Form Kind → Bool
  | sourceFile statements => statements.all Kind.isStatement
  | block statements => statements.all Kind.isStatement
  | emptyStatement => true
  | expressionStatement expression => expression.isExpression
  | labeledStatement label statement => label == .identifier && statement.isStatement
  | functionDeclaration name parameters body =>
    name.all (· == .identifier) && parameters.all (· == .parameter) && body.all (· == .block)
  | parameter name initial => name.isTarget && initial.all Kind.isExpression
  | objectBindingPattern elements => elements.all Kind.isTarget
  | arrayBindingPattern elements => elements.all Kind.isTarget
  | variableStatement _ declarations => declarations.all (· == .variableDeclaration)
  | variableDeclaration name initial => name.isTarget && initial.all Kind.isExpression
  | returnStatement result => result.all Kind.isExpression
  | ifStatement condition consequent alternative =>
    condition.isExpression && consequent.isStatement && alternative.all Kind.isStatement
  | whileStatement condition body => condition.isExpression && body.isStatement
  | breakStatement label => label.all (· == .identifier)
  | continueStatement label => label.all (· == .identifier)
  | identifier _ => true
  | stringLiteral _ => true
  | numericLiteral _ => true
  | booleanLiteral _ => true
  | nullLiteral => true
  | callExpression callee arguments => callee.isExpression && arguments.all Kind.isExpression
  | propertyAccess object property => object.isExpression && property == .identifier
  | binaryExpression left _ right => left.isExpression && right.isExpression
  | objectLiteral properties => properties.all Kind.isMember
  | propertyAssignment name value => name == .identifier && value.isExpression
  | shorthandProperty name => name == .identifier

end Form

/-- One kind may take the place of another: it is the same, or a function in place of a labeled
statement. -/
def Kind.MayReplace (new old : Kind) : Prop :=
  new = old ∨ (new = .functionDeclaration ∧ old = .labeledStatement)

theorem Kind.MayReplace.keeps {new old : Kind} (h : new.MayReplace old) {q : Kind → Bool}
    (hq : q .labeledStatement = true → q .functionDeclaration = true) (hold : q old = true) :
    q new = true := by
  rcases h with rfl | ⟨rfl, rfl⟩
  · exact hold
  · exact hq hold

/-- What slots ask of the kinds in them. -/
def Kind.sorts : List (Kind → Bool) :=
  [isStatement, isExpression, isTarget, isMember, (· == .identifier), (· == .parameter),
    (· == .block), (· == .variableDeclaration)]

theorem Form.fits_map_of_sorts {α : Type} {old new : α → Kind} {form : Form α}
    (h : ∀ a ∈ form.children, ∀ q ∈ Kind.sorts, q (old a) = true → q (new a) = true)
    (hfits : (form.map old).fits = true) : (form.map new).fits = true := by
  have keeps (q : Kind → Bool) (hq : q ∈ Kind.sorts) :
      ∀ a ∈ form.children, q (old a) = true → q (new a) = true :=
    fun a ha => h a ha q hq
  have hstatement := keeps Kind.isStatement (by simp [Kind.sorts])
  have hexpression := keeps Kind.isExpression (by simp [Kind.sorts])
  have htarget := keeps Kind.isTarget (by simp [Kind.sorts])
  have hmember := keeps Kind.isMember (by simp [Kind.sorts])
  have hidentifier := keeps (· == .identifier) (by simp [Kind.sorts])
  have hparameter := keeps (· == .parameter) (by simp [Kind.sorts])
  have hblock := keeps (· == .block) (by simp [Kind.sorts])
  have hdeclaration := keeps (· == .variableDeclaration) (by simp [Kind.sorts])
  clear h keeps
  cases form <;> simp_all [Form.map, Form.fits, Form.children, Option.all_eq_true]

/-- What every sort of kind implies holds in every slot. -/
theorem Form.forall_children_of_fits {α : Type} {kind : α → Kind} {p : Kind → Prop} {form : Form α}
    (h : ∀ q ∈ Kind.sorts, ∀ k, q k = true → p k) (hfits : (form.map kind).fits = true) :
    ∀ a ∈ form.children, p (kind a) := by
  have hstatement := h Kind.isStatement (by simp [Kind.sorts])
  have hexpression := h Kind.isExpression (by simp [Kind.sorts])
  have htarget := h Kind.isTarget (by simp [Kind.sorts])
  have hmember := h Kind.isMember (by simp [Kind.sorts])
  have hidentifier := h (· == .identifier) (by simp [Kind.sorts]) .identifier rfl
  have hparameter := h (· == .parameter) (by simp [Kind.sorts]) .parameter rfl
  have hblock := h (· == .block) (by simp [Kind.sorts]) .block rfl
  have hdeclaration := h (· == .variableDeclaration) (by simp [Kind.sorts]) .variableDeclaration rfl
  clear h
  intro a ha
  cases form <;> simp_all [map, fits, children, Option.all_eq_true]
  all_goals grind

/-- No slot admits a labeled statement but not a function. -/
theorem Form.fits_map {α : Type} {old new : α → Kind} {form : Form α}
    (h : ∀ a ∈ form.children, (new a).MayReplace (old a)) (hfits : (form.map old).fits = true) :
    (form.map new).fits = true := by
  have hsorts : ∀ q ∈ Kind.sorts, q .labeledStatement = true → q .functionDeclaration = true := by
    decide
  exact fits_map_of_sorts (fun a ha q hq => (h a ha).keeps (hsorts q hq)) hfits

namespace Node

/-- Whether the children are of kinds that may stand in their slots. -/
def fits (n : Node) : Bool := (n.form.map kind).fits

def WellFormed (n : Node) : Prop := n.Everywhere fun m => m.fits = true

instance (n : Node) : Decidable n.WellFormed :=
  inferInstanceAs (Decidable (n.Everywhere fun m => m.fits = true))

theorem fits_mapChildren {f : Node → Node} {n : Node}
    (h : ∀ c ∈ n.children, (f c).kind.MayReplace c.kind) (hfits : n.fits = true) :
    (n.mapChildren f).fits = true := by
  unfold fits mapChildren
  rw [Form.map_map]
  exact Form.fits_map h hfits

theorem wellFormed_of_kind_identifier {n : Node} (h : n.kind = .identifier) : n.WellFormed := by
  unfold WellFormed
  rw [everywhere_of_kind_identifier h]
  unfold kind at h
  unfold fits
  cases hform : n.form <;> simp_all [Form.kind, Form.map, Form.fits]

end Node

/-! ### The code that is put in -/

namespace Sketch

theorem isExpression_kind_toNode (sketch : Sketch) : sketch.toNode.kind.isExpression = true := by
  cases sketch <;> rfl

theorem isMember_kind_fieldNode (field : Field Sketch) :
    (fieldNode field).kind.isMember = true := by
  cases field <;> rfl

theorem fits_toNode (sketch : Sketch) : sketch.toNode.fits = true := by
  cases sketch with
  | text | null | name => rfl
  | member owner property =>
    simp only [toNode, Node.fits, Node.ofForm, Form.map, Form.fits, isExpression_kind_toNode]
    rfl
  | call callee arguments =>
    simp [toNode, toNodes_eq, Node.fits, Node.ofForm, Form.map, Form.fits,
      isExpression_kind_toNode]
  | object fields =>
    simp [toNode, fieldNodes_eq, Node.fits, Node.ofForm, Form.map, Form.fits,
      isMember_kind_fieldNode]

end Sketch

theorem Definition.wellFormed_statement (d : Definition) : d.record.statement.WellFormed := by
  have hkind : ∀ a ∈ d.record.arguments, a.kind = .identifier :=
    fun a ha => kind_of_mem_plainParameters ha
  apply EntryRecord.everywhere_statement
  · exact d.record.logging.isExpression_kind_toNode
  · exact Sketch.fits_toNode
  · intro key value
    exact value.isExpression_kind_toNode
  · intro a ha
    exact beq_iff_eq.mpr (hkind a ha)
  · intro a ha
    exact Node.wellFormed_of_kind_identifier (hkind a ha)

theorem EntryRecord.kind_enclose (record : EntryRecord) (n : Node) :
    (record.enclose n).kind = n.kind := by
  unfold enclose
  split
  · rename_i h
    exact h.symm
  · rfl

namespace Setting

variable {s : Setting} {n : Node}

theorem kind_traced_mayReplace : (s.traced n).kind.MayReplace n.kind := by
  rw [kind_traced]
  split
  · rename_i h
    obtain ⟨d, hd⟩ := Option.isSome_iff_exists.mp h
    exact .inr ⟨rfl, Node.kind_of_request hd⟩
  · exact .inl rfl

theorem fits_traced (h : n.WellFormed) : (s.traced n).fits = true := by
  cases hrequest : n.request? s.config.skipMarked with
  | none =>
    rw [traced_of_none hrequest]
    exact Node.fits_mapChildren (fun c _ => kind_traced_mayReplace) h.root
  | some d =>
    rw [traced_of_request hrequest]
    have hd : d.toNode.fits = true := (h.child (Node.definition_mem_children hrequest)).root
    refine Node.fits_mapChildren (n := d.toNode.addComment marker) ?_ hd
    intro c _
    rw [EntryRecord.kind_enclose]
    exact kind_traced_mayReplace

theorem wellFormed_traced (h : n.WellFormed) : (s.traced n).WellFormed := by
  refine everywhere_traced (q := fun m => m.fits = true) (fun m hm => fits_traced hm) ?_
    Definition.wellFormed_statement h
  intro d m hm
  have hkind : (s.traced m).kind = .block := kind_traced_eq_block_iff.mpr hm
  simp only [Node.block, Node.fits, Node.ofForm, Form.map, Form.fits, List.map_cons, List.map_nil,
    hkind]
  rfl

end Setting

theorem Kind.MayReplace.isStatement_eq {new old : Kind} (h : new.MayReplace old) :
    new.isStatement = old.isStatement := by
  rcases h with rfl | ⟨rfl, rfl⟩ <;> rfl

theorem Kind.MayReplace.isExpression_eq {new old : Kind} (h : new.MayReplace old) :
    new.isExpression = old.isExpression := by
  rcases h with rfl | ⟨rfl, rfl⟩ <;> rfl

theorem Pass.traceFile_wellFormed (config : Config) (file : String) {n : Node}
    (h : n.WellFormed) :
    (traceFile config file n).value.WellFormed ∧
      (traceFile config file n).value.kind =
        (if (n.request? config.skipMarked).isSome then .functionDeclaration else n.kind) ∧
      (traceFile config file n).value.kind.isStatement = n.kind.isStatement ∧
      (traceFile config file n).value.kind.isExpression = n.kind.isExpression := by
  let s : Setting := ⟨file, config⟩
  have hkind : (s.traced n).kind.MayReplace n.kind := Setting.kind_traced_mayReplace
  exact ⟨Setting.wellFormed_traced (s := s) h, s.kind_traced n, hkind.isStatement_eq,
    hkind.isExpression_eq⟩

/-- A labeled function with a pattern among its parameters and another labeled function as a branch
in its body. -/
def Node.labeledBranch : Node :=
  .labeled "outer" (.function (some "f")
    [.ofForm (.parameter (.ofForm (.arrayBindingPattern [.identifier "a"])) none),
      .ofForm (.parameter (.identifier "b") (some (.ofForm .nullLiteral)))]
    (some (.block [.ofForm (.ifStatement (.identifier "b")
      (.labeled "branch" (.function none [] (some (.block [])))) none)])))

theorem Pass.traceFile_labeledBranch :
    Node.labeledBranch.WellFormed ∧
      (traceFile ⟨true⟩ "unit.ts" Node.labeledBranch).value.WellFormed ∧
      (traceFile ⟨true⟩ "unit.ts" Node.labeledBranch).value.kind = .functionDeclaration :=
  have h : Node.labeledBranch.WellFormed := by decide
  have htraced := traceFile_wellFormed ⟨true⟩ "unit.ts" h
  ⟨h, htraced.1, htraced.2.1⟩

end EntryTrace
