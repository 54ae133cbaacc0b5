import EntryTrace.Instrument.Rule
import EntryTrace.Proofs.Everywhere

/-! The nodes of the log statement. What holds of every sketched expression and of every member of a
sketched object holds everywhere in the statement, provided it holds everywhere in the names that
the statement takes over from the function. -/

namespace EntryTrace

set_option autoImplicit false

namespace Node

theorem everywhere_ofForm {p : Node → Prop} {form : Form Node} :
    (ofForm form).Everywhere p ↔ p (ofForm form) ∧ ∀ c ∈ form.children, c.Everywhere p :=
  everywhere_iff

theorem children_of_kind_identifier {n : Node} (h : n.kind = .identifier) : n.children = [] := by
  unfold kind at h
  unfold children
  cases hform : n.form <;> simp_all [Form.kind, Form.children]

theorem everywhere_of_kind_identifier {p : Node → Prop} {n : Node} (h : n.kind = .identifier) :
    n.Everywhere p ↔ p n := by
  rw [everywhere_iff, children_of_kind_identifier h]
  simp

end Node

namespace Sketch

theorem toNodes_eq (sketches : List Sketch) : toNodes sketches = sketches.map toNode := by
  induction sketches with
  | nil => rfl
  | cons sketch sketches ih => rw [toNodes, ih, List.map_cons]

theorem fieldNodes_eq (fields : List (Field Sketch)) : fieldNodes fields = fields.map fieldNode := by
  induction fields with
  | nil => rfl
  | cons field fields ih => rw [fieldNodes, ih, List.map_cons]

variable {p : Node → Prop}

theorem everywhere_text (value : String) :
    (text value).toNode.Everywhere p ↔ p (text value).toNode := by
  rw [Node.everywhere_iff]
  simp [toNode, Node.children, Node.ofForm, Form.children]

theorem everywhere_textOrNull (value : Option String) :
    (textOrNull value).toNode.Everywhere p ↔ p (textOrNull value).toNode := by
  rw [Node.everywhere_iff]
  cases value <;> simp [textOrNull, toNode, Node.children, Node.ofForm, Form.children]

theorem everywhere_name (value : String) :
    (name value).toNode.Everywhere p ↔ p (name value).toNode :=
  Node.everywhere_of_kind_identifier rfl

theorem everywhere_member (owner : Sketch) (property : String) :
    (member owner property).toNode.Everywhere p ↔
      p (member owner property).toNode ∧ owner.toNode.Everywhere p ∧ p (name property).toNode := by
  rw [Node.everywhere_iff, ← everywhere_name (p := p) property]
  simp [toNode, Node.children, Node.ofForm, Form.children]

theorem everywhere_call (callee : Sketch) (arguments : List Sketch) :
    (call callee arguments).toNode.Everywhere p ↔
      p (call callee arguments).toNode ∧ callee.toNode.Everywhere p ∧
        ∀ argument ∈ arguments, argument.toNode.Everywhere p := by
  rw [Node.everywhere_iff]
  simp [toNode, toNodes_eq, Node.children, Node.ofForm, Form.children]

theorem everywhere_object (fields : List (Field Sketch)) :
    (object fields).toNode.Everywhere p ↔
      p (object fields).toNode ∧ ∀ field ∈ fields, (fieldNode field).Everywhere p := by
  rw [Node.everywhere_iff]
  simp [toNode, fieldNodes_eq, Node.children, Node.ofForm, Form.children]

theorem everywhere_keyed (key : String) (value : Sketch) :
    (fieldNode (.keyed key value)).Everywhere p ↔
      p (fieldNode (.keyed key value)) ∧ p (name key).toNode ∧ value.toNode.Everywhere p := by
  rw [Node.everywhere_iff, ← everywhere_name (p := p) key]
  simp [fieldNode, toNode, Node.children, Node.ofForm, Form.children]

theorem everywhere_shorthand (n : Node) :
    (fieldNode (.shorthand n)).Everywhere p ↔
      p (fieldNode (.shorthand n)) ∧ n.Everywhere p := by
  rw [Node.everywhere_iff]
  simp [fieldNode, Node.children, Node.ofForm, Form.children]

end Sketch

theorem EntryRecord.everywhere_statement {p : Node → Prop} {record : EntryRecord}
    (hstatement : p record.statement) (hsketch : ∀ sketch : Sketch, p sketch.toNode)
    (hkeyed : ∀ key value, p (Sketch.fieldNode (.keyed key value)))
    (hshorthand : ∀ a ∈ record.arguments, p (Sketch.fieldNode (.shorthand a)))
    (harguments : ∀ a ∈ record.arguments, a.Everywhere p) : record.statement.Everywhere p := by
  have hlogging : record.logging.toNode.Everywhere p := by
    simp only [logging, content, Sketch.memberOf, Sketch.everywhere_call, Sketch.everywhere_member,
      Sketch.everywhere_name, Sketch.everywhere_object, Sketch.everywhere_keyed,
      Sketch.everywhere_shorthand, Sketch.everywhere_text, Sketch.everywhere_textOrNull,
      List.mem_cons, List.mem_map, List.not_mem_nil, forall_eq_or_imp, or_false, forall_eq,
      forall_exists_index, and_imp, forall_apply_eq_imp_iff₂, hsketch, hkeyed, true_and, and_true]
    exact fun a ha => ⟨hshorthand a ha, harguments a ha⟩
  refine Node.everywhere_ofForm.mpr ⟨hstatement, ?_⟩
  intro c hc
  obtain rfl := List.mem_singleton.mp hc
  exact hlogging

theorem kind_of_mem_plainParameters {parameters : List Node} {a : Node}
    (h : a ∈ plainParameters parameters) : a.kind = .identifier := by
  obtain ⟨parameter, _, hname⟩ := List.mem_filterMap.mp h
  unfold plainParameter? at hname
  split at hname
  · split at hname
    · rename_i hkind
      obtain rfl := Option.some.inj hname
      exact hkind
    · simp at hname
  · simp at hname

/-- Whether the node is a parameter whose name is an identifier. -/
def Node.hasPlainName (n : Node) : Bool :=
  match n.form with
  | .parameter name _ => name.kind == .identifier
  | _ => false

theorem isSome_plainParameter? (n : Node) : (plainParameter? n).isSome = n.hasPlainName := by
  rcases n with ⟨form, span, comments⟩
  cases form with
  | parameter name initial =>
    unfold plainParameter? Node.hasPlainName
    by_cases h : name.kind = .identifier <;> simp [h]
  | _ => rfl

theorem length_plainParameters (parameters : List Node) :
    (plainParameters parameters).length = parameters.countP Node.hasPlainName := by
  unfold plainParameters
  rw [List.length_filterMap_eq_countP]
  exact List.countP_congr fun n _ => by rw [isSome_plainParameter?]

end EntryTrace
