import EntryTrace.Proofs.Layer

/-!
# Jumps

A jump that names a label has to lie under that label, in the same function. The pass takes labels
away, but only labels that stand directly on a function: a jump below such a label lies in the
function, where the label is not in force. So jumps that resolve still do after the pass.
-/

namespace EntryTrace

set_option autoImplicit false

namespace Node

/-- The label that a jump names. -/
def target? (n : Node) : Option String :=
  match n.form with
  | .breakStatement label => label.bind identifier?
  | .continueStatement label => label.bind identifier?
  | _ => none

/-- One step of `jumpsResolve`: `form` says for each slot under which labels the jumps in it resolve.
A label is in force in its statement; in a function no label from around it is. -/
def resolve (own : Node) (form : Form (List String → Bool)) (labels : List String) : Bool :=
  match form with
  | .labeledStatement label statement =>
    label labels && statement (own.labelName?.toList ++ labels)
  | .functionDeclaration _ _ _ => form.children.all fun slot => slot []
  | _ =>
    own.target?.all (fun name => labels.contains name) &&
      form.children.all fun slot => slot labels

/-- Whether every jump in the tree that names a label names one in force at its place, given the
labels in force around the tree. -/
def jumpsResolve (n : Node) : List String → Bool := n.fold resolve

variable {n : Node} {labels : List String}

theorem jumpsResolve_eq (n : Node) : n.jumpsResolve = n.resolve (n.form.map jumpsResolve) :=
  fold_eq resolve n

theorem jumpsResolve_labeled {label m : Node} (h : n.form = .labeledStatement label m) :
    n.jumpsResolve labels = true ↔
      label.jumpsResolve labels = true ∧
        m.jumpsResolve (n.labelName?.toList ++ labels) = true := by
  rw [jumpsResolve_eq, h]
  exact Bool.and_eq_true_iff

theorem resolve_function {form : Form (List String → Bool)}
    (h : form.kind = .functionDeclaration) :
    n.resolve form labels = form.children.all fun slot => slot [] := by
  cases form with
  | functionDeclaration => rfl
  | _ => simp [Form.kind] at h

theorem resolve_plain {form : Form (List String → Bool)} (h : form.kind.isPlain = true) :
    n.resolve form labels =
      (n.target?.all (fun name => labels.contains name) &&
        form.children.all fun slot => slot labels) := by
  cases form with
  | labeledStatement | functionDeclaration => exact absurd h Bool.false_ne_true
  | _ => rfl

theorem jumpsResolve_function (h : n.kind = .functionDeclaration) :
    n.jumpsResolve labels = true ↔ ∀ c ∈ n.children, c.jumpsResolve [] = true := by
  rw [jumpsResolve_eq, resolve_function (by rw [Form.kind_map]; exact h), Form.children_map,
    List.all_map, List.all_eq_true]
  rfl

theorem jumpsResolve_plain (h : n.kind.isPlain = true) :
    n.jumpsResolve labels = true ↔
      (∀ name ∈ n.target?, name ∈ labels) ∧ ∀ c ∈ n.children, c.jumpsResolve labels = true := by
  rw [jumpsResolve_eq, resolve_plain (by rw [Form.kind_map]; exact h), Form.children_map,
    List.all_map, Bool.and_eq_true, Option.all_eq_true, List.all_eq_true]
  simp only [List.contains_iff_mem]
  rfl

theorem labeled_or_function_or_plain (n : Node) :
    (∃ label m, n.form = .labeledStatement label m) ∨ n.kind = .functionDeclaration ∨
      n.kind.isPlain = true := by
  rcases n with ⟨form, span, comments⟩
  cases form with
  | labeledStatement label m => exact .inl ⟨label, m, rfl⟩
  | functionDeclaration => exact .inr (.inl rfl)
  | _ => exact .inr (.inr rfl)

theorem jumpsResolve_of_no_target (h : n.Everywhere fun m => m.target? = none)
    (labels : List String) : n.jumpsResolve labels = true := by
  induction n using Node.induction generalizing labels with
  | step n ih =>
    have hchildren : ∀ c ∈ n.children, ∀ names, c.jumpsResolve names = true :=
      fun c hc names => ih c hc (h.child hc) names
    rcases n.labeled_or_function_or_plain with ⟨label, m, hform⟩ | hkind | hkind
    · rw [jumpsResolve_labeled hform]
      simp only [children, hform, Form.children] at hchildren
      exact ⟨hchildren label (by simp) labels, hchildren m (by simp) _⟩
    · rw [jumpsResolve_function hkind]
      exact fun c hc => hchildren c hc []
    · rw [jumpsResolve_plain hkind, h.root]
      exact ⟨by simp, fun c hc => hchildren c hc labels⟩

theorem target?_of_kind_identifier (h : n.kind = .identifier) : n.target? = none := by
  rcases n with ⟨form, span, comments⟩
  cases form with
  | identifier => rfl
  | _ => simp [kind, Form.kind] at h

theorem identifier?_of_kind_ne (h : n.kind ≠ .identifier) : n.identifier? = none := by
  rcases n with ⟨form, span, comments⟩
  cases form with
  | identifier => exact absurd rfl h
  | _ => rfl

end Node

theorem Definition.jumpsResolve_statement (d : Definition) (labels : List String) :
    d.record.statement.jumpsResolve labels = true := by
  apply Node.jumpsResolve_of_no_target
  apply EntryRecord.everywhere_statement
  · rfl
  · intro sketch
    cases sketch <;> rfl
  · intro key value
    rfl
  · intro a _
    rfl
  · intro a ha
    have hkind : a.kind = .identifier := kind_of_mem_plainParameters ha
    rw [Node.everywhere_of_kind_identifier hkind]
    exact Node.target?_of_kind_identifier hkind

theorem Definition.jumpsResolve_enclose (d : Definition) {n : Node} {labels : List String}
    (h : n.jumpsResolve labels = true) : (d.record.enclose n).jumpsResolve labels = true := by
  unfold EntryRecord.enclose
  split
  · have htarget : (Node.block [d.record.statement, n]).target? = none := rfl
    rw [Node.jumpsResolve_plain rfl, htarget]
    refine ⟨by simp, ?_⟩
    intro c hc
    simp only [Node.block, Node.ofForm, Node.children, Form.children, List.mem_cons,
      List.not_mem_nil, or_false] at hc
    rcases hc with rfl | rfl
    · exact d.jumpsResolve_statement labels
    · exact h
  · exact h

namespace Setting

variable {s : Setting} {n : Node} {labels : List String}

theorem identifier?_traced (s : Setting) (n : Node) : (s.traced n).identifier? = n.identifier? := by
  by_cases h : n.kind = .identifier
  · rw [traced_of_kind_identifier h]
  · have htraced : (s.traced n).kind ≠ .identifier := mt (kind_traced_eq_iff rfl).mp h
    rw [Node.identifier?_of_kind_ne h, Node.identifier?_of_kind_ne htraced]

theorem labelName?_mapChildren_traced (s : Setting) (n : Node) :
    (n.mapChildren s.traced).labelName? = n.labelName? := by
  rcases n with ⟨form, span, comments⟩
  cases form with
  | labeledStatement label m => exact identifier?_traced s label
  | _ => rfl

theorem target?_mapChildren_traced (s : Setting) (n : Node) :
    (n.mapChildren s.traced).target? = n.target? := by
  rcases n with ⟨form, span, comments⟩
  cases form with
  | breakStatement label | continueStatement label =>
    cases label with
    | none => rfl
    | some name => exact identifier?_traced s name
  | _ => rfl

theorem jumpsResolve_traced (h : n.jumpsResolve labels = true) :
    (s.traced n).jumpsResolve labels = true := by
  induction n using Node.request_induction s.config.skipMarked generalizing labels with
  | kept n hrequest ih =>
    rw [traced_of_none hrequest]
    rcases n.labeled_or_function_or_plain with ⟨label, m, hform⟩ | hkind | hkind
    · have hchildren : n.children = [label, m] := by
        rw [Node.children, hform]
        rfl
      have htraced : (n.mapChildren s.traced).form =
          .labeledStatement (s.traced label) (s.traced m) := by
        rw [Node.mapChildren, hform]
        rfl
      obtain ⟨hlabel, hm⟩ := (Node.jumpsResolve_labeled hform).mp h
      rw [Node.jumpsResolve_labeled htraced, labelName?_mapChildren_traced]
      exact ⟨ih label (by simp [hchildren]) hlabel, ih m (by simp [hchildren]) hm⟩
    · have hchildren := (Node.jumpsResolve_function hkind).mp h
      rw [Node.jumpsResolve_function (by rw [Node.kind_mapChildren]; exact hkind),
        Node.forall_children_mapChildren]
      intro c hc
      exact ih c hc (hchildren c hc)
    · obtain ⟨htarget, hchildren⟩ := (Node.jumpsResolve_plain hkind).mp h
      rw [Node.jumpsResolve_plain (by rw [Node.kind_mapChildren]; exact hkind),
        target?_mapChildren_traced, Node.forall_children_mapChildren]
      exact ⟨htarget, fun c hc => ih c hc (hchildren c hc)⟩
  | requested n d hrequest ih =>
    obtain ⟨label, hform⟩ := Node.exists_label_of_request hrequest
    -- the label that goes is not in force in the function, nor is any other from around it
    have hparts := (Node.jumpsResolve_function rfl).mp ((Node.jumpsResolve_labeled hform).mp h).2
    rw [traced_of_request hrequest, Node.jumpsResolve_function rfl,
      Node.forall_children_mapChildren]
    intro c hc
    exact d.jumpsResolve_enclose (ih c hc (hparts c hc))

end Setting

theorem Pass.traceFile_jumpsResolve (config : Config) (file : String) {n : Node}
    (h : n.jumpsResolve [] = true) : (traceFile config file n).value.jumpsResolve [] = true :=
  Setting.jumpsResolve_traced (s := ⟨file, config⟩) h

/-- A traced function in a labeled loop, with a loop of its own that has the function's label. -/
def Node.labeledLoops : Node :=
  .labeled "outer" (.ofForm (.whileStatement (.ofForm (.booleanLiteral true)) (.block [
    .labeled "entry" (.function (some "f") [] (some (.block [
      .labeled "entry" (.ofForm (.whileStatement (.identifier "more")
        (.continueTo (some "entry"))))]))),
    .breakTo (some "outer")])))

theorem Pass.traceFile_labeledLoops :
    Node.labeledLoops.jumpsResolve [] = true ∧
      (traceFile ⟨false⟩ "unit.ts" Node.labeledLoops).value.jumpsResolve [] = true :=
  have h : Node.labeledLoops.jumpsResolve [] = true := by decide
  ⟨h, traceFile_jumpsResolve ⟨false⟩ "unit.ts" h⟩

end EntryTrace
