import EntryTrace.Proofs.Layer

/-!
# The pass by recursion on its input

Where the parts of every function are what their slots are for, the pass is a recursion on the tree
it is given: a labeled definition becomes the definition with its marker and its log statement, and
every other node keeps what is its own. The recursion never looks at the code that was put in.
-/

namespace EntryTrace

set_option autoImplicit false

/-- Whether the name of a function is an identifier, its parameters are parameters and its body is a
block. -/
def Node.isRegular (n : Node) : Bool :=
  match n.form with
  | .functionDeclaration name parameters body =>
    name.all (·.kind == .identifier) && parameters.all (·.kind == .parameter) &&
      body.all (·.kind == .block)
  | _ => true

namespace Definition

structure Regular (d : Definition) : Prop where
  name : ∀ a ∈ d.name, a.kind = .identifier
  parameters : ∀ a ∈ d.parameters, a.kind = .parameter
  body : d.body.kind = .block

theorem isRegular_toNode (d : Definition) : d.toNode.isRegular = true ↔ d.Regular := by
  constructor
  · intro h
    simp only [Node.isRegular, toNode, Bool.and_eq_true, Option.all_eq_true, List.all_eq_true,
      beq_iff_eq] at h
    obtain ⟨⟨hname, hparameters⟩, hbody⟩ := h
    exact ⟨hname, hparameters, hbody d.body rfl⟩
  · rintro ⟨hname, hparameters, hbody⟩
    simpa [Node.isRegular, toNode, hbody, Option.all_eq_true] using ⟨hname, hparameters⟩

end Definition

namespace Setting

variable {s : Setting} {n : Node} {d : Definition}

theorem enclose_traced_of_ne (record : EntryRecord) (h : n.kind ≠ .block) :
    record.enclose (s.traced n) = s.traced n :=
  if_neg (mt kind_traced_eq_block_iff.mp h)

theorem traced_of_regular (h : n.request? s.config.skipMarked = some d) (hd : d.Regular) :
    s.traced n = ((d.map s.traced).withLog d.record).toNode := by
  have hname : (d.name.map fun a => d.record.enclose (s.traced a)) = d.name.map s.traced := by
    apply Option.map_congr
    intro a ha
    exact enclose_traced_of_ne d.record (by rw [hd.name a ha]; decide)
  have hparameters :
      (d.parameters.map fun a => d.record.enclose (s.traced a)) = d.parameters.map s.traced := by
    apply List.map_congr_left
    intro a ha
    exact enclose_traced_of_ne d.record (by rw [hd.parameters a ha]; decide)
  have hbody : d.record.enclose (s.traced d.body) = .block [d.record.statement, s.traced d.body] :=
    if_pos (kind_traced_eq_block_iff.mpr hd.body)
  rw [traced_of_request h]
  simp only [Node.mapChildren, Node.addComment, Definition.toNode, Definition.map,
    Definition.withLog, Form.map, Option.map_some, hname, hparameters, hbody]

end Setting

namespace Node

variable {guarded : Bool} {n : Node} {d : Definition}

/-- The tree with every requested definition instrumented. The value of a requested definition
itself is at hand with its parts already done, since a definition is no request. -/
def structural (guarded : Bool) (n : Node) : Node :=
  n.fold fun (own : Node) (form : Form Node) =>
    match own.request? guarded, form with
    | some d, .labeledStatement _ ⟨.functionDeclaration name parameters (some body), _, _⟩ =>
      (Definition.withLog d.record { d with name, parameters, body }).toNode
    | _, _ => { own with form := form }

theorem structural_of_none (h : n.request? guarded = none) :
    n.structural guarded = n.mapChildren (structural guarded) := by
  unfold structural
  rw [fold_eq]
  simp only [h]
  rfl

theorem structural_of_request (h : n.request? guarded = some d) :
    n.structural guarded = ((d.map (structural guarded)).withLog d.record).toNode := by
  obtain ⟨label, hform⟩ := exists_label_of_request h
  have hdefinition : d.toNode.structural guarded = d.toNode.mapChildren (structural guarded) :=
    structural_of_none rfl
  unfold structural at hdefinition ⊢
  rw [fold_eq]
  simp only [h, hform, Form.map, hdefinition]
  rfl

end Node

theorem Setting.traced_eq_structural {s : Setting} {n : Node}
    (h : n.Everywhere fun m => m.isRegular = true) :
    s.traced n = n.structural s.config.skipMarked := by
  induction n using Node.deep_induction with
  | step n ih =>
    cases hrequest : n.request? s.config.skipMarked with
    | none =>
      rw [traced_of_none hrequest, Node.structural_of_none hrequest]
      exact Node.mapChildren_congr fun c hc => (ih c hc).root (h.child hc)
    | some d =>
      have hmem := Node.definition_mem_children hrequest
      have hd := d.isRegular_toNode.mp (h.child hmem).root
      have hpart : ∀ c ∈ d.toNode.children, s.traced c = c.structural s.config.skipMarked :=
        fun c hc => ((ih d.toNode hmem).child hc).root ((h.child hmem).child hc)
      rw [traced_of_regular hrequest hd, Node.structural_of_request hrequest,
        Definition.map_congr hpart]

theorem Pass.traceFile_eq_structural (config : Config) (file : String) {n : Node}
    (h : n.Everywhere fun m => m.isRegular = true) :
    (traceFile config file n).value = n.structural config.skipMarked :=
  Setting.traced_eq_structural (s := ⟨file, config⟩) h

/-- Two labels on a function that holds a labeled function of its own. -/
def Node.chainedLabels : Node :=
  .ofForm (.sourceFile [.labeled "outer" (.labeled "inner" (.function (some "f")
    [.ofForm (.parameter (.identifier "a") none),
      .ofForm (.parameter (.ofForm (.objectBindingPattern [.identifier "b"])) none)]
    (some (.block [.labeled "nested" (.function none [] (some (.block [])))]))))])

theorem Pass.traceFile_chainedLabels :
    (Node.chainedLabels.Everywhere fun m => m.isRegular = true) ∧
      (traceFile ⟨false⟩ "unit.ts" Node.chainedLabels).value = Node.chainedLabels.structural false :=
  have h : Node.chainedLabels.Everywhere fun m => m.isRegular = true := by decide
  ⟨h, traceFile_eq_structural ⟨false⟩ "unit.ts" h⟩

end EntryTrace
