import EntryTrace.Proofs.Structural

/-!
# Where the nodes of a traced tree come from

A span that is not synthetic is a promise about the source text. The pass makes no such promise of
its own: a node of the result that has a position has the kind and the position of a node of the
original tree. Nodes that stay keep both, a function that was under a label keeps its own, and of the
new code only the names of parameters have a position, which is the one they have in the function.
-/

namespace EntryTrace

set_option autoImplicit false

namespace Node

variable {n m c : Node}

/-- The node has no position, or one that a node of the same kind has in the original tree. -/
def PlacedIn (original n : Node) : Prop :=
  n.span = Span.synthetic ∨ ∃ m ∈ original.preorder, m.kind = n.kind ∧ m.span = n.span

theorem placedIn_of_mem (h : m ∈ n.preorder) : n.PlacedIn m :=
  .inr ⟨m, h, rfl, rfl⟩

theorem placedIn_ofForm (original : Node) (form : Form Node) : original.PlacedIn (ofForm form) :=
  .inl rfl

theorem placedIn_mapChildren {f : Node → Node} (h : n.PlacedIn m) : n.PlacedIn (m.mapChildren f) := by
  unfold PlacedIn
  rw [kind_mapChildren]
  exact h

/-- A position in a part of the tree is a position in the tree. -/
theorem PlacedIn.of_part (h : c.PlacedIn m) (hc : c ∈ n.preorder) : n.PlacedIn m := by
  rcases h with hsynthetic | ⟨source, hsource, hsame⟩
  · exact .inl hsynthetic
  · exact .inr ⟨source, mem_preorder_trans hsource hc, hsame⟩

theorem Everywhere.placedIn_of_part (h : m.Everywhere c.PlacedIn) (hc : c ∈ n.preorder) :
    m.Everywhere n.PlacedIn :=
  h.imp fun _ hplaced => hplaced.of_part hc

end Node

theorem mem_children_of_plainParameter? {n name : Node} (h : plainParameter? n = some name) :
    name ∈ n.children := by
  rcases n with ⟨form, span, comments⟩
  cases form with
  | parameter own initial =>
    have hown : (if own.kind = .identifier then some own else none) = some name := h
    split at hown
    · obtain rfl := Option.some.inj hown
      exact List.mem_cons_self
    · simp at hown
  | _ => simp [plainParameter?] at h

namespace Definition

variable {d : Definition}

/-- The names that are logged stand in the definition. -/
theorem mem_preorder_of_argument {a : Node} (h : a ∈ d.record.arguments) : a ∈ d.toNode.preorder := by
  obtain ⟨p, hp, hname⟩ := List.mem_filterMap.mp h
  have hparameter : p ∈ d.toNode.children := by
    simp [toNode, Node.children, Form.children, hp]
  apply Node.mem_preorder_trans _ (Node.mem_preorder_of_mem_children hparameter)
  exact Node.mem_preorder_of_mem_children (mem_children_of_plainParameter? hname)

theorem placedIn_statement (d : Definition) :
    d.record.statement.Everywhere d.toNode.PlacedIn := by
  apply EntryRecord.everywhere_statement
  · exact Node.placedIn_ofForm _ _
  · intro sketch
    cases sketch <;> exact Node.placedIn_ofForm _ _
  · intro key value
    exact Node.placedIn_ofForm _ _
  · intro a _
    exact Node.placedIn_ofForm _ _
  · intro a ha
    rw [Node.everywhere_of_kind_identifier (kind_of_mem_plainParameters ha)]
    exact Node.placedIn_of_mem (mem_preorder_of_argument ha)

/-- The log statement and the block around it add no position that the definition does not have. -/
theorem placedIn_enclose {n : Node} (h : n.Everywhere d.toNode.PlacedIn) :
    (d.record.enclose n).Everywhere d.toNode.PlacedIn := by
  unfold EntryRecord.enclose
  split
  · refine Node.everywhere_ofForm.mpr ⟨Node.placedIn_ofForm _ _, ?_⟩
    intro c hc
    simp only [Form.children, List.mem_cons, List.not_mem_nil, or_false] at hc
    rcases hc with rfl | rfl
    · exact d.placedIn_statement
    · exact h
  · exact h

end Definition

theorem Setting.placedIn_traced (s : Setting) (n : Node) : (s.traced n).Everywhere n.PlacedIn := by
  induction n using Node.request_induction s.config.skipMarked with
  | kept n hrequest ih =>
    rw [traced_of_none hrequest]
    apply Node.everywhere_mapChildren
    · exact Node.placedIn_mapChildren (Node.placedIn_of_mem n.self_mem_preorder)
    · intro c hc
      exact (ih c hc).placedIn_of_part (Node.mem_preorder_of_mem_children hc)
  | requested n d hrequest ih =>
    -- positions are taken from the definition, which is a part of the request
    have hd : d.toNode ∈ n.preorder :=
      Node.mem_preorder_of_mem_children (Node.definition_mem_children hrequest)
    suffices h : (s.traced n).Everywhere d.toNode.PlacedIn from h.placedIn_of_part hd
    rw [traced_of_request hrequest]
    apply Node.everywhere_mapChildren
    · apply Node.placedIn_mapChildren
      exact .inr ⟨d.toNode, d.toNode.self_mem_preorder, rfl, rfl⟩
    · intro c hc
      apply Definition.placedIn_enclose
      exact (ih c hc).placedIn_of_part (Node.mem_preorder_of_mem_children hc)

theorem Pass.exists_source_of_mem_traceFile (config : Config) (file : String) (n : Node) :
    ∀ m ∈ (traceFile config file n).value.preorder, m.span ≠ Span.synthetic →
      ∃ source ∈ n.preorder, source.kind = m.kind ∧ source.span = m.span := by
  intro m hm hspan
  have hplaced : n.PlacedIn m := Setting.placedIn_traced ⟨file, config⟩ n m hm
  exact hplaced.resolve_left hspan

/-- A labeled function `a: function f(x) {}` with the positions of its parts in that text. -/
def Node.locatedFunction : Node :=
  let parameter : Node :=
    ⟨.parameter ⟨.identifier "x", ⟨14, 15, 1, 15⟩, []⟩ none, ⟨14, 15, 1, 15⟩, []⟩
  let function : Node :=
    ⟨.functionDeclaration (some ⟨.identifier "f", ⟨12, 13, 1, 13⟩, []⟩) [parameter]
      (some ⟨.block [], ⟨17, 19, 1, 18⟩, []⟩), ⟨3, 19, 1, 4⟩, []⟩
  ⟨.labeledStatement ⟨.identifier "a", ⟨0, 1, 1, 1⟩, []⟩ function, ⟨0, 19, 1, 1⟩, []⟩

/-- The name of the parameter is logged with its position, so a second node of the result has it. -/
theorem Pass.exists_source_locatedFunction :
    let result := (traceFile ⟨false⟩ "unit.ts" Node.locatedFunction).value
    let name : Node := ⟨.identifier "x", ⟨14, 15, 1, 15⟩, []⟩
    result.preorder.count name = 2 ∧ name.span ≠ Span.synthetic ∧
      ∃ source ∈ Node.locatedFunction.preorder,
        source.kind = .identifier ∧ source.span = ⟨14, 15, 1, 15⟩ := by
  intro result name
  have hresult : result = Node.locatedFunction.structural false :=
    Setting.traced_eq_structural (s := ⟨"unit.ts", ⟨false⟩⟩) (by decide)
  have hcount : result.preorder.count name = 2 := by
    rw [hresult]
    decide
  have hspan : name.span ≠ Span.synthetic := by decide
  have hmem : name ∈ result.preorder := List.count_pos_iff.mp (by rw [hcount]; decide)
  exact ⟨hcount, hspan, exists_source_of_mem_traceFile ⟨false⟩ "unit.ts" _ name hmem hspan⟩

end EntryTrace
