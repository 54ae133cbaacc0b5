import EntryTrace.Proofs.Guard

/-!
# What the pass looks at

The pass decides by forms alone; with the guard set it also asks whether a function is marked. The
outline of a tree keeps just that. Tracing a tree and tracing its outline give the same result up to
spans and comments, so two trees with one outline are traced alike.
-/

namespace EntryTrace

set_option autoImplicit false

namespace Node

variable {n m : Node} {guarded : Bool}

/-- The tree without spans and comments. -/
def bare (n : Node) : Node := n.fold fun _ form => ofForm form

theorem bare_eq (n : Node) : n.bare = ofForm (n.form.map bare) := by
  unfold bare
  rw [fold_eq]

theorem bare_ofForm (form : Form Node) : (ofForm form).bare = ofForm (form.map bare) :=
  bare_eq (ofForm form)

theorem bare_identifier (text : String) : (identifier text).bare = identifier text := rfl

theorem kind_bare (n : Node) : n.bare.kind = n.kind := by
  rw [bare_eq]
  exact Form.kind_map bare n.form

theorem kind_eq_of_bare_eq (h : n.bare = m.bare) : n.kind = m.kind := by
  rw [← kind_bare n, h, kind_bare]

theorem bare_mapChildren (f : Node → Node) (n : Node) :
    (n.mapChildren f).bare = ofForm (n.form.map fun c => (f c).bare) := by
  rw [bare_eq, mapChildren, Form.map_map]

/-- A tree of new nodes is bare already. -/
theorem bare_eq_self (h : n.Everywhere fun m => m = ofForm m.form) : n.bare = n := by
  induction n using Node.induction with
  | step n ih =>
    rw [bare_eq, Form.map_congr fun c hc => ih c hc (h.child hc), Form.map_id]
    exact h.root.symm

/-- The marker where a function is marked and the guard asks for it; no other comments. -/
def mark (guarded : Bool) (n : Node) : List Comment :=
  if guarded && n.kind == .functionDeclaration && n.hasComment marker.text then [marker] else []

/-- The forms of the tree, with the marks of its functions if the guard is set. -/
def outline (guarded : Bool) (n : Node) : Node :=
  n.fold fun own form => ⟨form, Span.synthetic, own.mark guarded⟩

theorem outline_eq (guarded : Bool) (n : Node) :
    n.outline guarded = ⟨n.form.map (outline guarded), Span.synthetic, n.mark guarded⟩ := by
  unfold outline
  rw [fold_eq]

theorem kind_outline (guarded : Bool) (n : Node) : (n.outline guarded).kind = n.kind := by
  rw [outline_eq]
  exact Form.kind_map _ n.form

theorem bare_outline (guarded : Bool) (n : Node) : (n.outline guarded).bare = n.bare := by
  induction n using Node.induction with
  | step n ih =>
    rw [outline_eq, bare_eq, bare_eq n, Form.map_map]
    exact congrArg ofForm (Form.map_congr ih)

theorem outline_false (n : Node) : n.outline false = n.bare := by
  induction n using Node.induction with
  | step n ih =>
    rw [outline_eq, bare_eq, Form.map_congr ih]
    rfl

theorem identifier?_bare (n : Node) : n.bare.identifier? = n.identifier? := by
  rw [bare_eq]
  rcases n with ⟨form, span, comments⟩
  cases form <;> rfl

theorem identifier?_outline (guarded : Bool) (n : Node) :
    (n.outline guarded).identifier? = n.identifier? := by
  rw [outline_eq]
  rcases n with ⟨form, span, comments⟩
  cases form <;> rfl

end Node

/-! ### Requests and records of an outline -/

theorem plainParameter?_outline (guarded : Bool) (n : Node) :
    plainParameter? (n.outline guarded) = (plainParameter? n).map (Node.outline guarded) := by
  rw [Node.outline_eq]
  rcases n with ⟨form, span, comments⟩
  cases form with
  | parameter name initial =>
    unfold plainParameter?
    simp only [Form.map, Node.kind_outline]
    split <;> rfl
  | _ => rfl

theorem plainParameters_outline (guarded : Bool) (parameters : List Node) :
    plainParameters (parameters.map (Node.outline guarded)) =
      (plainParameters parameters).map (Node.outline guarded) := by
  unfold plainParameters
  rw [List.filterMap_map, List.map_filterMap]
  exact congrArg (parameters.filterMap ·) (funext (plainParameter?_outline guarded))

namespace Definition

def outline (guarded : Bool) (d : Definition) : Definition :=
  { d.map (Node.outline guarded) with
    span := Span.synthetic, comments := d.toNode.mark guarded }

/-- With the guard set, the outline of a definition is marked exactly when the definition is. -/
theorem hasComment_outline (d : Definition) :
    (d.outline true).toNode.hasComment marker.text = d.toNode.hasComment marker.text := by
  have hkind : d.toNode.kind = .functionDeclaration := rfl
  change (d.toNode.mark true).any (fun c => c.text == marker.text) = _
  unfold Node.mark
  cases h : d.toNode.hasComment marker.text <;> simp [hkind]

end Definition

namespace Node

variable {n : Node} {d : Definition} {guarded : Bool}

theorem labeledFunction?_outline (guarded : Bool) (n : Node) :
    (n.outline guarded).labeledFunction? =
      n.labeledFunction?.map (Definition.outline guarded) := by
  rcases n with ⟨form, span, comments⟩
  rw [outline_eq]
  cases form with
  | labeledStatement label m =>
    rcases m with ⟨inner, span', comments'⟩
    simp only [Form.map, outline_eq guarded ⟨inner, span', comments'⟩]
    cases inner with
    | functionDeclaration name parameters body => cases body <;> rfl
    | _ => rfl
  | _ => rfl

theorem request?_outline (guarded : Bool) (n : Node) :
    (n.outline guarded).request? guarded =
      (n.request? guarded).map (Definition.outline guarded) := by
  unfold request?
  rw [labeledFunction?_outline]
  cases n.labeledFunction? with
  | none => rfl
  | some d =>
    cases guarded with
    | false => rfl
    | true =>
      simp only [Option.map_some, Option.filter_some, Definition.hasComment_outline]
      split <;> rfl

end Node

namespace EntryRecord

/-- The record with bare argument names. -/
def bare (record : EntryRecord) : EntryRecord :=
  { record with arguments := record.arguments.map Node.bare }

/-- The log statement has spans and comments only at the names it takes over. -/
theorem bare_statement (record : EntryRecord) : record.statement.bare = record.bare.statement := by
  have harguments :
      (record.arguments.map fun n => Node.ofForm (.shorthandProperty n)).map Node.bare =
        (record.arguments.map Node.bare).map fun n => Node.ofForm (.shorthandProperty n) := by
    simp [Node.bare_ofForm, Form.map]
  have hname : (Sketch.textOrNull record.function).toNode.bare =
      (Sketch.textOrNull record.function).toNode := by
    cases record.function <;> rfl
  simp only [statement, logging, content, bare, Sketch.memberOf, Sketch.toNode, Sketch.toNodes,
    Sketch.fieldNodes, Sketch.fieldNode, Sketch.fieldNodes_shorthand, Node.bare_ofForm,
    Node.bare_identifier, Form.map, List.map_cons, List.map_nil, harguments, hname]

/-- Up to spans and comments, enclosing depends on the record and the node only up to spans and
comments. -/
theorem bare_enclose {r r' : EntryRecord} {n m : Node} (hr : r.bare = r'.bare)
    (h : n.bare = m.bare) : (r.enclose n).bare = (r'.enclose m).bare := by
  unfold enclose
  rw [Node.kind_eq_of_bare_eq h]
  split
  · simp only [Node.block, Node.bare_ofForm, Form.map, List.map_cons, List.map_nil,
      bare_statement, hr, h]
  · exact h

end EntryRecord

theorem Definition.bare_record_outline (guarded : Bool) (d : Definition) :
    (d.outline guarded).record.bare = d.record.bare := by
  have hfunction : (d.name.map (Node.outline guarded)).bind Node.identifier? =
      d.name.bind Node.identifier? := by
    cases d.name with
    | none => rfl
    | some name => exact Node.identifier?_outline guarded name
  have harguments : (plainParameters (d.parameters.map (Node.outline guarded))).map Node.bare =
      (plainParameters d.parameters).map Node.bare := by
    rw [plainParameters_outline, List.map_map]
    exact List.map_congr_left fun n _ => Node.bare_outline guarded n
  unfold EntryRecord.bare record outline Definition.map
  rw [hfunction, harguments]

/-! ### The pass on an outline -/

namespace Setting

variable {s : Setting} {n : Node}

theorem bare_traced_outline (s : Setting) (n : Node) :
    (s.traced (n.outline s.config.skipMarked)).bare = (s.traced n).bare := by
  induction n using Node.request_induction s.config.skipMarked with
  | kept n hrequest ih =>
    have houtline : (n.outline s.config.skipMarked).request? s.config.skipMarked = none := by
      rw [Node.request?_outline, hrequest]
      rfl
    rw [traced_of_none houtline, traced_of_none hrequest, Node.bare_mapChildren,
      Node.bare_mapChildren, Node.outline_eq, Form.map_map]
    exact congrArg Node.ofForm (Form.map_congr ih)
  | requested n d hrequest ih =>
    have houtline : (n.outline s.config.skipMarked).request? s.config.skipMarked =
        some (d.outline s.config.skipMarked) := by
      rw [Node.request?_outline, hrequest]
      rfl
    rw [traced_of_request houtline, traced_of_request hrequest, Node.bare_mapChildren,
      Node.bare_mapChildren]
    have hform : ((d.outline s.config.skipMarked).toNode.addComment marker).form =
        d.toNode.form.map (Node.outline s.config.skipMarked) := rfl
    rw [hform, Form.map_map]
    apply congrArg Node.ofForm
    apply Form.map_congr
    intro c hc
    exact EntryRecord.bare_enclose (d.bare_record_outline s.config.skipMarked) (ih c hc)

theorem bare_traced_eq {t : Setting} {m : Node} (hguard : s.config.skipMarked = t.config.skipMarked)
    (h : n.outline s.config.skipMarked = m.outline s.config.skipMarked) :
    (s.traced n).bare = (t.traced m).bare := by
  rw [← bare_traced_outline s n, ← bare_traced_outline t m, ← hguard, ← h, traced_congr hguard]

end Setting

/-! ### Two trees with one outline -/

namespace Node

variable {a b : Node}

/-- The functions at corresponding places of the two trees are both marked or both unmarked. Trees
that are equal up to spans and comments list their nodes in step. -/
def SameMarks (a b : Node) : Prop :=
  ∀ p ∈ a.preorder.zip b.preorder, p.1.kind = .functionDeclaration →
    p.1.hasComment marker.text = p.2.hasComment marker.text

instance : Decidable (a.SameMarks b) :=
  inferInstanceAs (Decidable (∀ p ∈ a.preorder.zip b.preorder, _))

theorem length_preorder_bare (n : Node) : n.bare.preorder.length = n.preorder.length := by
  induction n using Node.induction with
  | step n ih =>
    have hchildren : n.children.map (fun c => c.bare.preorder.length) =
        n.children.map fun c => c.preorder.length := List.map_congr_left ih
    rw [preorder_eq, preorder_eq n, List.length_cons, List.length_cons, List.length_flatMap,
      List.length_flatMap, ← hchildren, bare_eq]
    simp [children, ofForm, Function.comp_def]

theorem length_preorder_eq (h : a.bare = b.bare) : a.preorder.length = b.preorder.length := by
  rw [← length_preorder_bare a, h, length_preorder_bare]

theorem map_eq_of_zip_preorder {q : Node × Node → Prop} {f : Node → Node} {as bs : List Node}
    (h : as.map bare = bs.map bare)
    (hf : ∀ a ∈ as, ∀ b, a.bare = b.bare → (∀ p ∈ a.preorder.zip b.preorder, q p) → f a = f b)
    (hq : ∀ p ∈ (as.flatMap preorder).zip (bs.flatMap preorder), q p) : as.map f = bs.map f := by
  induction as generalizing bs with
  | nil =>
    obtain rfl : bs = [] := by simpa using h.symm
    rfl
  | cons a as ih =>
    obtain ⟨b, bs, rfl⟩ : ∃ b bs', bs = b :: bs' := by
      cases bs with
      | nil => simp at h
      | cons b bs => exact ⟨b, bs, rfl⟩
    simp only [List.map_cons, List.cons.injEq] at h
    rw [List.flatMap_cons, List.flatMap_cons, List.zip_append (length_preorder_eq h.1)] at hq
    simp only [List.map_cons, List.cons.injEq]
    constructor
    · exact hf a List.mem_cons_self b h.1 fun p hp => hq p (List.mem_append_left _ hp)
    · exact ih h.2 (fun x hx => hf x (List.mem_cons_of_mem a hx))
        fun p hp => hq p (List.mem_append_right _ hp)

theorem outline_eq_of_sameMarks (guarded : Bool) (h : a.bare = b.bare) (hmarks : a.SameMarks b) :
    a.outline guarded = b.outline guarded := by
  induction a using Node.induction generalizing b with
  | step a ih =>
    have hforms : a.form.map bare = b.form.map bare := by
      rw [bare_eq, bare_eq b] at h
      exact congrArg Node.form h
    unfold SameMarks at hmarks
    rw [preorder_eq, preorder_eq b, List.zip_cons_cons, List.forall_mem_cons] at hmarks
    have hmark : a.mark guarded = b.mark guarded := by
      unfold mark
      rw [← kind_eq_of_bare_eq h]
      by_cases hkind : a.kind = .functionDeclaration
      · rw [hmarks.1 hkind]
      · simp [hkind]
    have hchildren : a.children.map (outline guarded) = b.children.map (outline guarded) := by
      refine map_eq_of_zip_preorder ?_ (fun c hc d hcd => ih c hc hcd) hmarks.2
      have := congrArg Form.children hforms
      rwa [Form.children_map, Form.children_map] at this
    have hshape : a.form.shape = b.form.shape := by
      rw [← Form.shape_map bare a.form, hforms, Form.shape_map]
    rw [outline_eq, outline_eq guarded b, hmark]
    congr 1
    apply Form.ext
    · rw [Form.shape_map, Form.shape_map, hshape]
    · rw [Form.children_map, Form.children_map]
      exact hchildren

end Node

theorem Pass.bare_traceFile_eq (file file' : String) {a b : Node} (h : a.bare = b.bare) :
    (traceFile ⟨false⟩ file a).value.bare = (traceFile ⟨false⟩ file' b).value.bare ∧
      (a.SameMarks b →
        (traceFile ⟨true⟩ file a).value.bare = (traceFile ⟨true⟩ file' b).value.bare) := by
  constructor
  · apply Setting.bare_traced_eq (s := ⟨file, ⟨false⟩⟩) (t := ⟨file', ⟨false⟩⟩) rfl
    rw [Node.outline_false, Node.outline_false, h]
  · intro hmarks
    exact Setting.bare_traced_eq (s := ⟨file, ⟨true⟩⟩) (t := ⟨file', ⟨true⟩⟩) rfl
      (Node.outline_eq_of_sameMarks true h hmarks)

/-- The tree as if read from one place of a source, with one more comment at every node. -/
def Node.annotated (n : Node) : Node :=
  n.fold fun own form => ⟨form, ⟨3, 8, 1, 4⟩, ⟨.line, " note"⟩ :: own.comments⟩

theorem Pass.bare_traceFile_annotated :
    Node.repeatedLabels.bare = Node.repeatedLabels.annotated.bare ∧
      Node.repeatedLabels.SameMarks Node.repeatedLabels.annotated ∧
      (traceFile ⟨false⟩ "unit.ts" Node.repeatedLabels).value.bare =
        (traceFile ⟨false⟩ "unit.ts" Node.repeatedLabels.annotated).value.bare ∧
      (traceFile ⟨true⟩ "unit.ts" Node.repeatedLabels).value.bare =
        (traceFile ⟨true⟩ "unit.ts" Node.repeatedLabels.annotated).value.bare :=
  have h : Node.repeatedLabels.bare = Node.repeatedLabels.annotated.bare := by decide
  have hmarks : Node.repeatedLabels.SameMarks Node.repeatedLabels.annotated := by decide
  have htraced := bare_traceFile_eq "unit.ts" "unit.ts" h
  ⟨h, hmarks, htraced.1, htraced.2 hmarks⟩

end EntryTrace
