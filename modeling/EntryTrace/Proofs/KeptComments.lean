import EntryTrace.Proofs.Census

/-!
# What becomes of comments

The pass keeps every comment of every node that it keeps. With the labeled statement of a request the
comments that lead it go too. A request adds the marker, and each copy of the log statement adds the
comments that lead the parameter names it takes over. So for every comment the result can be counted:
what it has and what was lost make up what there was and what was added.
-/

namespace EntryTrace

set_option autoImplicit false

theorem perm_flatMap_append {α β : Type} {f g k l : α → List β} {as : List α}
    (h : ∀ a ∈ as, (f a ++ g a).Perm (k a ++ l a)) :
    (as.flatMap f ++ as.flatMap g).Perm (as.flatMap k ++ as.flatMap l) :=
  (List.flatMap_append_perm as f g).trans
    ((List.Perm.flatMap_left as h).trans (List.flatMap_append_perm as k l).symm)

namespace Node

variable {β : Type} {n : Node} {d : Definition} {guarded : Bool}

theorem flatMap_preorder (f : Node → List β) (n : Node) :
    n.preorder.flatMap f = f n ++ n.children.flatMap fun c => c.preorder.flatMap f := by
  rw [preorder_eq, List.flatMap_cons, List.flatMap_assoc]

/-- The comments at all nodes of the tree. -/
def allComments (n : Node) : List Comment := n.preorder.flatMap comments

/-- The comments that lead the labeled statements of requests. -/
def lostComments (guarded : Bool) (n : Node) : List Comment :=
  n.preorder.flatMap fun m => if (m.request? guarded).isSome then m.comments else []

/-- Whether the label of a labeled statement is an identifier that no comment leads. -/
def hasBareLabel (n : Node) : Bool :=
  match n.form with
  | .labeledStatement label _ => label.kind == .identifier && label.comments.isEmpty
  | _ => true

theorem allComments_eq (n : Node) :
    n.allComments = n.comments ++ n.children.flatMap allComments :=
  flatMap_preorder comments n

theorem allComments_ofForm (form : Form Node) :
    (ofForm form).allComments = form.children.flatMap allComments :=
  allComments_eq (ofForm form)

theorem allComments_of_kind_identifier (h : n.kind = .identifier) : n.allComments = n.comments := by
  rw [allComments_eq, children_of_kind_identifier h]
  exact List.append_nil _

theorem allComments_identifier (text : String) : (identifier text).allComments = [] :=
  allComments_of_kind_identifier rfl

theorem allComments_mapChildren (f : Node → Node) (n : Node) :
    (n.mapChildren f).allComments = n.comments ++ n.children.flatMap fun c => (f c).allComments := by
  rw [allComments_eq, children_mapChildren, List.flatMap_map]
  rfl

theorem lostComments_of_none (h : n.request? guarded = none) :
    n.lostComments guarded = n.children.flatMap (lostComments guarded) := by
  unfold lostComments
  rw [flatMap_preorder, h]
  rfl

/-- The nodes of a request: the labeled statement, its label, and the definition with its parts. -/
theorem flatMap_preorder_of_request (f : Node → List β) (h : n.request? guarded = some d)
    (hlabel : n.hasBareLabel = true) :
    ∃ label : Node, label.kind = .identifier ∧ label.comments = [] ∧
      n.preorder.flatMap f =
        f n ++ (f label ++ (f d.toNode ++ d.toNode.children.flatMap fun c =>
          c.preorder.flatMap f)) := by
  rcases n with ⟨form, span, comments⟩
  obtain ⟨label, rfl⟩ := exists_label_of_request h
  simp only [hasBareLabel, Bool.and_eq_true, beq_iff_eq, List.isEmpty_iff] at hlabel
  refine ⟨label, hlabel.1, hlabel.2, ?_⟩
  have hown : label.preorder.flatMap f = f label := by
    rw [flatMap_preorder, children_of_kind_identifier hlabel.1]
    exact List.append_nil _
  rw [flatMap_preorder, ← flatMap_preorder f d.toNode]
  simp [children, Form.children, hown]

theorem allComments_of_request (h : n.request? guarded = some d) (hlabel : n.hasBareLabel = true) :
    n.allComments = n.comments ++ d.toNode.allComments := by
  obtain ⟨label, -, hcomments, hnodes⟩ := flatMap_preorder_of_request comments h hlabel
  rw [allComments, hnodes, hcomments, allComments_eq]
  rfl

theorem lostComments_of_request (h : n.request? guarded = some d) (hlabel : n.hasBareLabel = true) :
    n.lostComments guarded = n.comments ++ d.toNode.children.flatMap (lostComments guarded) := by
  obtain ⟨label, hkind, -, hnodes⟩ := flatMap_preorder_of_request
    (fun m => if (m.request? guarded).isSome then m.comments else []) h hlabel
  have hother : label.request? guarded = none := request?_of_plain (by rw [hkind]; rfl)
  rw [lostComments, hnodes, h, hother]
  rfl

end Node

/-! ### What a request adds -/

/-- The comments of the log statement are those of the names it takes over. -/
theorem EntryRecord.allComments_statement (record : EntryRecord) :
    record.statement.allComments = record.arguments.flatMap Node.allComments := by
  have harguments : (record.arguments.map fun a => Node.ofForm (.shorthandProperty a)).flatMap
      Node.allComments = record.arguments.flatMap Node.allComments := by
    rw [List.flatMap_map]
    simp [Node.allComments_ofForm, Form.children]
  have hname : (Sketch.textOrNull record.function).toNode.allComments = [] := by
    cases record.function <;> rfl
  simp only [statement, logging, content, Sketch.memberOf, Sketch.toNode, Sketch.toNodes,
    Sketch.fieldNodes, Sketch.fieldNode, Sketch.fieldNodes_shorthand, Node.allComments_ofForm,
    Node.allComments_identifier, Form.children, List.flatMap_cons, List.flatMap_nil, harguments,
    hname, List.nil_append, List.append_nil]

namespace Definition

/-- The comments that tracing the definition adds: the marker, and for each part that is a block the
comments that lead the names of the plain parameters. -/
def addedComments (d : Definition) : List Comment :=
  marker :: d.toNode.children.flatMap fun c =>
    if c.kind = .block then d.record.arguments.flatMap Node.comments else []

theorem allComments_enclose (d : Definition) (n : Node) :
    (d.record.enclose n).allComments =
      (if n.kind = .block then d.record.arguments.flatMap Node.comments else []) ++
        n.allComments := by
  have harguments : d.record.arguments.flatMap Node.allComments =
      d.record.arguments.flatMap Node.comments := by
    apply List.flatMap_congr
    intro a ha
    exact Node.allComments_of_kind_identifier (kind_of_mem_plainParameters ha)
  unfold EntryRecord.enclose
  split
  · simp only [Node.block, Node.allComments_ofForm, Form.children, List.flatMap_cons,
      List.flatMap_nil, EntryRecord.allComments_statement, harguments, List.append_nil]
  · rfl

end Definition

/-- The comments that tracing all requests adds. -/
def Node.addedComments (guarded : Bool) (n : Node) : List Comment :=
  (n.requests guarded).flatMap Definition.addedComments

namespace Node

variable {n : Node} {d : Definition} {guarded : Bool}

theorem addedComments_of_none (h : n.request? guarded = none) :
    n.addedComments guarded = n.children.flatMap (addedComments guarded) := by
  unfold addedComments requests
  rw [filterMap_preorder, h, Option.toList_none, List.nil_append, List.flatMap_assoc]

theorem addedComments_of_request (h : n.request? guarded = some d)
    (hlabel : n.hasPlainLabel = true) :
    n.addedComments guarded =
      d.addedComments ++ d.toNode.children.flatMap (addedComments guarded) := by
  unfold addedComments requests
  rw [filterMap_preorder_of_request (fun _ hm => request?_of_kind_ne hm) h hlabel, h,
    Option.toList_some, List.singleton_append, List.flatMap_cons, List.flatMap_assoc]

theorem hasPlainLabel_of_hasBareLabel (h : n.hasBareLabel = true) : n.hasPlainLabel = true := by
  rcases n with ⟨form, span, comments⟩
  cases form with
  | labeledStatement label statement => exact (Bool.and_eq_true_iff.mp h).1
  | _ => rfl

end Node

/-! ### The pass -/

namespace Setting

variable {s : Setting} {n : Node}

/-- No comment appears or disappears unaccounted for. -/
theorem perm_allComments_traced (h : n.Everywhere fun m => m.hasBareLabel = true) :
    ((s.traced n).allComments ++ n.lostComments s.config.skipMarked).Perm
      (n.allComments ++ n.addedComments s.config.skipMarked) := by
  induction n using Node.request_induction s.config.skipMarked with
  | kept n hrequest ih =>
    have hchildren := perm_flatMap_append fun c hc => ih c hc (h.child hc)
    rw [traced_of_none hrequest, Node.allComments_mapChildren, Node.lostComments_of_none hrequest,
      Node.addedComments_of_none hrequest, Node.allComments_eq, List.append_assoc,
      List.append_assoc]
    exact hchildren.append_left n.comments
  | requested n d hrequest ih =>
    have hparts := perm_flatMap_append fun c hc => ih c hc ((h.definition hrequest).child hc)
    -- the new bodies come with comments of their own
    have hbodies : (d.toNode.children.flatMap fun c => (d.record.enclose (s.traced c)).allComments)
        |>.Perm ((d.toNode.children.flatMap fun c =>
          if c.kind = .block then d.record.arguments.flatMap Node.comments else []) ++
            d.toNode.children.flatMap fun c => (s.traced c).allComments) := by
      simp only [Definition.allComments_enclose, kind_traced_eq_block_iff]
      exact (List.flatMap_append_perm _ _ _).symm
    have hresult : (s.traced n).allComments = d.comments ++ [marker] ++
        d.toNode.children.flatMap fun c => (d.record.enclose (s.traced c)).allComments := by
      rw [traced_of_request hrequest, Node.allComments_mapChildren]
      rfl
    have hdefinition : d.toNode.allComments =
        d.comments ++ d.toNode.children.flatMap Node.allComments := Node.allComments_eq d.toNode
    have hplain := Node.hasPlainLabel_of_hasBareLabel h.root
    rw [hresult, Node.lostComments_of_request hrequest h.root,
      Node.allComments_of_request hrequest h.root, hdefinition,
      Node.addedComments_of_request hrequest hplain, Definition.addedComments]
    rw [List.perm_iff_count] at hparts hbodies ⊢
    intro x
    have hx := hparts x
    have hbody := hbodies x
    simp only [List.count_append, List.count_cons, List.count_nil] at hx hbody ⊢
    omega

end Setting

/-- Comments are kept exactly when every comment that is lost with a label is made up for by one that
is added; in particular when no comment leads the labeled statement of a request. -/
theorem Pass.count_allComments_traceFile (config : Config) (file : String) {n : Node}
    (h : n.Everywhere fun m => m.hasBareLabel = true) :
    let result := (traceFile config file n).value
    (∀ c, result.allComments.count c + (n.lostComments config.skipMarked).count c =
        n.allComments.count c + (n.addedComments config.skipMarked).count c) ∧
      ((∀ c, n.allComments.count c ≤ result.allComments.count c) ↔
        ∀ c, (n.lostComments config.skipMarked).count c ≤
          (n.addedComments config.skipMarked).count c) := by
  intro result
  have hcount : ∀ c, result.allComments.count c + (n.lostComments config.skipMarked).count c =
      n.allComments.count c + (n.addedComments config.skipMarked).count c := by
    intro c
    have hperm := (Setting.perm_allComments_traced (s := ⟨file, config⟩) h).count_eq c
    rwa [List.count_append, List.count_append] at hperm
  refine ⟨hcount, forall_congr' ?_⟩
  intro c
  have hc := hcount c
  omega

/-- Comments on a labeled loop, on a labeled function, on the name of its parameter and in its body. -/
def Node.commentedParts : Node :=
  let name : Node := (Node.identifier "a").addComment ⟨.block, "argument"⟩
  let returned : Node := (Node.ofForm (.returnStatement none)).addComment ⟨.line, " done"⟩
  let loop : Node := .ofForm (.whileStatement (.identifier "a") (.block []))
  .ofForm (.sourceFile [(Node.labeled "b" loop).addComment ⟨.line, " loop"⟩,
    .labeled "c" ((Node.function (some "f") [.ofForm (.parameter name none)]
      (some (.block [returned]))).addComment ⟨.block, "pure"⟩)])

theorem Pass.count_allComments_commentedParts :
    let result := (traceFile ⟨true⟩ "unit.ts" Node.commentedParts).value
    (Node.commentedParts.Everywhere fun m => m.hasBareLabel = true) ∧
      (∀ c, Node.commentedParts.allComments.count c ≤ result.allComments.count c) ∧
      result.allComments.count ⟨.line, " loop"⟩ = 1 ∧ result.allComments.count marker = 1 ∧
      result.allComments.count ⟨.block, "argument"⟩ = 2 := by
  intro result
  have h : Node.commentedParts.Everywhere fun m => m.hasBareLabel = true := by decide
  have hlost : Node.commentedParts.lostComments true = [] := by decide
  obtain ⟨hcount, hkept⟩ := count_allComments_traceFile ⟨true⟩ "unit.ts" h
  dsimp only at hcount hkept
  rw [hlost] at hcount hkept
  refine ⟨h, hkept.mpr fun c => Nat.zero_le _, ?_, ?_, ?_⟩
  · exact (hcount ⟨.line, " loop"⟩).trans (by decide)
  · exact (hcount marker).trans (by decide)
  · exact (hcount ⟨.block, "argument"⟩).trans (by decide)

/-- A request whose labeled statement a comment leads. -/
def Node.commentedRequest : Node :=
  (Node.labeled "outer" (.function (some "f") [] (some (.block [])))).addComment
    ⟨.block, "entry point"⟩

theorem Pass.count_allComments_commentedRequest :
    (Node.commentedRequest.Everywhere fun m => m.hasBareLabel = true) ∧
      Node.commentedRequest.allComments.count ⟨.block, "entry point"⟩ = 1 ∧
      (traceFile ⟨false⟩ "unit.ts" Node.commentedRequest).value.allComments.count
        ⟨.block, "entry point"⟩ = 0 := by
  have h : Node.commentedRequest.Everywhere fun m => m.hasBareLabel = true := by decide
  have hthere : Node.commentedRequest.allComments.count ⟨.block, "entry point"⟩ = 1 := by decide
  have hlost : (Node.commentedRequest.lostComments false).count ⟨.block, "entry point"⟩ = 1 := by
    decide
  have hadded : (Node.commentedRequest.addedComments false).count ⟨.block, "entry point"⟩ = 0 := by
    decide
  have hperm := (Setting.perm_allComments_traced (s := ⟨"unit.ts", ⟨false⟩⟩) h).count_eq
    ⟨.block, "entry point"⟩
  rw [List.count_append, List.count_append, hthere, hlost, hadded] at hperm
  exact ⟨h, hthere, Nat.succ.inj hperm⟩

end EntryTrace
