import EntryTrace.Proofs.FixedPoint
import EntryTrace.Proofs.Jumps
import EntryTrace.Proofs.WalkTrace
import Mathlib.Data.List.Basic

/-!
# What is read off the labels

A list that has items of its own only at labeled statements and takes the rest from the children
does not see the log statements, nor that a body was put into a block. The names of the labels, as
a walk collects them, are such a list: the pass takes the names of the requests out of it and keeps
the others as they stand.
-/

namespace EntryTrace

set_option autoImplicit false

theorem Definition.kind_toNode_ne (d : Definition) : d.toNode.kind ≠ .labeledStatement := by
  intro h
  simp [toNode, Node.kind, Form.kind] at h

namespace Node

variable {β : Type} {n : Node} {d : Definition} {guarded : Bool}

/-- Only labeled statements have items of their own; at all other nodes the items are those of the
children. -/
def ReadsLabels (items : Node → List β) : Prop :=
  ∀ n : Node, n.kind ≠ .labeledStatement → items n = n.children.flatMap items

namespace ReadsLabels

variable {items : Node → List β}

theorem eq_nil (h : ReadsLabels items) (hn : n.Everywhere fun m => m.kind ≠ .labeledStatement) :
    items n = [] := by
  induction n using Node.induction with
  | step n ih =>
    rw [h n hn.root, List.flatMap_eq_nil_iff]
    intro c hc
    exact ih c hc (hn.child hc)

theorem identifier (h : ReadsLabels items) (hn : n.kind = .identifier) : items n = [] := by
  apply h.eq_nil
  rw [everywhere_of_kind_identifier hn, hn]
  decide

theorem statement (h : ReadsLabels items) (d : Definition) : items d.record.statement = [] := by
  refine h.eq_nil (d.everywhere_statement ?_)
  intro m hm hkind
  rw [hkind] at hm
  exact absurd hm Bool.false_ne_true

/-- A body in a block behind the log statement has the items that it had before. -/
theorem enclose (h : ReadsLabels items) (d : Definition) (n : Node) :
    items (d.record.enclose n) = items n := by
  unfold EntryRecord.enclose
  split
  · rw [h (.block _) (show Kind.block ≠ .labeledStatement by decide)]
    simp [Node.block, Node.ofForm, Node.children, Form.children, h.statement]
  · rfl

theorem definition (h : ReadsLabels items) (d : Definition) :
    items d.toNode = d.toNode.children.flatMap items :=
  h d.toNode d.kind_toNode_ne

/-- The function that stands where a request stood has the items of the parts of the definition. -/
theorem traced (h : ReadsLabels items) {s : Setting}
    (hrequest : n.request? s.config.skipMarked = some d) :
    items (s.traced n) = d.toNode.children.flatMap fun c => items (s.traced c) := by
  have hkind : (s.traced n).kind ≠ .labeledStatement := by
    rw [Setting.kind_traced, hrequest]
    exact d.kind_toNode_ne
  rw [h _ hkind, Setting.traced_of_request hrequest, children_mapChildren, List.flatMap_map]
  apply List.flatMap_congr
  intro c _
  exact h.enclose d (s.traced c)

end ReadsLabels

theorem filterMap_preorder (f : Node → Option β) (n : Node) :
    n.preorder.filterMap f =
      (f n).toList ++ n.children.flatMap fun c => c.preorder.filterMap f := by
  rw [preorder_eq, List.filterMap_cons, List.filterMap_flatMap]
  cases f n <;> rfl

theorem readsLabels_filterMap {f : Node → Option β}
    (hf : ∀ m : Node, m.kind ≠ .labeledStatement → f m = none) :
    ReadsLabels fun n => n.preorder.filterMap f := by
  intro n hn
  dsimp only
  rw [filterMap_preorder, hf n hn]
  rfl

/-- Below a request, items stand in the parts of the definition only. -/
theorem filterMap_preorder_of_request {f : Node → Option β}
    (hf : ∀ m : Node, m.kind ≠ .labeledStatement → f m = none)
    (h : n.request? guarded = some d) (hlabel : n.hasPlainLabel = true) :
    n.preorder.filterMap f =
      (f n).toList ++ d.toNode.children.flatMap fun c => c.preorder.filterMap f := by
  have hreads := readsLabels_filterMap hf
  rcases n with ⟨form, span, comments⟩
  obtain ⟨label, rfl⟩ := exists_label_of_request h
  have hidentifier : label.preorder.filterMap f = [] := hreads.identifier (beq_iff_eq.mp hlabel)
  have hdefinition : d.toNode.preorder.filterMap f =
      d.toNode.children.flatMap fun c => c.preorder.filterMap f := hreads.definition d
  rw [filterMap_preorder, ← hdefinition]
  simp [children, Form.children, hidentifier]

theorem request?_of_kind_ne (h : n.kind ≠ .labeledStatement) : n.request? guarded = none := by
  cases hrequest : n.request? guarded with
  | none => rfl
  | some d => exact absurd (kind_of_request hrequest) h

theorem labelName?_of_kind_ne (h : n.kind ≠ .labeledStatement) : n.labelName? = none := by
  unfold labelName?
  split
  · rename_i hform
    exact absurd (by rw [kind, hform]; rfl) h
  · rfl

/-- The label of a labeled statement that is no request. -/
def keptLabel? (guarded : Bool) (n : Node) : Option String :=
  if (n.request? guarded).isNone then n.labelName? else none

theorem keptLabel?_of_kind_ne (h : n.kind ≠ .labeledStatement) : n.keptLabel? guarded = none := by
  unfold keptLabel?
  rw [labelName?_of_kind_ne h, ite_self]

end Node

theorem Setting.labelNames_traced {s : Setting} {n : Node}
    (h : n.Everywhere fun m => m.hasPlainLabel = true) :
    (s.traced n).labelNames = n.preorder.filterMap (Node.keptLabel? s.config.skipMarked) := by
  have hreads : Node.ReadsLabels Node.labelNames :=
    Node.readsLabels_filterMap fun _ hm => Node.labelName?_of_kind_ne hm
  induction n using Node.request_induction s.config.skipMarked with
  | kept n hrequest ih =>
    have hown : n.keptLabel? s.config.skipMarked = n.labelName? := by
      simp [Node.keptLabel?, hrequest]
    rw [traced_of_none hrequest, Node.labelNames, Node.filterMap_preorder,
      labelName?_mapChildren_traced, Node.children_mapChildren, List.flatMap_map,
      Node.filterMap_preorder (Node.keptLabel? _) n, hown]
    congr 1
    apply List.flatMap_congr
    intro c hc
    exact ih c hc (h.child hc)
  | requested n d hrequest ih =>
    have hown : n.keptLabel? s.config.skipMarked = none := by
      simp [Node.keptLabel?, hrequest]
    rw [hreads.traced hrequest, Node.filterMap_preorder_of_request
      (fun _ hm => Node.keptLabel?_of_kind_ne hm) hrequest h.root, hown]
    apply List.flatMap_congr
    intro c hc
    exact ih c hc ((h.definition hrequest).child hc)

theorem Pass.labelNames_traceFile (config : Config) (file : String) {n : Node}
    (h : n.Everywhere fun m => m.hasPlainLabel = true) :
    (traceFile config file n).value.labelNames =
      (n.preorder.filter fun m => (m.request? config.skipMarked).isNone).filterMap
        Node.labelName? ∧
    Visitor.labelCollector.walk (traceFile config file n).value [] =
      (n.preorder.filter fun m => (m.request? config.skipMarked).isNone).filterMap
        Node.labelName? ∧
    Visitor.labelCollector.walk n [] = n.preorder.filterMap Node.labelName? := by
  have hlabels : (traceFile config file n).value.labelNames =
      (n.preorder.filter fun m => (m.request? config.skipMarked).isNone).filterMap
        Node.labelName? := by
    rw [List.filterMap_filter]
    exact Setting.labelNames_traced (s := ⟨file, config⟩) h
  refine ⟨hlabels, ?_, Visitor.walk_labelCollector n⟩
  rw [Visitor.walk_labelCollector, hlabels]

/-- Labels of the same name on a function and inside it, on a marked function and on one without a
body. -/
def Node.repeatedLabels : Node :=
  .ofForm (.sourceFile [
    .labeled "a" (.labeled "a" (.function (some "f")
      [.ofForm (.parameter (.identifier "x") none),
        .ofForm (.parameter (.ofForm (.objectBindingPattern [.identifier "y"])) none)]
      (some (.block [
        .labeled "a" (.function none [] (some (.block []))),
        .labeled "b" (.ofForm .emptyStatement)])))),
    .labeled "b" ((Node.function (some "g") [] (some (.block []))).addComment marker),
    .labeled "a" (.function (some "h") [] none)])

theorem Pass.labelNames_repeatedLabels :
    (Node.repeatedLabels.Everywhere fun m => m.hasPlainLabel = true) ∧
      Node.repeatedLabels.labelNames = ["a", "a", "a", "b", "b", "a"] ∧
      (traceFile ⟨true⟩ "unit.ts" Node.repeatedLabels).value.labelNames = ["a", "b", "b", "a"] ∧
      Visitor.labelCollector.walk (traceFile ⟨true⟩ "unit.ts" Node.repeatedLabels).value [] =
        ["a", "b", "b", "a"] :=
  have h : Node.repeatedLabels.Everywhere fun m => m.hasPlainLabel = true := by decide
  have hlabels := labelNames_traceFile ⟨true⟩ "unit.ts" h
  ⟨h, by decide, hlabels.1.trans (by decide), hlabels.2.1.trans (by decide)⟩

end EntryTrace
