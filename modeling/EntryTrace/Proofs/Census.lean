import EntryTrace.Proofs.Labels
import Mathlib.Algebra.BigOperators.Group.List.Lemmas
import Mathlib.Tactic.Ring

/-!
# Counting nodes

Give every kind of node a value. The total of the values over a tree is what its root and its
children contribute, so the pass changes it only where a request stands: the labeled statement and
its label go, and a block and the log statement come. Counts of single kinds and the number of all
nodes are such totals, and they are what a counter reports that walks over the tree.
-/

namespace EntryTrace

set_option autoImplicit false

theorem sum_map_flatMap {α β : Type} (f : β → Int) (g : α → List β) (as : List α) :
    ((as.flatMap g).map f).sum = (as.map fun a => ((g a).map f).sum).sum := by
  rw [List.map_flatMap, List.flatMap_def, List.sum_flatten, List.map_map]
  rfl

namespace Node

variable {value : Kind → Int} {n : Node}

/-- The values of the kinds of all nodes, added up. -/
def total (value : Kind → Int) (n : Node) : Int := (n.preorder.map fun m => value m.kind).sum

theorem total_eq (value : Kind → Int) (n : Node) :
    n.total value = value n.kind + (n.children.map (total value)).sum := by
  unfold total
  rw [preorder_eq, List.map_cons, List.sum_cons, sum_map_flatMap]

theorem count_eq_total (kind : Kind) (n : Node) :
    (n.count kind : Int) = n.total fun k => if k = kind then 1 else 0 := by
  unfold count total
  induction n.preorder with
  | nil => rfl
  | cons m ms ih =>
    rw [List.countP_cons, List.map_cons, List.sum_cons, ← ih]
    by_cases h : m.kind = kind <;> simp [h, Int.add_comm]

theorem size_eq_total (n : Node) : (n.size : Int) = n.total fun _ => 1 := by
  simp [size, total]

theorem total_of_kind_identifier (h : n.kind = .identifier) : n.total value = value .identifier := by
  rw [total_eq, children_of_kind_identifier h, h]
  simp

theorem total_identifier (text : String) : (identifier text).total value = value .identifier :=
  total_of_kind_identifier rfl

theorem total_ofForm (form : Form Node) :
    (ofForm form).total value = value form.kind + (form.children.map (total value)).sum :=
  total_eq value (ofForm form)

theorem total_mapChildren {f : Node → Node} {gain : Node → Int}
    (h : ∀ c ∈ n.children, (f c).total value = c.total value + gain c) :
    (n.mapChildren f).total value = n.total value + (n.children.map gain).sum := by
  have hchildren : ((n.mapChildren f).children.map (total value)).sum =
      (n.children.map (total value)).sum + (n.children.map gain).sum := by
    rw [children_mapChildren, List.map_map, ← List.sum_map_add]
    exact congrArg List.sum (List.map_congr_left h)
  rw [total_eq, hchildren, kind_mapChildren, total_eq value n]
  ring

end Node

/-! ### What a request adds -/

namespace EntryRecord

variable {value : Kind → Int}

theorem total_textOrNull (text : Option String) :
    (Sketch.textOrNull text).toNode.total value =
      if text.isSome then value .stringLiteral else value .nullLiteral := by
  cases text <;>
    simp [Sketch.textOrNull, Sketch.toNode, Node.total_ofForm, Form.kind, Form.children]

theorem total_shorthands {names : List Node} (h : ∀ a ∈ names, a.kind = .identifier) :
    ((names.map fun a => Node.ofForm (.shorthandProperty a)).map (Node.total value)).sum =
      names.length * (value .shorthandProperty + value .identifier) := by
  induction names with
  | nil => simp
  | cons a names ih =>
    have hname : a.total value = value .identifier :=
      Node.total_of_kind_identifier (h a List.mem_cons_self)
    have hothers := ih fun b hb => h b (List.mem_cons_of_mem a hb)
    simp only [List.map_cons, List.sum_cons, hothers, Node.total_ofForm, Form.kind, Form.children,
      List.map_nil, List.sum_nil, hname, List.length_cons]
    push_cast
    ring

theorem total_statement {record : EntryRecord} (h : ∀ a ∈ record.arguments, a.kind = .identifier) :
    record.statement.total value =
      value .expressionStatement + 2 * value .callExpression + 2 * value .propertyAccess +
        2 * value .objectLiteral + 4 * value .propertyAssignment + 8 * value .identifier +
        2 * value .stringLiteral +
        (if record.function.isSome then value .stringLiteral else value .nullLiteral) +
        record.arguments.length * (value .shorthandProperty + value .identifier) := by
  simp only [statement, logging, content, Sketch.memberOf, Sketch.toNode, Sketch.toNodes,
    Sketch.fieldNodes, Sketch.fieldNode, Sketch.fieldNodes_shorthand, Node.total_ofForm,
    Node.total_identifier, total_textOrNull, total_shorthands h, Form.kind, Form.children,
    List.map_cons, List.map_nil, List.sum_cons, List.sum_nil]
  ring

end EntryRecord

namespace Definition

variable {value : Kind → Int} {d : Definition}

/-- The number of parameters that have a plain name. -/
def plainCount (d : Definition) : Nat := d.parameters.countP Node.hasPlainName

/-- How many nodes of each kind tracing the definition adds in place of its labeled statement. -/
def growth (d : Definition) : Kind → Int
  | .labeledStatement => -1
  | .identifier => 7 + d.plainCount
  | .block => 1
  | .expressionStatement => 1
  | .callExpression => 2
  | .propertyAccess => 2
  | .objectLiteral => 2
  | .propertyAssignment => 4
  | .shorthandProperty => d.plainCount
  | .stringLiteral => if d.name.isSome then 3 else 2
  | .nullLiteral => if d.name.isSome then 0 else 1
  | _ => 0

/-- The value of all that is added. -/
def gain (d : Definition) (value : Kind → Int) : Int :=
  (Kind.all.map fun kind => d.growth kind * value kind).sum

theorem gain_count (d : Definition) (kind : Kind) :
    (d.gain fun k => if k = kind then 1 else 0) = d.growth kind := by
  cases kind <;> simp [gain, Kind.all]

theorem gain_size (d : Definition) : (d.gain fun _ => 1) = 21 + 2 * d.plainCount := by
  simp only [gain, Kind.all, growth, List.map_cons, List.map_nil, List.sum_cons, List.sum_nil]
  split <;> ring

theorem isSome_function (hd : d.Regular) : d.record.function.isSome = d.name.isSome := by
  unfold record
  cases h : d.name with
  | none => rfl
  | some a =>
    have hkind : a.kind = .identifier := hd.name a h
    rcases a with ⟨form, span, comments⟩
    cases form with
    | identifier => rfl
    | _ => simp [Node.kind, Form.kind] at hkind

theorem gain_eq (value : Kind → Int) (hd : d.Regular) :
    d.gain value + value .labeledStatement + value .identifier =
      value .block + d.record.statement.total value := by
  have hcount : d.record.arguments.length = d.plainCount := length_plainParameters d.parameters
  have harguments : ∀ a ∈ d.record.arguments, a.kind = .identifier :=
    fun a ha => kind_of_mem_plainParameters ha
  rw [EntryRecord.total_statement harguments, isSome_function hd, hcount]
  simp only [gain, Kind.all, growth, List.map_cons, List.map_nil, List.sum_cons, List.sum_nil]
  split <;> ring

theorem total_withLog (record : EntryRecord) (d : Definition) :
    (d.withLog record).toNode.total value =
      d.toNode.total value + value .block + record.statement.total value := by
  rw [Node.total_eq, Node.total_eq value d.toNode]
  simp only [withLog, toNode, Node.kind, Node.children, Form.kind, Form.children, Node.block,
    Node.total_ofForm, Option.toList_some, List.map_append, List.sum_append, List.map_cons,
    List.map_nil, List.sum_cons, List.sum_nil]
  ring

end Definition

/-! ### The pass -/

namespace Node

variable {value : Kind → Int} {guarded : Bool} {n : Node} {d : Definition}

/-- The definitions in the tree that labels ask to be traced, outer ones before those inside them. -/
def requests (guarded : Bool) (n : Node) : List Definition :=
  n.preorder.filterMap (request? guarded)

/-- What the pass adds to the total. -/
def gain (value : Kind → Int) (guarded : Bool) (n : Node) : Int :=
  ((n.requests guarded).map fun d => d.gain value).sum

theorem gain_of_none (h : n.request? guarded = none) :
    n.gain value guarded = (n.children.map (gain value guarded)).sum := by
  unfold gain requests
  rw [filterMap_preorder, h, Option.toList_none, List.nil_append, sum_map_flatMap]

theorem gain_of_request (h : n.request? guarded = some d) (hlabel : n.hasPlainLabel = true) :
    n.gain value guarded =
      d.gain value + (d.toNode.children.map (gain value guarded)).sum := by
  unfold gain requests
  rw [filterMap_preorder_of_request (fun _ hm => request?_of_kind_ne hm) h hlabel, h,
    Option.toList_some, List.singleton_append, List.map_cons, List.sum_cons, sum_map_flatMap]

theorem total_of_request (h : n.request? guarded = some d) (hlabel : n.hasPlainLabel = true) :
    n.total value = value .labeledStatement + value .identifier + d.toNode.total value := by
  rcases n with ⟨form, span, comments⟩
  obtain ⟨label, rfl⟩ := exists_label_of_request h
  have hidentifier : label.total value = value .identifier :=
    total_of_kind_identifier (beq_iff_eq.mp hlabel)
  rw [total_eq]
  simp only [kind, children, Form.kind, Form.children, List.map_cons, List.map_nil, List.sum_cons,
    List.sum_nil, hidentifier]
  ring

end Node

theorem Setting.total_traced {s : Setting} {value : Kind → Int} {n : Node}
    (hlabels : n.Everywhere fun m => m.hasPlainLabel = true)
    (hregular : n.Everywhere fun m => m.isRegular = true) :
    (s.traced n).total value = n.total value + n.gain value s.config.skipMarked := by
  induction n using Node.request_induction s.config.skipMarked with
  | kept n hrequest ih =>
    rw [traced_of_none hrequest, Node.gain_of_none hrequest]
    apply Node.total_mapChildren
    intro c hc
    exact ih c hc (hlabels.child hc) (hregular.child hc)
  | requested n d hrequest ih =>
    have hd := d.isRegular_toNode.mp (hregular.definition hrequest).root
    have hparts : (d.map s.traced).toNode.total value = d.toNode.total value +
        (d.toNode.children.map (Node.gain value s.config.skipMarked)).sum := by
      rw [← Definition.mapChildren_toNode]
      apply Node.total_mapChildren
      intro c hc
      exact ih c hc ((hlabels.definition hrequest).child hc)
        ((hregular.definition hrequest).child hc)
    -- the labeled statement and its label against the block and the log statement
    have hgain := Definition.gain_eq value hd
    rw [traced_of_regular hrequest hd, Definition.total_withLog, hparts,
      Node.gain_of_request hrequest hlabels.root, Node.total_of_request hrequest hlabels.root]
    omega

theorem Pass.count_traceFile (config : Config) (file : String) {n : Node}
    (hlabels : n.Everywhere fun m => m.hasPlainLabel = true)
    (hregular : n.Everywhere fun m => m.isRegular = true) :
    (∀ kind, ((traceFile config file n).value.count kind : Int) =
      n.count kind + ((n.requests config.skipMarked).map fun d => d.growth kind).sum) ∧
    ((traceFile config file n).value.size : Int) =
      n.size + ((n.requests config.skipMarked).map fun d => (21 + 2 * d.plainCount : Int)).sum ∧
    (∀ kind, ((Visitor.counter.walk (traceFile config file n).value {}).count kind : Int) =
      (Visitor.counter.walk n {}).count kind +
        ((n.requests config.skipMarked).map fun d => d.growth kind).sum) ∧
    ((Visitor.counter.walk (traceFile config file n).value {}).total : Int) =
      (Visitor.counter.walk n {}).total +
        ((n.requests config.skipMarked).map fun d => (21 + 2 * d.plainCount : Int)).sum := by
  have htotal (value : Kind → Int) : (traceFile config file n).value.total value =
      n.total value + n.gain value config.skipMarked :=
    Setting.total_traced (s := ⟨file, config⟩) hlabels hregular
  have hcount (kind : Kind) : ((traceFile config file n).value.count kind : Int) =
      n.count kind + ((n.requests config.skipMarked).map fun d => d.growth kind).sum := by
    rw [Node.count_eq_total, Node.count_eq_total, htotal, Node.gain]
    simp only [Definition.gain_count]
  have hsize : ((traceFile config file n).value.size : Int) =
      n.size + ((n.requests config.skipMarked).map fun d => (21 + 2 * d.plainCount : Int)).sum := by
    rw [Node.size_eq_total, Node.size_eq_total, htotal, Node.gain]
    simp only [Definition.gain_size]
  refine ⟨hcount, hsize, ?_, ?_⟩
  · intro kind
    rw [Visitor.count_walk_counter, Visitor.count_walk_counter, hcount]
  · rw [Visitor.total_walk_counter, Visitor.total_walk_counter, hsize]

/-- A named function with one plain parameter and an anonymous one inside it are traced. -/
theorem Pass.count_repeatedLabels :
    (Node.repeatedLabels.Everywhere fun m => m.hasPlainLabel = true) ∧
      (Node.repeatedLabels.Everywhere fun m => m.isRegular = true) ∧
      ((traceFile ⟨true⟩ "unit.ts" Node.repeatedLabels).value.count .identifier : Int) =
        Node.repeatedLabels.count .identifier + 15 ∧
      ((traceFile ⟨true⟩ "unit.ts" Node.repeatedLabels).value.size : Int) =
        Node.repeatedLabels.size + 44 ∧
      (Visitor.counter.walk (traceFile ⟨true⟩ "unit.ts" Node.repeatedLabels).value {}).total =
        ((Visitor.counter.walk Node.repeatedLabels {}).total + 44 : Int) :=
  have hlabels : Node.repeatedLabels.Everywhere fun m => m.hasPlainLabel = true := by decide
  have hregular : Node.repeatedLabels.Everywhere fun m => m.isRegular = true := by decide
  have hcounts := count_traceFile ⟨true⟩ "unit.ts" hlabels hregular
  ⟨hlabels, hregular, (hcounts.1 .identifier).trans (by decide), hcounts.2.1.trans (by decide),
    hcounts.2.2.2.trans (by decide)⟩

end EntryTrace
