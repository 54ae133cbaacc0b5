import EntryTrace.Instrument.Pass
import EntryTrace.Proofs.Children
import EntryTrace.Proofs.LogStatement

/-!
# The pass, one layer at a time

A label on a function with a body is a request to trace it. The walk goes into whatever the rule
puts in place of a request, the new code included; it finds nothing to do there, so the pass is
already determined by what it makes of the children of the original node (`traced_of_request`,
`traced_of_none`).
-/

namespace EntryTrace

set_option autoImplicit false

/-- A function declaration that has a body. -/
structure Definition where
  name : Option Node
  parameters : List Node
  body : Node
  span : Span
  comments : List Comment

namespace Definition

def toNode (d : Definition) : Node :=
  ⟨.functionDeclaration d.name d.parameters (some d.body), d.span, d.comments⟩

def record (d : Definition) : EntryRecord :=
  ⟨d.name.bind Node.identifier?, plainParameters d.parameters⟩

/-- The definition with every part replaced. -/
def map (f : Node → Node) (d : Definition) : Definition :=
  { d with name := d.name.map f, parameters := d.parameters.map f, body := f d.body }

/-- The definition with the marker and with a log statement in front of its body. -/
def withLog (record : EntryRecord) (d : Definition) : Definition :=
  { d with body := .block [record.statement, d.body], comments := d.comments ++ [marker] }

theorem toNode_injective {d e : Definition} (h : d.toNode = e.toNode) : d = e := by
  cases d
  cases e
  simp_all [toNode]

theorem mapChildren_toNode (f : Node → Node) (d : Definition) :
    d.toNode.mapChildren f = (d.map f).toNode :=
  rfl

end Definition

/-- Neither a labeled statement nor a function: the pass leaves nodes of such kinds where they
are. -/
def Kind.isPlain : Kind → Bool
  | labeledStatement | functionDeclaration => false
  | _ => true

namespace Node

/-- The definition under a label. -/
def labeledFunction? (n : Node) : Option Definition :=
  match n.form with
  | .labeledStatement _ ⟨.functionDeclaration name parameters (some body), span, comments⟩ =>
    some ⟨name, parameters, body, span, comments⟩
  | _ => none

/-- The definition that a label asks to be traced; with the guard set, a marked one is passed
over. -/
def request? (guarded : Bool) (n : Node) : Option Definition :=
  n.labeledFunction?.filter fun d => !(guarded && d.toNode.hasComment marker.text)

variable {guarded : Bool} {n : Node} {d : Definition}

theorem labeledFunction?_eq_some_iff :
    n.labeledFunction? = some d ↔ ∃ label, n.form = .labeledStatement label d.toNode := by
  unfold labeledFunction?
  constructor
  · intro h
    split at h
    · rename_i label name parameters body span comments hform
      obtain rfl := Option.some.inj h
      exact ⟨label, hform⟩
    · simp at h
  · rintro ⟨label, hform⟩
    rw [hform]
    rfl

theorem request?_eq_some_iff :
    n.request? guarded = some d ↔
      n.labeledFunction? = some d ∧
        ¬ (guarded = true ∧ d.toNode.hasComment marker.text = true) := by
  unfold request?
  rw [Option.filter_eq_some_iff]
  cases guarded <;> simp

theorem exists_label_of_request (h : n.request? guarded = some d) :
    ∃ label, n.form = .labeledStatement label d.toNode :=
  labeledFunction?_eq_some_iff.mp (request?_eq_some_iff.mp h).1

theorem kind_of_request (h : n.request? guarded = some d) : n.kind = .labeledStatement := by
  obtain ⟨label, hform⟩ := exists_label_of_request h
  rw [kind, hform]
  rfl

theorem request?_of_plain (h : n.kind.isPlain = true) : n.request? guarded = none := by
  cases hrequest : n.request? guarded with
  | none => rfl
  | some d =>
    rw [kind_of_request hrequest] at h
    exact absurd h Bool.false_ne_true

theorem definition_mem_children (h : n.request? guarded = some d) : d.toNode ∈ n.children := by
  obtain ⟨label, hform⟩ := exists_label_of_request h
  rw [children, hform]
  simp [Form.children]

theorem Everywhere.definition {p : Node → Prop} (h : n.Everywhere p)
    (hrequest : n.request? guarded = some d) : d.toNode.Everywhere p :=
  h.child (definition_mem_children hrequest)

/-- Induction along the pass: from the children of a node that is no request, and from the parts of
the definition that a request is for. -/
theorem request_induction (guarded : Bool) {P : Node → Prop}
    (kept : ∀ n : Node, n.request? guarded = none → (∀ c ∈ n.children, P c) → P n)
    (requested : ∀ (n : Node) (d : Definition), n.request? guarded = some d →
      (∀ c ∈ d.toNode.children, P c) → P n)
    (n : Node) : P n := by
  induction n using deep_induction with
  | step n ih =>
    cases hrequest : n.request? guarded with
    | none => exact kept n hrequest fun c hc => (ih c hc).root
    | some d =>
      have hmem := definition_mem_children hrequest
      exact requested n d hrequest fun c hc => ((ih d.toNode hmem).child hc).root

end Node

/-! ### The rule on requests -/

theorem EntryRecord.of?_eq_some {n : Node} {record : EntryRecord} (h : of? n = some record) :
    ∃ d : Definition, n = d.toNode ∧ record = d.record := by
  rcases n with ⟨form, span, comments⟩
  unfold of? at h
  split at h
  · rename_i name parameters body hform
    obtain rfl := Option.some.inj h
    obtain rfl : form = _ := hform
    exact ⟨⟨name, parameters, body, span, comments⟩, rfl, rfl⟩
  · simp at h

namespace Setting

variable {s : Setting} {n : Node} {d : Definition}

theorem instrument?_definition (d : Definition) :
    (s.instrument? d.toNode).value =
      if s.config.skipMarked && d.toNode.hasComment marker.text then none
      else some (d.record.instrument d.toNode) := by
  have hrecord : EntryRecord.of? d.toNode = some d.record := rfl
  simp only [instrument?, hrecord]
  split <;> rfl

theorem visit_of_request (h : n.request? s.config.skipMarked = some d) :
    (s.visit n).value = d.record.instrument d.toNode := by
  obtain ⟨label, hform⟩ := Node.exists_label_of_request h
  have hmarked := (Node.request?_eq_some_iff.mp h).2
  have hrule := instrument?_definition (s := s) d
  rw [if_neg (by simpa using hmarked)] at hrule
  unfold visit
  rw [if_pos (Node.kind_of_request h)]
  simp only [visitLabeled, hform]
  rw [if_pos (show d.toNode.kind = .functionDeclaration from rfl)]
  simp only [Logged.value_bind, Logged.value_pure, hrule, Option.getD_some]

theorem visit_of_none (h : n.request? s.config.skipMarked = none) : (s.visit n).value = n := by
  unfold visit
  split
  · unfold visitLabeled
    split
    · rename_i label statement hform
      split
      · cases htraced : (s.instrument? statement).value with
        | none => simp only [Logged.value_bind, Logged.value_pure, htraced, Option.getD_none]
        | some traced =>
          obtain ⟨record, hrecord, _⟩ := instrument?_eq_some htraced
          obtain ⟨d, rfl, _⟩ := EntryRecord.of?_eq_some hrecord
          rw [instrument?_definition] at htraced
          have hrequest : n.request? s.config.skipMarked = some d := by
            refine Node.request?_eq_some_iff.mpr
              ⟨Node.labeledFunction?_eq_some_iff.mpr ⟨label, hform⟩, ?_⟩
            intro hmarked
            rw [if_pos (by simpa using hmarked)] at htraced
            simp at htraced
          rw [h] at hrequest
          simp at hrequest
      · rfl
    · rfl
  · rfl

end Setting

/-! ### Nodes rebuilt from other children -/

namespace Node

variable {f : Node → Node}

theorem labeled_of_mapChildren {n label statement : Node}
    (h : (n.mapChildren f).form = .labeledStatement label statement) :
    ∃ l m, n.form = .labeledStatement l m ∧ f m = statement := by
  rcases n with ⟨form, span, comments⟩
  have hform : form.map f = .labeledStatement label statement := h
  cases form with
  | labeledStatement l m => exact ⟨l, m, rfl, (Form.labeledStatement.inj hform).2⟩
  | _ => simp [Form.map] at hform

theorem definition_of_mapChildren {n : Node} {d : Definition} (h : n.mapChildren f = d.toNode) :
    ∃ e : Definition, n = e.toNode ∧ d = e.map f := by
  rcases n with ⟨form, span, comments⟩
  have hform : form.map f = d.toNode.form := congrArg Node.form h
  cases form with
  | functionDeclaration name parameters body =>
    cases body with
    | none => simp [Form.map, Definition.toNode] at hform
    | some body =>
      let e : Definition := ⟨name, parameters, body, span, comments⟩
      exact ⟨e, rfl, Definition.toNode_injective (h.symm.trans (e.mapChildren_toNode f))⟩
  | _ => simp [Form.map, Definition.toNode] at hform

end Node

theorem Definition.map_congr {f g : Node → Node} {d : Definition}
    (h : ∀ c ∈ d.toNode.children, f c = g c) : d.map f = d.map g := by
  apply toNode_injective
  rw [← mapChildren_toNode, ← mapChildren_toNode]
  exact Node.mapChildren_congr h

theorem Definition.everywhere_statement {p : Node → Prop} (d : Definition)
    (h : ∀ m : Node, m.kind.isPlain = true → p m) : d.record.statement.Everywhere p := by
  have hkind : ∀ a ∈ d.record.arguments, a.kind = .identifier :=
    fun a ha => kind_of_mem_plainParameters ha
  apply EntryRecord.everywhere_statement
  · exact h _ rfl
  · intro sketch
    cases sketch <;> exact h _ rfl
  · intro key value
    exact h _ rfl
  · intro a _
    exact h _ rfl
  · intro a ha
    rw [Node.everywhere_of_kind_identifier (hkind a ha)]
    apply h
    rw [hkind a ha]
    rfl

/-! ### The walk -/

namespace Setting

variable {s : Setting} {n : Node} {d : Definition}

/-- The tree that the pass makes of a tree. -/
def traced (s : Setting) (n : Node) : Node := (s.descent.run n).value

theorem traced_eq (s : Setting) (n : Node) :
    s.traced n = (s.visit n).value.mapChildren s.traced := by
  unfold traced
  rw [Descent.run_eq, Logged.value_bind, Node.value_mapChildrenM]
  rfl

theorem traced_of_none (h : n.request? s.config.skipMarked = none) :
    s.traced n = n.mapChildren s.traced := by
  rw [traced_eq, visit_of_none h]

/-- A tree without requests stays as it is. -/
theorem traced_of_quiet (h : n.Everywhere fun m => m.request? s.config.skipMarked = none) :
    s.traced n = n := by
  induction n using Node.induction with
  | step n ih =>
    rw [traced_of_none h.root]
    exact Node.mapChildren_eq_self fun c hc => ih c hc (h.child hc)

theorem kind_traced (s : Setting) (n : Node) :
    (s.traced n).kind =
      if (n.request? s.config.skipMarked).isSome then .functionDeclaration else n.kind := by
  rw [traced_eq, Node.kind_mapChildren]
  cases h : n.request? s.config.skipMarked with
  | none =>
    rw [visit_of_none h]
    rfl
  | some d =>
    rw [visit_of_request h]
    rfl

theorem kind_traced_eq_iff {kind : Kind} (h : kind.isPlain = true) :
    (s.traced n).kind = kind ↔ n.kind = kind := by
  rw [kind_traced]
  split
  · rename_i hsome
    obtain ⟨d, hd⟩ := Option.isSome_iff_exists.mp hsome
    rw [Node.kind_of_request hd]
    constructor <;> rintro rfl <;> exact absurd h Bool.false_ne_true
  · rfl

theorem kind_traced_eq_block_iff : (s.traced n).kind = .block ↔ n.kind = .block :=
  kind_traced_eq_iff rfl

theorem traced_of_kind_identifier (h : n.kind = .identifier) : s.traced n = n := by
  apply traced_of_quiet
  rw [Node.everywhere_of_kind_identifier h]
  exact Node.request?_of_plain (by rw [h]; rfl)

theorem traced_statement (s : Setting) (d : Definition) :
    s.traced d.record.statement = d.record.statement :=
  traced_of_quiet (d.everywhere_statement fun _ => Node.request?_of_plain)

/-- The log statement may be put in front of the body before or after the pass. -/
theorem traced_enclose (s : Setting) (d : Definition) (n : Node) :
    s.traced (d.record.enclose n) = d.record.enclose (s.traced n) := by
  unfold EntryRecord.enclose
  by_cases h : n.kind = .block
  · have hnone : (Node.block [d.record.statement, n]).request? s.config.skipMarked = none := rfl
    rw [if_pos h, if_pos (kind_traced_eq_block_iff.mpr h), traced_of_none hnone]
    unfold Node.mapChildren Node.block Node.ofForm
    simp only [Form.map, List.map_cons, List.map_nil, traced_statement]
  · rw [if_neg h, if_neg (mt kind_traced_eq_block_iff.mp h)]

theorem traced_of_request (h : n.request? s.config.skipMarked = some d) :
    s.traced n =
      (d.toNode.addComment marker).mapChildren fun c => d.record.enclose (s.traced c) := by
  rw [traced_eq, visit_of_request h, EntryRecord.instrument, Node.mapChildren_mapChildren]
  exact Node.mapChildren_congr fun c _ => traced_enclose s d c

theorem definition_of_traced (h : s.traced n = d.toNode) :
    (∃ e : Definition, n.request? s.config.skipMarked = some e ∧
      d.comments = e.comments ++ [marker]) ∨
    (∃ e : Definition, n = e.toNode ∧ d = e.map s.traced) := by
  cases hrequest : n.request? s.config.skipMarked with
  | none =>
    rw [traced_of_none hrequest] at h
    exact .inr (Node.definition_of_mapChildren h)
  | some e =>
    rw [traced_of_request hrequest] at h
    have hcomments : e.comments ++ [marker] = d.comments := congrArg Node.comments h
    exact .inl ⟨e, rfl, hcomments.symm⟩

/-- A property holds everywhere in the result when it holds of what becomes of each single node, of
the new bodies and everywhere in the log statements. -/
theorem everywhere_traced {p q : Node → Prop} (hroot : ∀ m, m.Everywhere q → p (s.traced m))
    (hbody : ∀ (d : Definition) (m : Node), m.kind = .block →
      p (.block [d.record.statement, s.traced m]))
    (hstatement : ∀ d : Definition, d.record.statement.Everywhere p) (h : n.Everywhere q) :
    (s.traced n).Everywhere p := by
  induction n using Node.request_induction s.config.skipMarked with
  | kept n hrequest ih =>
    have hn := hroot n h
    rw [traced_of_none hrequest] at hn ⊢
    exact Node.everywhere_mapChildren hn fun c hc => ih c hc (h.child hc)
  | requested n d hrequest ih =>
    have hn := hroot n h
    rw [traced_of_request hrequest] at hn ⊢
    apply Node.everywhere_mapChildren hn
    intro c hc
    have hpart := ih c hc ((h.definition hrequest).child hc)
    unfold EntryRecord.enclose
    split
    · rename_i hkind
      refine Node.everywhere_ofForm.mpr ⟨hbody d c (kind_traced_eq_block_iff.mp hkind), ?_⟩
      intro m hm
      simp only [Form.children, List.mem_cons, List.not_mem_nil, or_false] at hm
      rcases hm with rfl | rfl
      · exact hstatement d
      · exact hpart
    · exact hpart

end Setting

end EntryTrace
