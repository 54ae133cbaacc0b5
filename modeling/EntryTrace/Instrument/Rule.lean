import EntryTrace.Config.Basic
import EntryTrace.Event
import EntryTrace.Instrument.Record
import EntryTrace.Tree.Descent

/-!
# Tracing labeled functions

A label on a function with a body asks for its entry to be traced. The label goes, the function
gets a marker comment, and its body becomes a block with the log statement in front of the body as
it was. Nothing else changes. The rule looks at one node; `Setting.descent` applies it to a whole
tree, the body of a traced function included. A labeled statement weighs more than all the rule
puts in its place (`Node.weight`), so this ends.
-/

namespace EntryTrace

set_option autoImplicit false

/-- The comment that marks a traced function. -/
def marker : Comment := ⟨.block, "instrument:"⟩

/-- The name of a parameter, when it is a plain name and not a pattern. -/
def plainParameter? (n : Node) : Option Node :=
  match n.form with
  | .parameter name _ => if name.kind = .identifier then some name else none
  | _ => none

def plainParameters (parameters : List Node) : List Node := parameters.filterMap plainParameter?

/-- The entry record of a function with a body. -/
def EntryRecord.of? (n : Node) : Option EntryRecord :=
  match n.form with
  | .functionDeclaration name parameters (some _) =>
    some ⟨name.bind Node.identifier?, plainParameters parameters⟩
  | _ => none

/-- The function with its marker and with the log statement in its body. -/
def EntryRecord.instrument (record : EntryRecord) (function : Node) : Node :=
  (function.addComment marker).mapChildren record.enclose

/-- What the rule depends on: the file whose tree it works on and the configuration. -/
structure Setting where
  file : String
  config : Config
  deriving DecidableEq, Repr

namespace Setting

/-- The traced form of a function that stood under a label; none when it is left as it was. -/
def instrument? (s : Setting) (n : Node) : Logged Event (Option Node) :=
  match EntryRecord.of? n with
  | none => do
    if n.kind = .functionDeclaration then Logged.emit (.bodyMissing s.file)
    return none
  | some record => do
    if s.config.skipMarked && n.hasComment marker.text then
      Logged.emit (.alreadyMarked s.file record.function)
      return none
    else
      Logged.emit (.instrumented s.file record.function record.arguments.length)
      return some (record.instrument n)

/-- The traced form of a labeled function in place of its labeled statement; every other node as it
was. -/
def visitLabeled (s : Setting) (n : Node) : Logged Event Node :=
  match n.form with
  | .labeledStatement _ statement =>
    if statement.kind = .functionDeclaration then do
      return (← s.instrument? statement).getD n
    else return n
  | _ => return n

/-- The rule on any node: only labeled statements are looked at. -/
def visit (s : Setting) (n : Node) : Logged Event Node :=
  if n.kind = .labeledStatement then s.visitLabeled n else return n

end Setting

/-! ### The descent ends -/

namespace Node

/-- The height of the tree with ten for each labeled statement and one for every other node. -/
def weight (n : Node) : Nat :=
  n.fold fun (own : Node) (form : Form Nat) =>
    (if own.kind = .labeledStatement then 10 else 1) + form.children.foldr max 0

theorem weight_eq (n : Node) :
    n.weight =
      (if n.kind = .labeledStatement then 10 else 1) + (n.children.map weight).foldr max 0 := by
  unfold weight
  rw [fold_eq]
  simp [children]

theorem le_foldr_max {k : Nat} {ks : List Nat} (h : k ∈ ks) : k ≤ ks.foldr max 0 := by
  induction ks with
  | nil => simp at h
  | cons j ks ih =>
    rcases List.mem_cons.mp h with rfl | h
    · exact Nat.le_max_left _ _
    · exact Nat.le_trans (ih h) (Nat.le_max_right _ _)

theorem foldr_max_le {bound : Nat} {ks : List Nat} (h : ∀ k ∈ ks, k ≤ bound) :
    ks.foldr max 0 ≤ bound := by
  induction ks with
  | nil => exact Nat.zero_le _
  | cons j ks ih =>
    exact Nat.max_le.mpr ⟨h j List.mem_cons_self, ih fun k hk => h k (List.mem_cons_of_mem j hk)⟩

theorem weight_le_foldr {c n : Node} (h : c ∈ n.children) :
    c.weight ≤ (n.children.map weight).foldr max 0 :=
  le_foldr_max (List.mem_map.mpr ⟨c, h, rfl⟩)

theorem weight_lt_of_mem_children {c n : Node} (h : c ∈ n.children) : c.weight < n.weight := by
  have hle := weight_le_foldr h
  rw [weight_eq n]
  split <;> omega

theorem weight_ofForm (form : Form Node) :
    (ofForm form).weight =
      (if form.kind = .labeledStatement then 10 else 1) + (form.children.map weight).foldr max 0 :=
  weight_eq _

theorem weight_identifier (text : String) : (identifier text).weight = 1 := by
  unfold identifier
  rw [weight_ofForm]
  simp [Form.kind, Form.children]

theorem weight_of_kind_identifier {n : Node} (h : n.kind = .identifier) : n.weight = 1 := by
  rw [weight_eq]
  unfold kind at h
  unfold children kind
  cases hform : n.form <;> simp_all [Form.kind, Form.children]

end Node

theorem weight_of_plainParameter? {n name : Node} (h : plainParameter? n = some name) :
    name.weight = 1 := by
  unfold plainParameter? at h
  split at h
  · split at h
    · rename_i hkind
      obtain rfl := Option.some.inj h
      exact Node.weight_of_kind_identifier hkind
    · simp at h
  · simp at h

namespace EntryRecord

theorem weight_textOrNull (text : Option String) : (Sketch.textOrNull text).toNode.weight = 1 := by
  cases text <;>
    simp [Sketch.textOrNull, Sketch.toNode, Node.weight_ofForm, Form.kind, Form.children]

/-- The log statement has a bounded height, however many arguments it logs. -/
theorem weight_statement_le {record : EntryRecord} (h : ∀ n ∈ record.arguments, n.weight ≤ 1) :
    record.statement.weight ≤ 8 := by
  have harguments :
      ((record.arguments.map fun n => Node.ofForm (.shorthandProperty n)).map
        Node.weight).foldr max 0 ≤ 2 := by
    apply Node.foldr_max_le
    intro k hk
    simp only [List.map_map, List.mem_map, Function.comp_apply] at hk
    obtain ⟨n, hn, rfl⟩ := hk
    have := h n hn
    rw [Node.weight_ofForm]
    simp only [Form.kind, Form.children, List.map_cons, List.map_nil, List.foldr_cons,
      List.foldr_nil, reduceCtorEq, ↓reduceIte]
    omega
  simp only [statement, logging, content, Sketch.memberOf, Sketch.toNode, Sketch.toNodes,
    Sketch.fieldNodes, Sketch.fieldNode, Sketch.fieldNodes_shorthand, Node.weight_ofForm,
    Node.weight_identifier, weight_textOrNull, Form.kind, Form.children, List.map_cons,
    List.map_nil, List.foldr_cons, List.foldr_nil, reduceCtorEq, ↓reduceIte]
  omega

/-- The record of a function logs plain names only. -/
theorem weight_statement_of? {n : Node} {record : EntryRecord} (h : of? n = some record) :
    record.statement.weight ≤ 8 := by
  apply weight_statement_le
  unfold of? at h
  split at h
  · obtain rfl := Option.some.inj h
    intro name hname
    obtain ⟨parameter, _, hparameter⟩ := List.mem_filterMap.mp hname
    exact Nat.le_of_eq (weight_of_plainParameter? hparameter)
  · simp at h

theorem weight_enclose_le {record : EntryRecord} (h : record.statement.weight ≤ 8) (n : Node) :
    (record.enclose n).weight ≤ 1 + max 8 n.weight := by
  unfold enclose
  split
  · unfold Node.block
    rw [Node.weight_ofForm]
    simp only [Form.kind, Form.children, List.map_cons, List.map_nil, List.foldr_cons,
      List.foldr_nil, reduceCtorEq, ↓reduceIte]
    omega
  · omega

end EntryRecord

namespace Setting

theorem instrument?_eq_some {s : Setting} {n traced : Node}
    (h : (s.instrument? n).value = some traced) :
    ∃ record, EntryRecord.of? n = some record ∧ traced = record.instrument n := by
  unfold instrument? at h
  split at h
  · split at h <;> exact absurd h (by simp [bind])
  · rename_i record hrecord
    split at h
    · exact absurd h (by simp [bind])
    · exact ⟨record, hrecord, (Option.some.inj h).symm⟩

/-- The children of what the rule puts in place of a node are lighter than the node. -/
theorem weight_visit_lt (s : Setting) (n c : Node) (h : c ∈ (s.visit n).value.children) :
    c.weight < n.weight := by
  unfold visit at h
  split at h
  · rename_i hkind
    unfold visitLabeled at h
    split at h
    · rename_i label statement hform
      have hstatement : statement ∈ n.children := by simp [Node.children, hform, Form.children]
      have hheavy := Node.weight_le_foldr hstatement
      split at h
      · cases htraced : (s.instrument? statement).value with
        | none =>
          simp only [Logged.value_bind, Logged.value_pure, htraced, Option.getD_none] at h
          exact Node.weight_lt_of_mem_children h
        | some traced =>
          simp only [Logged.value_bind, Logged.value_pure, htraced, Option.getD_some] at h
          obtain ⟨record, hrecord, rfl⟩ := instrument?_eq_some htraced
          unfold EntryRecord.instrument at h
          rw [Node.children_mapChildren] at h
          obtain ⟨inner, hinner, rfl⟩ := List.mem_map.mp h
          have hlight := Node.weight_lt_of_mem_children (c := inner) (n := statement) hinner
          have henclosed :=
            EntryRecord.weight_enclose_le (EntryRecord.weight_statement_of? hrecord) inner
          rw [Node.weight_eq n]
          simp only [hkind, ↓reduceIte]
          omega
      · exact Node.weight_lt_of_mem_children h
    · exact Node.weight_lt_of_mem_children h
  · exact Node.weight_lt_of_mem_children h

/-- The rule, ready to be applied to whole trees. -/
def descent (s : Setting) : Descent Event := ⟨s.visit, Node.weight, s.weight_visit_lt⟩

end Setting

end EntryTrace
