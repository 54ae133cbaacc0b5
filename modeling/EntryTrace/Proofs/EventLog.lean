import EntryTrace.Proofs.Labels

/-!
# The event log

Each visit of the walk logs at most one event, and only at a labeled function. The walk then goes on
into the children of what it put in place, where the new code has no labels. So the log of the pass
lists the labeled functions of the original tree in the order in which they stand there, each once.
-/

namespace EntryTrace

set_option autoImplicit false

/-! ### What is said about a labeled function -/

/-- An event as it is shown. -/
structure Notice where
  message : String
  fields : List (String × FieldValue)
  deriving DecidableEq, Repr

def Event.notice (event : Event) : Notice := ⟨event.message, event.fields⟩

/-- What is to be said about a labeled function in a file; nothing about any other node. -/
def Node.notice? (file : String) (guarded : Bool) (n : Node) : Option Notice :=
  match n.form with
  | .labeledStatement _ ⟨.functionDeclaration _ _ none, _, _⟩ =>
    some ⟨"skipping labeled function declaration without a body", [("file", .text file)]⟩
  | .labeledStatement _ ⟨.functionDeclaration name parameters (some _), _, comments⟩ =>
    let shown := (name.bind identifier?).getD "<anonymous>"
    if guarded && comments.any (fun c => c.text == "instrument:") then
      some ⟨"skipping already instrumented function",
        [("file", .text file), ("function", .text shown)]⟩
    else
      some ⟨"instrumenting labeled function",
        [("file", .text file), ("function", .text shown),
          ("arguments", .number (parameters.countP hasPlainName))]⟩
  | _ => none

theorem Node.notice?_of_kind_ne {file : String} {guarded : Bool} {n : Node}
    (h : n.kind ≠ .labeledStatement) : n.notice? file guarded = none := by
  rcases n with ⟨form, span, comments⟩
  cases form with
  | labeledStatement => exact absurd rfl h
  | _ => rfl

namespace Setting

variable {s : Setting} {n : Node}

/-- The event at a label on a function with a body. -/
def event (s : Setting) (d : Definition) : Event :=
  if s.config.skipMarked && d.toNode.hasComment marker.text then
    .alreadyMarked s.file d.record.function
  else .instrumented s.file d.record.function d.record.arguments.length

theorem log_instrument?_definition (s : Setting) (d : Definition) :
    (s.instrument? d.toNode).log = [s.event d] := by
  have hrecord : EntryRecord.of? d.toNode = some d.record := rfl
  simp only [instrument?, hrecord, event]
  split <;> rfl

theorem notice_event (s : Setting) (d : Definition) (label : Node) (span : Span)
    (comments : List Comment) :
    (⟨.labeledStatement label d.toNode, span, comments⟩ : Node).notice? s.file s.config.skipMarked =
      some (s.event d).notice := by
  have hcount : d.record.arguments.length = d.parameters.countP Node.hasPlainName :=
    length_plainParameters d.parameters
  have hmarked : d.toNode.hasComment marker.text =
      d.comments.any (fun c => c.text == "instrument:") := rfl
  rw [event, hcount, hmarked]
  simp only [Node.notice?, Definition.toNode]
  split <;> rfl

/-- A visit logs what is to be said about the node. -/
theorem notice_visit (s : Setting) (n : Node) :
    (s.visit n).log.map Event.notice = (n.notice? s.file s.config.skipMarked).toList := by
  rcases n with ⟨form, span, comments⟩
  cases form with
  | labeledStatement label m =>
    rcases m with ⟨inner, span', comments'⟩
    cases inner with
    | functionDeclaration name parameters body =>
      cases body with
      | none => rfl
      | some body =>
        let d : Definition := ⟨name, parameters, body, span', comments'⟩
        change ((s.instrument? d.toNode).log ++ []).map Event.notice =
          (Node.notice? s.file s.config.skipMarked
            ⟨.labeledStatement label d.toNode, span, comments⟩).toList
        rw [List.append_nil, log_instrument?_definition, notice_event]
        rfl
    | _ => rfl
  | _ => rfl

/-- The events that the pass logs on a tree. -/
def logged (s : Setting) (n : Node) : List Event := (s.descent.run n).log

theorem logged_eq (s : Setting) (n : Node) :
    s.logged n = (s.visit n).log ++ (s.visit n).value.children.flatMap s.logged := by
  unfold logged
  rw [Descent.run_eq, Logged.log_bind, Node.log_mapChildrenM]
  rfl

theorem readsLabels_logged (s : Setting) : Node.ReadsLabels s.logged := by
  intro n hn
  rw [logged_eq, visit, if_neg hn]
  rfl

theorem notice_logged (h : n.Everywhere fun m => m.hasPlainLabel = true) :
    (s.logged n).map Event.notice =
      n.preorder.filterMap (Node.notice? s.file s.config.skipMarked) := by
  induction n using Node.request_induction s.config.skipMarked with
  | kept n hrequest ih =>
    rw [logged_eq, visit_of_none hrequest, List.map_append, notice_visit, List.map_flatMap,
      Node.filterMap_preorder]
    congr 1
    apply List.flatMap_congr
    intro c hc
    exact ih c hc (h.child hc)
  | requested n d hrequest ih =>
    rw [logged_eq, visit_of_request hrequest, List.map_append, notice_visit, List.map_flatMap,
      Node.filterMap_preorder_of_request (fun _ hm => Node.notice?_of_kind_ne hm) hrequest h.root,
      EntryRecord.instrument, Node.children_mapChildren, List.flatMap_map]
    congr 1
    -- the walk meets each part of the definition as it was put in place
    apply List.flatMap_congr
    intro c hc
    rw [s.readsLabels_logged.enclose d c]
    exact ih c hc ((h.definition hrequest).child hc)

end Setting

theorem Pass.log_traceFile (config : Config) (file : String) {n : Node}
    (h : n.Everywhere fun m => m.hasPlainLabel = true) :
    (traceFile config file n).log.map (fun entry => entry.event.notice) =
        n.preorder.filterMap (Node.notice? file config.skipMarked) ∧
      ∀ entry ∈ (traceFile config file n).log, entry.scopes = [⟨file⟩] := by
  have hlog : (traceFile config file n).log =
      ((⟨file, config⟩ : Setting).logged n).map fun event => ⟨event, [⟨file⟩]⟩ := rfl
  rw [hlog]
  refine ⟨?_, ?_⟩
  · rw [List.map_map]
    exact Setting.notice_logged (s := ⟨file, config⟩) h
  · intro entry hentry
    obtain ⟨event, _, rfl⟩ := List.mem_map.mp hentry
    rfl

theorem Pass.log_repeatedLabels :
    (Node.repeatedLabels.Everywhere fun m => m.hasPlainLabel = true) ∧
      (traceFile ⟨true⟩ "unit.ts" Node.repeatedLabels).log.map (fun entry => entry.event.notice) =
        [⟨"instrumenting labeled function",
            [("file", .text "unit.ts"), ("function", .text "f"), ("arguments", .number 1)]⟩,
          ⟨"instrumenting labeled function",
            [("file", .text "unit.ts"), ("function", .text "<anonymous>"),
              ("arguments", .number 0)]⟩,
          ⟨"skipping already instrumented function",
            [("file", .text "unit.ts"), ("function", .text "g")]⟩,
          ⟨"skipping labeled function declaration without a body",
            [("file", .text "unit.ts")]⟩] :=
  have h : Node.repeatedLabels.Everywhere fun m => m.hasPlainLabel = true := by decide
  ⟨h, (log_traceFile ⟨true⟩ "unit.ts" h).1.trans (by decide)⟩

end EntryTrace
