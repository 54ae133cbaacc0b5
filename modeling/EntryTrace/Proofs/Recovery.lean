import EntryTrace.Proofs.Structural

/-!
# Recovering the original tree

The pass loses nothing but labels. Read from the result alone, a marker at the end of a function's
comments says that its body holds the original one behind the log statement. Undoing this at every
function gives back the original tree, up to the labels that asked for tracing.
-/

namespace EntryTrace

set_option autoImplicit false

namespace Node

/-- Whether the last comment that leads the node is a marker, in either style. -/
def endsMarked (n : Node) : Bool := n.comments.getLast?.any fun c => c.text == marker.text

/-- The second of two statements in a block; any other node as it is. -/
def afterFirst (n : Node) : Node :=
  match n.block? with
  | some [_, second] => second
  | _ => n

/-- The tree with every marked function unmarked once and its body taken out from behind the first
statement. -/
def recovered (n : Node) : Node :=
  n.fold fun (own : Node) (form : Form Node) =>
    match form with
    | .functionDeclaration name parameters body =>
      if own.endsMarked then
        ⟨.functionDeclaration name parameters (body.map afterFirst), own.span,
          own.comments.dropLast⟩
      else { own with form := form }
    | _ => { own with form := form }

/-- The tree with every labeled definition in place of its labeled statement. -/
def peeled (n : Node) : Node :=
  n.fold fun (own : Node) (form : Form Node) =>
    match own.labeledFunction?, form with
    | some _, .labeledStatement _ definition => definition
    | _, _ => { own with form := form }

variable {n : Node} {d : Definition}

theorem endsMarked_of_unmarked (h : n.hasComment marker.text = false) : n.endsMarked = false := by
  unfold endsMarked
  cases hlast : n.comments.getLast? with
  | none => rfl
  | some c =>
    have hother := List.any_eq_false.mp h c (List.mem_of_getLast? hlast)
    exact Bool.eq_false_iff.mpr hother

theorem recovered_of_not_endsMarked (h : n.kind = .functionDeclaration → n.endsMarked = false) :
    n.recovered = n.mapChildren recovered := by
  unfold recovered
  rw [fold_eq]
  rcases n with ⟨form, span, comments⟩
  cases form with
  | functionDeclaration name parameters body =>
    simp only [Form.map, h rfl]
    rfl
  | _ => rfl

theorem peeled_of_none (h : n.labeledFunction? = none) : n.peeled = n.mapChildren peeled := by
  unfold peeled
  rw [fold_eq]
  simp only [h]
  rfl

theorem peeled_of_labeled (h : n.labeledFunction? = some d) : n.peeled = (d.map peeled).toNode := by
  obtain ⟨label, hform⟩ := labeledFunction?_eq_some_iff.mp h
  have hdefinition : d.toNode.peeled = (d.map peeled).toNode := peeled_of_none rfl
  rw [← hdefinition]
  unfold peeled
  rw [fold_eq]
  simp only [h, hform]
  rfl

end Node

namespace Definition

theorem endsMarked_withLog (record : EntryRecord) (d : Definition) :
    (d.withLog record).toNode.endsMarked = true := by
  simp [Node.endsMarked, withLog, toNode]

theorem recovered_withLog (record : EntryRecord) (d : Definition) :
    (d.withLog record).toNode.recovered = (d.map Node.recovered).toNode := by
  have hblock : Kind.block ≠ .functionDeclaration := by decide
  have hbody : (Node.block [record.statement, d.body]).recovered =
      .block [record.statement.recovered, d.body.recovered] :=
    Node.recovered_of_not_endsMarked fun hkind => absurd hkind hblock
  have hcomments : (d.withLog record).toNode.comments.dropLast = d.comments :=
    List.dropLast_concat
  have hmarked := d.endsMarked_withLog record
  unfold Node.recovered at hbody ⊢
  rw [Node.fold_eq]
  simp only [hmarked, hcomments]
  simp only [withLog, toNode, Form.map, Option.map_some, hbody]
  rfl

end Definition

/-- Where no function is marked, the guard passes over none. -/
theorem Node.request?_of_unmarked (guarded : Bool) {n : Node}
    (h : n.Everywhere fun m => m.kind = .functionDeclaration → m.hasComment marker.text = false) :
    n.request? guarded = n.labeledFunction? := by
  cases hlabeled : n.labeledFunction? with
  | none => simp [request?, hlabeled]
  | some d =>
    have hrequest : n.request? false = some d := request?_eq_some_iff.mpr ⟨hlabeled, by simp⟩
    have hunmarked : d.toNode.hasComment marker.text = false := (h.definition hrequest).root rfl
    exact request?_eq_some_iff.mpr ⟨hlabeled, by simp [hunmarked]⟩

namespace Setting

variable {s : Setting} {n : Node}

theorem recovered_traced (hregular : n.Everywhere fun m => m.isRegular = true)
    (hunmarked : n.Everywhere fun m =>
      m.kind = .functionDeclaration → m.hasComment marker.text = false) :
    (s.traced n).recovered = n.peeled := by
  induction n using Node.request_induction s.config.skipMarked with
  | kept n hrequest ih =>
    have hlabeled : n.labeledFunction? = none := by
      rw [← Node.request?_of_unmarked s.config.skipMarked hunmarked, hrequest]
    -- an unmarked function does not become marked when only its children change
    have hends : (n.mapChildren s.traced).kind = .functionDeclaration →
        (n.mapChildren s.traced).endsMarked = false := by
      intro hkind
      rw [Node.kind_mapChildren] at hkind
      exact Node.endsMarked_of_unmarked (hunmarked.root hkind)
    rw [traced_of_none hrequest, Node.recovered_of_not_endsMarked hends,
      Node.peeled_of_none hlabeled, Node.mapChildren_mapChildren]
    apply Node.mapChildren_congr
    intro c hc
    exact ih c hc (hregular.child hc) (hunmarked.child hc)
  | requested n d hrequest ih =>
    have hlabeled := (Node.request?_eq_some_iff.mp hrequest).1
    have hd := d.isRegular_toNode.mp (hregular.definition hrequest).root
    rw [traced_of_regular hrequest hd, Definition.recovered_withLog,
      Node.peeled_of_labeled hlabeled]
    simp only [← Definition.mapChildren_toNode, Node.mapChildren_mapChildren]
    apply Node.mapChildren_congr
    intro c hc
    exact ih c hc ((hregular.definition hrequest).child hc)
      ((hunmarked.definition hrequest).child hc)

end Setting

theorem Pass.recovered_traceFile (config : Config) (file : String) {n : Node}
    (hregular : n.Everywhere fun m => m.isRegular = true)
    (hunmarked : n.Everywhere fun m =>
      m.kind = .functionDeclaration → m.hasComment marker.text = false) :
    (traceFile config file n).value.recovered = n.peeled :=
  Setting.recovered_traced (s := ⟨file, config⟩) hregular hunmarked

theorem Pass.recovered_chainedLabels :
    (Node.chainedLabels.Everywhere fun m => m.isRegular = true) ∧
      (Node.chainedLabels.Everywhere fun m =>
        m.kind = .functionDeclaration → m.hasComment marker.text = false) ∧
      (traceFile ⟨true⟩ "unit.ts" Node.chainedLabels).value.recovered =
        Node.chainedLabels.peeled :=
  have hregular : Node.chainedLabels.Everywhere fun m => m.isRegular = true := by decide
  have hunmarked : Node.chainedLabels.Everywhere fun m =>
    m.kind = .functionDeclaration → m.hasComment marker.text = false := by decide
  ⟨hregular, hunmarked, recovered_traceFile ⟨true⟩ "unit.ts" hregular hunmarked⟩

end EntryTrace
