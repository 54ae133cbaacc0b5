import EntryTrace.Proofs.ExpressionReader

/-!
# What the text of a log statement says

The text of a sketched expression determines the sketch, whatever its string literals hold, as long
as names are words and none of them is `null`. So the text of a log statement tells for which
function and which arguments it was made.
-/

namespace EntryTrace

set_option autoImplicit false

/-- A word that cannot be taken for the null literal. -/
def Text.isKey (word : String) : Bool := isWord word.toList && word != "null"

/-- A new name that can be told from the null literal. -/
def Node.isNewKey (n : Node) : Bool :=
  n.identifier?.any Text.isKey && n.comments.isEmpty && decide (n.span = Span.synthetic)

theorem Node.kind_of_isKey {n : Node} (h : n.identifier?.any Text.isKey = true) :
    n.kind = .identifier := by
  rcases n with ⟨form, span, comments⟩
  cases form with
  | identifier => rfl
  | _ => cases h

theorem Node.exists_of_isNewKey {n : Node} (h : n.isNewKey = true) :
    ∃ word, n = .identifier word ∧ Text.isKey word = true := by
  rcases n with ⟨form, span, comments⟩
  simp only [isNewKey, Bool.and_eq_true, List.isEmpty_iff, decide_eq_true_eq] at h
  obtain ⟨⟨hname, rfl⟩, rfl⟩ := h
  cases form with
  | identifier word => exact ⟨word, rfl, hname⟩
  | _ => cases hname

namespace Sketch

open Text

mutual

/-- Names can be told from the null literal, and those that stand for themselves are new nodes. -/
def isClear : Sketch → Bool
  | text _ => true
  | null => true
  | name value => isKey value
  | member owner property => owner.isClear && isKey property
  | call callee arguments => callee.isClear && areClear arguments
  | object fields => fieldsAreClear fields

def areClear : List Sketch → Bool
  | [] => true
  | sketch :: sketches => sketch.isClear && areClear sketches

def fieldsAreClear : List (Field Sketch) → Bool
  | [] => true
  | field :: fields => fieldIsClear field && fieldsAreClear fields

def fieldIsClear : Field Sketch → Bool
  | .keyed key value => isKey key && value.isClear
  | .shorthand n => n.isNewKey

end

theorem textOrNull_injective : Function.Injective textOrNull := by
  intro a b h
  cases a <;> cases b <;> cases h <;> rfl

theorem fieldsAreClear_shorthand (names : List Node) :
    fieldsAreClear (names.map .shorthand) = names.all Node.isNewKey := by
  induction names with
  | nil => rfl
  | cons n names ih => rw [List.map_cons, fieldsAreClear, fieldIsClear, ih, List.all_cons]

/-! ### Sketches and their nodes -/

theorem eq_of_ofForm_eq {form form' : Form Node} (h : Node.ofForm form = Node.ofForm form') :
    form = form' :=
  congrArg Node.form h

mutual

theorem toNode_injective : ∀ s t : Sketch, s.toNode = t.toNode → s = t
  | text value, t, h => by
    cases t with
    | text other => rw [Form.stringLiteral.inj (eq_of_ofForm_eq h)]
    | _ => cases eq_of_ofForm_eq h
  | null, t, h => by
    cases t with
    | null => rfl
    | _ => cases eq_of_ofForm_eq h
  | name value, t, h => by
    cases t with
    | name other => rw [Form.identifier.inj (eq_of_ofForm_eq h)]
    | _ => cases eq_of_ofForm_eq h
  | member owner property, t, h => by
    cases t with
    | member other name =>
      obtain ⟨howner, hname⟩ := Form.propertyAccess.inj (eq_of_ofForm_eq h)
      rw [toNode_injective owner other howner, Form.identifier.inj (eq_of_ofForm_eq hname)]
    | _ => cases eq_of_ofForm_eq h
  | call callee arguments, t, h => by
    cases t with
    | call other others =>
      obtain ⟨hcallee, harguments⟩ := Form.callExpression.inj (eq_of_ofForm_eq h)
      rw [toNode_injective callee other hcallee, toNodes_injective arguments others harguments]
    | _ => cases eq_of_ofForm_eq h
  | object fields, t, h => by
    cases t with
    | object others =>
      rw [fieldNodes_injective fields others (Form.objectLiteral.inj (eq_of_ofForm_eq h))]
    | _ => cases eq_of_ofForm_eq h

theorem toNodes_injective : ∀ ss ts : List Sketch, toNodes ss = toNodes ts → ss = ts
  | [], ts, h => by
    cases ts with
    | nil => rfl
    | cons => cases h
  | s :: ss, ts, h => by
    cases ts with
    | nil => cases h
    | cons t ts =>
      obtain ⟨hs, hss⟩ := List.cons.inj h
      rw [toNode_injective s t hs, toNodes_injective ss ts hss]

theorem fieldNodes_injective :
    ∀ fs gs : List (Field Sketch), fieldNodes fs = fieldNodes gs → fs = gs
  | [], gs, h => by
    cases gs with
    | nil => rfl
    | cons => cases h
  | f :: fs, gs, h => by
    cases gs with
    | nil => cases h
    | cons g gs =>
      obtain ⟨hf, hfs⟩ := List.cons.inj h
      rw [fieldNode_injective f g hf, fieldNodes_injective fs gs hfs]

theorem fieldNode_injective : ∀ f g : Field Sketch, fieldNode f = fieldNode g → f = g
  | .keyed key value, g, h => by
    cases g with
    | keyed key' value' =>
      obtain ⟨hkey, hvalue⟩ := Form.propertyAssignment.inj (eq_of_ofForm_eq h)
      rw [toNode_injective value value' hvalue, Form.identifier.inj (eq_of_ofForm_eq hkey)]
    | shorthand => cases eq_of_ofForm_eq h
  | .shorthand n, g, h => by
    cases g with
    | keyed => cases eq_of_ofForm_eq h
    | shorthand m => rw [Form.shorthandProperty.inj (eq_of_ofForm_eq h)]

end

/-! ### Sketches that are read back -/

/-- With only one literal that is a word, every other word is a name. -/
def leaf (word : String) : Form Node := if word = "null" then .nullLiteral else .identifier word

/-- A new node that the reader gives back. -/
structure Written (n : Node) : Prop where
  legible : Reader.Legible leaf n
  lexical : n.isLexical = true
  bare : n = .ofForm n.form

theorem written_identifier {word : String} (h : isKey word = true) :
    Written (.identifier word) := by
  simp only [isKey, Bool.and_eq_true, bne_iff_ne] at h
  refine ⟨⟨rfl, rfl, ?_⟩, h.1, rfl⟩
  intro w hw
  cases hw
  exact if_neg h.2

theorem kind_toNode_ne (s : Sketch) : s.toNode.kind ≠ .binaryExpression := by
  cases s <;> nofun

theorem written_ofForm {form : Form Node} (hfits : (Node.ofForm form).fits = true)
    (hgrouped : (Node.ofForm form).isGrouped = true) (hwords : form.hasWords = true)
    (hword : form.word? = none) : Written (.ofForm form) := by
  refine ⟨⟨hfits, hgrouped, ?_⟩, hwords, rfl⟩
  intro w hw
  change w ∈ form.word? at hw
  rw [hword] at hw
  cases hw

mutual

theorem written_toNode : ∀ s : Sketch, s.isClear = true → s.toNode.Everywhere Written
  | text value, _ => (everywhere_text value).mpr (written_ofForm rfl rfl rfl rfl)
  | null, _ => by
    refine Node.everywhere_ofForm.mpr ⟨⟨⟨rfl, rfl, ?_⟩, rfl, rfl⟩, nofun⟩
    intro w hw
    cases hw
    rfl
  | name value, h => (everywhere_name value).mpr (written_identifier h)
  | member owner property, h => by
    rw [isClear, Bool.and_eq_true] at h
    refine (everywhere_member owner property).mpr
      ⟨?_, written_toNode owner h.1, written_identifier h.2⟩
    exact written_ofForm (fits_toNode (member owner property)) (bne_iff_ne.mpr owner.kind_toNode_ne)
      rfl rfl
  | call callee arguments, h => by
    rw [isClear, Bool.and_eq_true] at h
    refine (everywhere_call callee arguments).mpr
      ⟨?_, written_toNode callee h.1, written_toNodes arguments h.2⟩
    exact written_ofForm (fits_toNode (call callee arguments))
      (bne_iff_ne.mpr callee.kind_toNode_ne) rfl rfl
  | object fields, h => by
    refine (everywhere_object fields).mpr ⟨?_, written_fieldNodes fields h⟩
    exact written_ofForm (fits_toNode (object fields)) rfl rfl rfl

theorem written_toNodes :
    ∀ ss : List Sketch, areClear ss = true → ∀ s ∈ ss, s.toNode.Everywhere Written
  | [], _ => nofun
  | s :: ss, h => by
    rw [areClear, Bool.and_eq_true] at h
    exact List.forall_mem_cons.mpr ⟨written_toNode s h.1, written_toNodes ss h.2⟩

theorem written_fieldNodes : ∀ fs : List (Field Sketch), fieldsAreClear fs = true →
    ∀ f ∈ fs, (fieldNode f).Everywhere Written
  | [], _ => nofun
  | f :: fs, h => by
    rw [fieldsAreClear, Bool.and_eq_true] at h
    exact List.forall_mem_cons.mpr ⟨written_fieldNode f h.1, written_fieldNodes fs h.2⟩

theorem written_fieldNode :
    ∀ f : Field Sketch, fieldIsClear f = true → (fieldNode f).Everywhere Written
  | .keyed key value, h => by
    rw [fieldIsClear, Bool.and_eq_true] at h
    refine (everywhere_keyed key value).mpr ⟨?_, written_identifier h.1, written_toNode value h.2⟩
    exact written_ofForm value.isExpression_kind_toNode rfl rfl rfl
  | .shorthand n, h => by
    obtain ⟨word, rfl, hword⟩ := Node.exists_of_isNewKey h
    have hname : (Node.identifier word).Everywhere Written :=
      (everywhere_name word).mpr (written_identifier hword)
    exact (everywhere_shorthand (.identifier word)).mpr
      ⟨written_ofForm rfl rfl rfl rfl, hname⟩

end

theorem bare_toNode {s : Sketch} (h : s.isClear = true) : s.toNode.bare = s.toNode :=
  Node.bare_eq_self ((written_toNode s h).imp fun _ hn => hn.bare)

theorem eq_of_print_eq {s t : Sketch} (hs : s.isClear = true) (ht : t.isClear = true)
    {layout : Layout} (h : s.toNode.print layout = t.toNode.print layout) : s = t := by
  have hwritten := written_toNode s hs
  have hwritten' := written_toNode t ht
  have htokens := Node.tokens_eq_of_print_eq (hwritten.imp fun _ hn => hn.lexical)
    (hwritten'.imp fun _ hn => hn.lexical) h
  have hbare := Reader.bare_eq_of_tokens (hwritten.imp fun _ hn => hn.legible)
    (hwritten'.imp fun _ hn => hn.legible) s.isExpression_kind_toNode t.isExpression_kind_toNode
    htokens
  rw [bare_toNode hs, bare_toNode ht] at hbare
  exact toNode_injective s t hbare

end Sketch

namespace EntryRecord

/-- The arguments are names that can be told from the null literal, without comments. -/
def isClear (record : EntryRecord) : Bool :=
  record.arguments.all fun n => n.identifier?.any Text.isKey && n.comments.isEmpty

variable {record other : EntryRecord} {layout : Layout}

theorem isClear_logging (h : record.isClear = true) : record.bare.logging.isClear = true := by
  have hname : (Sketch.textOrNull record.function).isClear = true := by
    cases record.function <;> rfl
  have harguments :
      Sketch.fieldsAreClear ((record.arguments.map Node.bare).map .shorthand) = true := by
    rw [Sketch.fieldsAreClear_shorthand, List.all_eq_true, List.forall_mem_map]
    intro n hn
    have hn := List.all_eq_true.mp h n hn
    rw [Bool.and_eq_true] at hn
    unfold Node.isNewKey
    rw [Node.identifier?_bare, hn.1, Node.bare_eq]
    rfl
  simp only [logging, content, bare, Sketch.memberOf, Sketch.isClear, Sketch.areClear,
    Sketch.fieldsAreClear, Sketch.fieldIsClear, hname, harguments]
  decide

theorem comments_statement (h : record.isClear = true) :
    record.statement.Everywhere fun n => n.comments = [] := by
  apply everywhere_statement
  · rfl
  · intro sketch
    cases sketch <;> rfl
  · intro key value
    rfl
  · intro n _
    rfl
  · intro n hn
    have hn := List.all_eq_true.mp h n hn
    rw [Bool.and_eq_true, List.isEmpty_iff] at hn
    exact (Node.everywhere_of_kind_identifier (Node.kind_of_isKey hn.1)).mpr hn.2

theorem print_logging_eq (h : record.isClear = true) (h' : other.isClear = true)
    (hprint : record.statement.print layout = other.statement.print layout) :
    record.bare.logging.toNode.print layout = other.bare.logging.toNode.print layout := by
  have htext (r : EntryRecord) (hr : r.isClear = true) :
      r.statement.render layout 0 = r.bare.logging.toNode.render layout 0 ++ [';'] := by
    rw [← Node.render_bare layout (comments_statement hr), bare_statement]
    exact Node.render_ofForm layout _ 0
  have hlines := String.ofList_injective hprint
  rw [htext record h, htext other h'] at hlines
  exact congrArg String.ofList (List.append_cancel_right hlines)

theorem eq_of_logging_eq (h : record.logging = other.logging) : record = other := by
  rcases record with ⟨function, arguments⟩
  rcases other with ⟨function', arguments'⟩
  simp only [logging, content, Sketch.call.injEq, Sketch.object.injEq, List.cons.injEq,
    Sketch.Field.keyed.injEq, true_and, and_true] at h
  obtain ⟨hfunction, harguments⟩ := h
  have hshorthand : Function.Injective fun n => (.shorthand n : Sketch.Field Sketch) :=
    fun _ _ hn => Sketch.Field.shorthand.inj hn
  rw [Sketch.textOrNull_injective hfunction, List.map_injective_iff.mpr hshorthand harguments]

theorem names_of_bare_eq (h : record.bare = other.bare) :
    record.function = other.function ∧
      record.arguments.map Node.identifier? = other.arguments.map Node.identifier? := by
  have hfunction := congrArg EntryRecord.function h
  have harguments := congrArg (fun r => r.arguments.map Node.identifier?) h
  simp only [bare, List.map_map, Function.comp_def, Node.identifier?_bare] at harguments
  exact ⟨hfunction, harguments⟩

/-- The text of a sketch determines the sketch, and the text of a log statement the name of its
function and the names of its arguments. -/
theorem print_determines (layout : Layout) :
    (∀ s t : Sketch, s.isClear = true → t.isClear = true →
      s.toNode.print layout = t.toNode.print layout → s = t) ∧
    (∀ r r' : EntryRecord, r.isClear = true → r'.isClear = true →
      r.statement.print layout = r'.statement.print layout →
        r.function = r'.function ∧
          r.arguments.map Node.identifier? = r'.arguments.map Node.identifier?) := by
  refine ⟨fun s t hs ht => Sketch.eq_of_print_eq hs ht, ?_⟩
  intro r r' hr hr' hprint
  have hlogging := Sketch.eq_of_print_eq (isClear_logging hr) (isClear_logging hr')
    (print_logging_eq hr hr' hprint)
  exact names_of_bare_eq (eq_of_logging_eq hlogging)

/-- A record of one argument, named at the given place. -/
def unary (function : Option String) (span : Span) : EntryRecord :=
  ⟨function, [⟨.identifier "a", span, []⟩]⟩

/-- A call with the given texts as arguments. -/
def textCall (texts : List String) : Sketch := .call (.name "f") (texts.map .text)

theorem print_unary :
    let quoted := textCall ["a\", \"b"]
    let pair := textCall ["a", "b"]
    let here := unary (some "null") Span.synthetic
    let there := unary (some "null") ⟨3, 4, 1, 4⟩
    let nameless := unary none Span.synthetic
    (quoted.isClear = true ∧ pair.isClear = true ∧ quoted.toNode.print ≠ pair.toNode.print) ∧
      (here.isClear = true ∧ there.isClear = true ∧ here.statement.print = there.statement.print ∧
        here.arguments.map Node.identifier? = there.arguments.map Node.identifier?) ∧
      (nameless.isClear = true ∧ nameless.statement.print ≠ here.statement.print) := by
  have h := print_determines {}
  have hquoted : (textCall ["a\", \"b"]).isClear = true := by decide
  have hpair : (textCall ["a", "b"]).isClear = true := by decide
  have hhere : (unary (some "null") Span.synthetic).isClear = true := by decide
  have hthere : (unary (some "null") ⟨3, 4, 1, 4⟩).isClear = true := by decide
  have hnameless : (unary none Span.synthetic).isClear = true := by decide
  have hsame : (unary (some "null") Span.synthetic).statement.print =
      (unary (some "null") ⟨3, 4, 1, 4⟩).statement.print := by decide
  refine ⟨⟨hquoted, hpair, ?_⟩, ⟨hhere, hthere, hsame, ?_⟩, hnameless, ?_⟩
  · intro hprint
    have heq := h.1 _ _ hquoted hpair hprint
    simp [textCall] at heq
  · exact (h.2 _ _ hhere hthere hsame).2
  · intro hprint
    have heq := (h.2 _ _ hnameless hhere hprint).1
    cases heq

end EntryRecord

end EntryTrace
